/-
The page replacement algorithms of lab9 (main.cpp): first in first out, least
recently used, the one that looks into the future, and the clock.  Each serves
the reference string and counts the hits; what the C++ library leaves
undefined makes a run `none`.
-/
import Mathlib.Algebra.Ring.Int.Defs
import Mathlib.Algebra.Ring.Nat
import Mathlib.Data.Finset.Card

namespace PintosLabs

namespace PageReplacement

/-- `for (int i = 0; i < N; i++)` over the reference string. -/
def forOrder {S : Type} (step : Nat → S → Int → Option S) :
    Nat → List Int → S → Option S
  | _, [], st => some st
  | i, page :: rest, st => do
      let st ← step i st page
      forOrder step (i + 1) rest st

structure FifoState where
  hit : Nat
  que : List Int
  eleSet : Finset Int

def fifoStep (K : Nat) (_ : Nat) (st : FifoState) (page : Int) :
    Option FifoState :=
  if page ∉ st.eleSet then do
    let st ←
      if st.que.length = K then
        match st.que with
        | [] => none
        | f :: rest =>
            if f ∈ st.eleSet then
              some { st with que := rest, eleSet := st.eleSet.erase f }
            else none
      else some st
    some { st with que := st.que ++ [page], eleSet := insert page st.eleSet }
  else some { st with hit := st.hit + 1 }

def fifo (K : Nat) (order : List Int) : Option Nat :=
  (forOrder (fifoStep K) 0 order ⟨0, [], ∅⟩).map FifoState.hit

/-- `list<int> ls` and `pos_map`, which leads from a page to its node in the
list.  A node is known by a number of its own. -/
structure PageList where
  ls : List (Nat × Int)
  posMap : Std.TreeMap Int Nat
  fresh : Nat

namespace PageList

def empty : PageList := ⟨[], ∅, 0⟩

/-- `ls.push_back(page); pos_map[page] = --ls.end();` -/
def pushBack (l : PageList) (page : Int) : PageList where
  ls := l.ls ++ [(l.fresh, page)]
  posMap := l.posMap.insert page l.fresh
  fresh := l.fresh + 1

/-- `ls.erase(pos)`, for a node of the list. -/
def eraseNode (l : PageList) (pos : Nat) : Option PageList :=
  if pos ∈ l.ls.map Prod.fst then
    some { l with ls := l.ls.filter fun node => node.1 ≠ pos }
  else none

/-- `pos_map.erase(pos_map.find(page))` -/
def eraseKey (l : PageList) (page : Int) : Option PageList :=
  if page ∈ l.posMap then some { l with posMap := l.posMap.erase page } else none

end PageList

structure LruState where
  hit : Nat
  pages : PageList

def lruStep (K : Nat) (_ : Nat) (st : LruState) (page : Int) : Option LruState :=
  match st.pages.posMap[page]? with
  | none => do
      let pages ←
        if st.pages.posMap.size = K then
          match st.pages.ls with
          | [] => none
          | (_, ind) :: rest =>
              ({ st.pages with ls := rest } : PageList).eraseKey ind
        else some st.pages
      some { st with pages := pages.pushBack page }
  | some pos => do
      let pages ← st.pages.eraseNode pos
      some { hit := st.hit + 1, pages := pages.pushBack page }

def lru (K : Nat) (order : List Int) : Option Nat :=
  (forOrder (lruStep K) 0 order ⟨0, .empty⟩).map LruState.hit

/-- `mls`: for each page the places where it is used. -/
abbrev Uses := Std.TreeMap Int (List Nat)

/-- `mls[page]`, an empty list for a new page. -/
def Uses.at (mls : Uses) (page : Int) : List Nat := mls[page]?.getD []

/-- `mls[page].push_back(i)` -/
def pushUse (mls : Uses) (page : Int) (i : Nat) : Uses :=
  mls.insert page (mls.at page ++ [i])

/-- The loop that reads the reference string. -/
def recordUses (mls : Uses) : Nat → List Int → Uses
  | _, [] => mls
  | i, page :: rest => recordUses (pushUse mls page i) (i + 1) rest

/-- The lists of uses, each ended by one `N + 1` for every use. -/
def usesOf (order : List Int) : Uses :=
  order.foldl (fun mls page => pushUse mls page (order.length + 1))
    (recordUses ∅ 0 order)

structure MinState where
  hit : Nat
  pages : PageList
  mls : Uses

/-- The search for a page to give up. -/
structure VictimScan where
  mls : Uses
  maxPos : Int
  maxNum : Int

/-- The `while` loop on the uses of one page: those that are past are dropped,
and the first one that is not is compared. -/
def scanUses (i : Nat) (page : Int) :
    List Nat → VictimScan → VictimScan
  | [], scan => { scan with mls := scan.mls.insert page [] }
  | use :: rest, scan =>
      if use < i then scanUses i page rest scan
      else
        let scan := { scan with mls := scan.mls.insert page (use :: rest) }
        if (use : Int) > scan.maxNum then
          { scan with maxPos := page, maxNum := use }
        else scan

/-- `iter` is the order in which the pages of `pos_map` come up. -/
def minStep (K : Nat) (iter : Nat → List Int → List Int) (i : Nat)
    (st : MinState) (page : Int) : Option MinState :=
  if page ∉ st.pages.posMap then do
    let st ←
      if st.pages.posMap.size = K then do
        let scan := (iter i st.pages.posMap.keys).foldl
          (fun scan page => scanUses i page (scan.mls.at page) scan)
          ⟨st.mls, -1, -1⟩
        let pos ← st.pages.posMap[scan.maxPos]?
        let pages ← st.pages.eraseNode pos
        let pages ← pages.eraseKey scan.maxPos
        some { st with pages := pages, mls := scan.mls }
      else some st
    some { st with pages := st.pages.pushBack page }
  else some { st with hit := st.hit + 1 }

def min (K : Nat) (iter : Nat → List Int → List Int) (order : List Int) :
    Option Nat :=
  (forOrder (minStep K iter) 0 order ⟨0, .empty, usesOf order⟩).map MinState.hit

/-- The loop of `get_ind`, of at most as many rounds as the number says. -/
def getIndLoop (K : Nat) : Nat → Nat → Option Nat
  | 0, _ => none
  | n + 1, ind => if ind > K then getIndLoop K n (ind - K) else some ind

def getInd (K ind : Nat) : Option Nat := getIndLoop K (ind + 1) ind

structure ClockState where
  hit : Nat
  hand : Nat
  vec : List (Int × Int)
  eleSet : Finset Int

/-- The `while` loop that moves the hand to a slot whose second chance is
over; every slot that still has one loses it, so that the loop ends. -/
def clockLoop (K : Nat) (page : Int) : Nat → ClockState → Option ClockState
  | 0, _ => none
  | n + 1, st => do
      let slot ← st.vec[st.hand]?
      if slot.2 = 0 then
        let eleSet := if slot.1 ∈ st.eleSet then st.eleSet.erase slot.1
          else st.eleSet
        some
          { st with
            vec := st.vec.set st.hand (page, 1)
            eleSet := insert page eleSet }
      else do
        let hand ← getInd K (st.hand + 1)
        clockLoop K page n
          { st with vec := st.vec.set st.hand (slot.1, 0), hand := hand }

def clockStep (K : Nat) (_ : Nat) (st : ClockState) (page : Int) :
    Option ClockState :=
  if page ∉ st.eleSet then do
    let st ← clockLoop K page (st.vec.length + 1) st
    let hand ← getInd K (st.hand + 1)
    some { st with hand := hand }
  else do
    let j ← st.vec.findIdx? fun slot => slot.1 == page
    let slot ← st.vec[j]?
    some { st with hit := st.hit + 1, vec := st.vec.set j (slot.1, 1) }

def clock (K : Nat) (order : List Int) : Option Nat :=
  (forOrder (clockStep K) 0 order
    ⟨0, 1, List.replicate (order.length + 1) (-1, 0), ∅⟩).map ClockState.hit

end PageReplacement

end PintosLabs
