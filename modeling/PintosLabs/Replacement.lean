/-
The page replacement program of lab8 (replacement.cpp), which has algorithms
of its own for the four policies: a list that is searched, a map from the pages
to the times of their last use, a map from the pages to their uses, and a list
of frames that a hand goes round.
-/
import PintosLabs.PageReplacement

namespace PintosLabs

namespace Replacement

open PageReplacement (forOrder Uses recordUses)

structure FifoState where
  hit : Nat
  fifoCache : List Int

def fifoStep (cacheSize : Nat) (_ : Nat) (st : FifoState) (index : Int) :
    Option FifoState :=
  if index ∈ st.fifoCache then some { st with hit := st.hit + 1 }
  else
    let fifoCache := st.fifoCache ++ [index]
    if fifoCache.length > cacheSize then
      some { st with fifoCache := fifoCache.tail }
    else some { st with fifoCache := fifoCache }

def fifo (cacheSize : Nat) (order : List Int) : Option Nat :=
  (forOrder (fifoStep cacheSize) 0 order ⟨0, []⟩).map FifoState.hit

structure LruState where
  hit : Nat
  lruCache : Std.TreeMap Int Nat

/-- The loop that looks for the page with the least time. -/
def minIter (first : Int × Nat) (entries : List (Int × Nat)) : Int × Nat :=
  entries.foldl (fun minIter iter => if iter.2 < minIter.2 then iter else minIter)
    first

def lruStep (cacheSize : Nat) (i : Nat) (st : LruState) (index : Int) :
    Option LruState :=
  let lruCache := st.lruCache.insert index i
  if index ∈ st.lruCache then some ⟨st.hit + 1, lruCache⟩
  else if lruCache.size > cacheSize then
    match lruCache.toList with
    | [] => none
    | first :: rest =>
        some { st with
          lruCache := lruCache.erase (minIter first (first :: rest)).1 }
  else some { st with lruCache := lruCache }

def lru (cacheSize : Nat) (order : List Int) : Option Nat :=
  (forOrder (lruStep cacheSize) 0 order ⟨0, ∅⟩).map LruState.hit

/-- `info`: the uses of each page, with one use past the end of the string. -/
def infoOf (order : List Int) : Uses :=
  (recordUses ∅ 0 order).map fun _ uses => uses ++ [order.length + 10]

/-- `while (info[page].front() < i) info[page].pop_front();` -/
def popPast (i : Nat) : List Nat → Option (List Nat)
  | [] => none
  | use :: rest => if use < i then popPast i rest else some (use :: rest)

structure MaxScan where
  info : Uses
  max : Int

/-- One round of the loop that looks for the page with the latest next use. -/
def scanPage (i : Nat) (scan : MaxScan) (page : Int) : Option MaxScan := do
  let uses ← popPast i (scan.info.at page)
  let info : Uses := scan.info.insert page uses
  let maxFront ← (info.at scan.max).head?
  let front ← (info.at page).head?
  some ⟨info, if maxFront < front then page else scan.max⟩

structure MinState where
  hit : Nat
  minCache : Std.TreeMap Int Int
  info : Uses

def minStep (cacheSize : Nat) (i : Nat) (st : MinState) (index : Int) :
    Option MinState :=
  if index ∈ st.minCache then some { st with hit := st.hit + 1 }
  else
    let minCache := st.minCache.insert index 0
    if minCache.size > cacheSize then
      match minCache.keys with
      | [] => none
      | first :: rest => do
          let scan ← (first :: rest).foldlM (scanPage i) ⟨st.info, first⟩
          some { st with minCache := minCache.erase scan.max, info := scan.info }
    else some { st with minCache := minCache }

def min (cacheSize : Nat) (order : List Int) : Option Nat :=
  (forOrder (minStep cacheSize) 0 order ⟨0, ∅, infoOf order⟩).map MinState.hit

structure ClockStru where
  valid : Nat
  usage : Nat
  value : Int

/-- The hand is an iterator into the list; it points nowhere until a frame is
filled. -/
structure ClockState where
  hit : Nat
  clockCache : List ClockStru
  hand : Option Nat

/-- `while (victum)`: every frame that the hand passes loses its usage, so that
the loop ends. -/
def victumLoop (index : Int) : Nat → ClockState → Option ClockState
  | 0, _ => none
  | n + 1, st => do
      let hand ← st.hand
      let stru ← st.clockCache[hand]?
      let next := if hand + 1 = st.clockCache.length then 0 else hand + 1
      if stru.valid = 1 ∧ stru.usage = 0 then
        some
          { st with
            clockCache := st.clockCache.set hand { stru with value := index, usage := 1 }
            hand := some next }
      else
        victumLoop index n
          { st with
            clockCache := st.clockCache.set hand { stru with usage := 0 }
            hand := some next }

/-- For a cache of at least one page, so that `cache_size - 1` is no negative
number. -/
def clockStep (cacheSize : Nat) (_ : Nat) (st : ClockState) (index : Int) :
    Option ClockState :=
  match st.clockCache.findIdx? fun stru => stru.valid = 1 ∧ stru.value = index with
  | some iter => do
      let stru ← st.clockCache[iter]?
      some { st with
        hit := st.hit + 1
        clockCache := st.clockCache.set iter { stru with usage := 1 } }
  | none =>
      if st.clockCache.length < cacheSize - 1 then
        some { st with clockCache := st.clockCache ++ [⟨1, 1, index⟩], hand := some 0 }
      else victumLoop index (st.clockCache.length + 1) st

def clock (cacheSize : Nat) (order : List Int) : Option Nat :=
  (forOrder (clockStep cacheSize) 0 order ⟨0, [], none⟩).map ClockState.hit

end Replacement

end PintosLabs
