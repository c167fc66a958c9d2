/-
The disk scheduling of lab10 (main.cpp): the head moves over the cylinders that
are asked for, and each function prints the way it goes and how far that is.
Positions are integers, and an `int` of the program wraps around; reading outside
of an array has no result.
-/
import Mathlib.Algebra.Ring.Int.Defs
import Mathlib.Algebra.Ring.Nat
import Mathlib.Data.List.Sort
import Mathlib.Tactic.Common

namespace PintosLabs
namespace DiskScheduling

/-- `abs(a - b)` -/
def distance (a b : Int) : Int :=
  (((a - b).bmod (2 ^ 32)).natAbs : Int).bmod (2 ^ 32)

/-- What has been printed, and the sum so far. -/
structure Report where
  path : List Int
  sum : Int
  deriving DecidableEq

def Report.print (r : Report) (cylinder : Int) : Report :=
  { r with path := r.path ++ [cylinder] }

def Report.add (r : Report) (moved : Int) : Report :=
  { r with sum := (r.sum + moved).bmod (2 ^ 32) }

/-- The head goes from one cylinder to the next. -/
def Report.move (r : Report) (src dst : Int) : Report :=
  (r.add (distance dst src)).print dst

/-- Each function prints the head first. -/
def Report.start (S : Int) : Report := ⟨[S], 0⟩

def read (order : List Int) (i : Int) : Option Int :=
  if 0 ≤ i then order[i.toNat]? else none

/-- A loop with `n` turns, over `i`, `i + d` and so on. -/
def forLoop (turn : Report → Int → Option Report) (d : Int) :
    Nat → Int → Report → Option Report
  | 0, _, r => some r
  | n + 1, i, r => do
      let r ← turn r i
      forLoop turn d n (i + d) r

/-- `tmp_order` -/
def sorted (order : List Int) : List Int := order.insertionSort (· ≤ ·)

/-- `pos`: before the first request above the head, and 0 when there is none. -/
def splitPos (S : Int) (tmp : List Int) : Int :=
  match tmp.findIdx? fun request => decide (S < request) with
  | some i => i - 1
  | none => 0

/-- The loop over the requests from `pos` down. -/
def sweepDown (S : Int) (tmp : List Int) (pos : Int) : Report → Option Report :=
  forLoop (fun r i => do
    let request ← read tmp i
    let last ← (if i = pos then some S else read tmp (i + 1))
    some (r.move last request)) (-1) (pos + 1).toNat pos

/-- The loop of `scan` over the requests above `pos`, but for the last one. -/
def sweepUp (tmp : List Int) (pos : Int) (advanced : Bool) : Report → Option Report :=
  forLoop (fun r i => do
    let request ← read tmp i
    let last ← (if i = pos + 1 then (if advanced then read tmp 0 else some 0)
      else read tmp (i - 1))
    some (r.move last request)) 1 (tmp.length - 1 - (pos + 1)).toNat (pos + 1)

def scan (S : Int) (order : List Int) (advanced : Bool) : Option Report := do
  let N : Int := order.length
  let tmp := sorted order
  let pos := splitPos S tmp
  let r ← sweepDown S tmp pos (Report.start S)
  let r ← (if advanced then some r else do
    let first ← read tmp 0
    some (r.move first 0))
  let r ← sweepUp tmp pos advanced r
  let request ← read tmp (N - 1)
  let last ← read tmp (N - 2)
  some (r.move last request)

/-- The loop of `c_scan` from the last request down to the one before the last of
its turns. -/
def sweepFar (M : Int) (tmp : List Int) (pos : Int) (advanced : Bool) :
    Report → Option Report :=
  forLoop (fun r i => do
    let request ← read tmp i
    if i = tmp.length - 1 then
      some (if advanced then r.print request else r.move (M - 1) request)
    else do
      let last ← read tmp (i + 1)
      some (r.move last request)) (-1) (tmp.length - 1 - (pos + 1)).toNat (tmp.length - 1)

def cScan (S M : Int) (order : List Int) (advanced : Bool) : Option Report := do
  let tmp := sorted order
  let pos := splitPos S tmp
  let r ← sweepDown S tmp pos (Report.start S)
  let r ← (if advanced then some r else do
    let first ← read tmp 0
    some ((r.move first 0).print (M - 1)))
  let r ← sweepFar M tmp pos advanced r
  let request ← read tmp (pos + 1)
  let last ← read tmp (pos + 2)
  some (r.move last request)

/-! The way over a list of cylinders. -/

/-- The sum of the distances on a way. -/
def seek : List Int → Int
  | [] => 0
  | [_] => 0
  | src :: dst :: rest => (dst - src).natAbs + seek (dst :: rest)

/-- From `src` over the cylinders of a list. -/
def Report.walk (r : Report) (src : Int) : List Int → Report
  | [] => r
  | dst :: rest => (r.move src dst).walk dst rest

variable {S M src d : Int} {order tmp xs : List Int} {r : Report}

@[simp] theorem path_move (r : Report) (src dst : Int) :
    (r.move src dst).path = r.path ++ [dst] := rfl

@[simp] theorem path_walk : (r.walk src xs).path = r.path ++ xs := by
  induction xs generalizing r src with
  | nil => exact (List.append_nil _).symm
  | cons dst rest ih => rw [Report.walk, ih, path_move, List.append_assoc]; rfl

theorem walk_append {ys : List Int} {last : Int} (hlast : (src :: xs).getLast? = some last) :
    r.walk src (xs ++ ys) = (r.walk src xs).walk last ys := by
  induction xs generalizing r src with
  | nil =>
      cases hlast
      rfl
  | cons next rest ih =>
      rw [List.getLast?_cons_cons] at hlast
      rw [List.cons_append, Report.walk, ih hlast, Report.walk]

/-- The cylinders are so near to each other that no distance wraps around. -/
def Close (cylinders : List Int) : Prop :=
  ∀ a ∈ cylinders, ∀ b ∈ cylinders, (a - b).natAbs < 2 ^ 31

theorem distance_eq {a b : Int} (hclose : (a - b).natAbs < 2 ^ 31) :
    distance a b = (a - b).natAbs := by
  have hinner : (a - b).bmod (2 ^ 32) = a - b := by
    apply Int.bmod_eq_of_le <;> omega
  unfold distance
  rw [hinner]
  apply Int.bmod_eq_of_le <;> omega

theorem sum_walk {n : Int} (hr : r.sum = n.bmod (2 ^ 32)) (hclose : Close (src :: xs)) :
    (r.walk src xs).sum = (n + seek (src :: xs)).bmod (2 ^ 32) := by
  induction xs generalizing r src n with
  | nil => rw [Report.walk, hr, seek, Int.add_zero]
  | cons dst rest ih =>
      have hmove : (r.move src dst).sum = (n + (dst - src).natAbs).bmod (2 ^ 32) := by
        change (r.sum + distance dst src).bmod (2 ^ 32) = _
        rw [hr, distance_eq (hclose dst (List.mem_cons_of_mem _ List.mem_cons_self) src
          List.mem_cons_self), Int.bmod_add_bmod]
      have hrest : Close (dst :: rest) := fun a ha b hb =>
        hclose a (List.mem_cons_of_mem _ ha) b (List.mem_cons_of_mem _ hb)
      rw [Report.walk, ih hmove hrest, seek, Int.add_assoc]

@[simp] theorem read_natCast (order : List Int) (i : Nat) : read order i = order[i]? := by
  rw [read, if_pos (by omega), Int.toNat_natCast]

/-- The turns of a loop that go from one cylinder of a list to the next. -/
theorem forLoop_eq_walk {turn : Report → Int → Option Report} {i : Int}
    (hturn : ∀ (k : Nat) (last request : Int), (src :: xs)[k]? = some last →
      xs[k]? = some request → ∀ r, turn r (i + k * d) = some (r.move last request)) :
    forLoop turn d xs.length i r = some (r.walk src xs) := by
  induction xs generalizing src i r with
  | nil => rfl
  | cons dst rest ih =>
      have hfirst := hturn 0 src dst rfl rfl r
      rw [Int.natCast_zero, Int.zero_mul, Int.add_zero] at hfirst
      have hrest : forLoop turn d rest.length (i + d) (r.move src dst) =
          some ((r.move src dst).walk dst rest) := by
        refine ih fun k last request hlast hrequest r => ?_
        have hnext := hturn (k + 1) last request hlast hrequest r
        rwa [Int.natCast_add, Int.natCast_one, Int.add_mul, Int.one_mul,
          Int.add_comm (k * d), ← Int.add_assoc] at hnext
      rw [List.length_cons, forLoop, hfirst, Option.bind_eq_bind, Option.bind_some, hrest,
        Report.walk]

variable {low mid high : List Int} {z : Int}

theorem sweepDown_eq :
    sweepDown S (low ++ high) (low.length - 1) r = some (r.walk S low.reverse) := by
  have hcount : ((low.length : Int) - 1 + 1).toNat = low.reverse.length := by
    rw [List.length_reverse]
    omega
  rw [sweepDown, hcount]
  refine forLoop_eq_walk fun k last request hlast hrequest r => ?_
  have hk := (List.getElem?_eq_some_iff.mp hrequest).1
  rw [List.length_reverse] at hk
  have hi : (low.length : Int) - 1 + k * -1 = (low.length - 1 - k : Nat) := by omega
  have hread : read (low ++ high) (low.length - 1 + k * -1) = some request := by
    rw [hi, read_natCast, List.getElem?_append_left (by omega), ← hrequest,
      List.getElem?_reverse hk]
  rw [hread, Option.bind_eq_bind, Option.bind_some]
  cases k with
  | zero =>
      cases hlast
      rw [if_pos (by omega)]
      rfl
  | succ k =>
      have hbefore : (low.length : Int) - 1 + (k + 1 : Nat) * -1 + 1 =
          (low.length - 1 - k : Nat) := by
        omega
      have hlast : low.reverse[k]? = some last := hlast
      have hmove : (k + 1 : Nat) * (-1 : Int) ≠ 0 := by omega
      rw [if_neg (by omega), hbefore, read_natCast,
        List.getElem?_append_left (by omega), ← List.getElem?_reverse (by omega), hlast]
      rfl

theorem sweepUp_eq {first : Int} {advanced : Bool}
    (hfirst : (low ++ (mid ++ [z])).head? = some first) :
    sweepUp (low ++ (mid ++ [z])) (low.length - 1) advanced r =
      some (r.walk (if advanced then first else 0) mid) := by
  have hcount : ((low ++ (mid ++ [z])).length - 1 - ((low.length : Int) - 1 + 1)).toNat =
      mid.length := by
    rw [List.length_append, List.length_append, List.length_singleton]
    omega
  rw [sweepUp, hcount]
  refine forLoop_eq_walk fun k last request hlast hrequest r => ?_
  have hk := (List.getElem?_eq_some_iff.mp hrequest).1
  have hread : read (low ++ (mid ++ [z])) (low.length - 1 + 1 + k * 1) = some request := by
    have hi : (low.length : Int) - 1 + 1 + k * 1 = (low.length + k : Nat) := by omega
    rw [hi, read_natCast, List.getElem?_append_right (by omega), Nat.add_sub_cancel_left,
      List.getElem?_append_left hk, hrequest]
  rw [hread, Option.bind_eq_bind, Option.bind_some]
  cases k with
  | zero =>
      cases hlast
      have hread : read (low ++ (mid ++ [z])) 0 = some first := by
        rw [← Int.natCast_zero, read_natCast, ← List.head?_eq_getElem?, hfirst]
      rw [if_pos (by omega), hread]
      cases advanced <;> rfl
  | succ k =>
      have hbefore : (low.length : Int) - 1 + 1 + (k + 1 : Nat) * 1 - 1 =
          (low.length + k : Nat) := by
        omega
      have hlast : mid[k]? = some last := hlast
      have hmove : (k + 1 : Nat) * (1 : Int) ≠ 0 := by omega
      rw [if_neg (by omega), hbefore, read_natCast, List.getElem?_append_right (by omega),
        Nat.add_sub_cancel_left, List.getElem?_append_left (by omega), hlast]
      rfl

/-- `scan` with a request left for the end, once `pos` is known. -/
theorem scan_eq {first last : Int} {advanced : Bool}
    (htmp : sorted order = low ++ (mid ++ [z]))
    (hpos : splitPos S (sorted order) = low.length - 1)
    (hfirst : (low ++ mid).head? = some first)
    (hlast : (low ++ mid).getLast? = some last) :
    scan S order advanced = some (((if advanced then (Report.start S).walk S low.reverse
      else ((Report.start S).walk S low.reverse).move first 0).walk
        (if advanced then first else 0) mid).move last z) := by
  have hlen : order.length = (low ++ mid).length + 1 := by
    have := congrArg List.length htmp
    rw [sorted, List.length_insertionSort, ← List.append_assoc, List.length_append] at this
    exact this
  have hne : 1 ≤ (low ++ mid).length := by
    cases hcase : low ++ mid with
    | nil => rw [hcase] at hfirst; cases hfirst
    | cons => simp
  have hsame : low ++ (mid ++ [z]) = (low ++ mid) ++ [z] := (List.append_assoc _ _ _).symm
  have hhead : (low ++ (mid ++ [z])).head? = some first := by
    rw [hsame, List.head?_append_of_ne_nil _ (List.ne_nil_of_length_pos hne), hfirst]
  have hreadFirst : read (low ++ (mid ++ [z])) 0 = some first := by
    rw [← Int.natCast_zero, read_natCast, ← List.head?_eq_getElem?, hhead]
  have hreadLast : read (low ++ (mid ++ [z])) (order.length - 2) = some last := by
    have hi : (order.length : Int) - 2 = ((low ++ mid).length - 1 : Nat) := by omega
    rw [hsame, hi, read_natCast, List.getElem?_append_left (by omega),
      ← List.getLast?_eq_getElem?, hlast]
  have hreadEnd : read (low ++ (mid ++ [z])) (order.length - 1) = some z := by
    have hi : (order.length : Int) - 1 = ((low ++ mid).length : Nat) := by omega
    rw [hsame, hi, read_natCast, List.getElem?_concat_length]
  rw [htmp] at hpos
  rw [scan]
  cases advanced <;>
    simp only [htmp, hpos, sweepDown_eq, sweepUp_eq hhead, hreadFirst, hreadLast, hreadEnd,
      Option.bind_eq_bind, Option.bind_some, if_true, Bool.false_eq_true, if_false]

theorem scan_of_length_le_one {advanced : Bool} (hlen : order.length ≤ 1) :
    scan S order advanced = none := by
  have hread : read (sorted order) (order.length - 2) = none :=
    if_neg (by omega)
  rw [scan]
  simp only [hread, Option.bind_eq_bind, Option.bind_none, Option.bind_fun_none]

/-- The way of `c_scan` to the high end: down again from there. -/
def toHighEnd (M z : Int) (advanced : Bool) (r : Report) : Report :=
  if advanced then r.print z else r.move (M - 1) z

theorem sweepFar_eq {a : Int} {advanced : Bool} (hhigh : high.reverse = z :: xs) :
    sweepFar M (low ++ a :: high) (low.length - 1) advanced r =
      some ((toHighEnd M z advanced r).walk z xs) := by
  have hlen : high.length = xs.length + 1 := by
    have := congrArg List.length hhigh
    rwa [List.length_reverse] at this
  have htotal : (low ++ a :: high).length = low.length + 1 + high.length := by
    rw [List.length_append, List.length_cons]
    omega
  have hcount : ((low ++ a :: high).length - 1 - ((low.length : Int) - 1 + 1)).toNat =
      xs.length + 1 := by
    omega
  have hread : ∀ k < high.length,
      read (low ++ a :: high) ((low ++ a :: high).length - 1 - k) = high.reverse[k]? := by
    intro k hk
    have hi : ((low ++ a :: high).length : Int) - 1 - k =
        (low.length + 1 + (high.length - 1 - k) : Nat) := by
      omega
    have hsame : low ++ a :: high = (low ++ [a]) ++ high := by simp
    rw [hi, read_natCast, List.getElem?_reverse hk, hsame,
      List.getElem?_append_right (by simp)]
    congr 1
    simp
  rw [sweepFar, hcount, forLoop]
  have hstart := hread 0 (by omega)
  rw [Int.natCast_zero, Int.sub_zero, hhigh, List.getElem?_cons_zero] at hstart
  simp only [hstart, Option.bind_eq_bind, Option.bind_some, if_true]
  refine forLoop_eq_walk fun k last request hlast hrequest r => ?_
  have hk := (List.getElem?_eq_some_iff.mp hrequest).1
  have hi : ((low ++ a :: high).length : Int) - 1 + -1 + k * -1 =
      (low ++ a :: high).length - 1 - (k + 1 : Nat) := by
    omega
  have hbefore : ((low ++ a :: high).length : Int) - 1 + -1 + k * -1 + 1 =
      (low ++ a :: high).length - 1 - (k : Nat) := by
    omega
  rw [hbefore, hread k (by omega), hi, hread (k + 1) (by omega), hhigh, hlast,
    List.getElem?_cons_succ, hrequest, Option.bind_some, if_neg (by omega), Option.bind_some]

/-- `c_scan` with two requests for the end, once `pos` is known. -/
theorem cScan_eq {a b first : Int} {advanced : Bool}
    (htmp : sorted order = low ++ a :: b :: high)
    (hpos : splitPos S (sorted order) = low.length - 1)
    (hfirst : (low ++ [a]).head? = some first) (hhigh : (b :: high).reverse = z :: xs) :
    cScan S M order advanced = some (((toHighEnd M z advanced
      (if advanced then (Report.start S).walk S low.reverse
        else (((Report.start S).walk S low.reverse).move first 0).print (M - 1))).walk z
          xs).move b a) := by
  have hsame : low ++ a :: b :: high = (low ++ [a]) ++ b :: high := by simp
  have hreadFirst : read (low ++ a :: b :: high) 0 = some first := by
    rw [← Int.natCast_zero, read_natCast, ← List.head?_eq_getElem?, hsame,
      List.head?_append_of_ne_nil _ (by simp), hfirst]
  have hreadEnd : read (low ++ a :: b :: high) (low.length - 1 + 1) = some a := by
    have hi : (low.length : Int) - 1 + 1 = (low.length : Nat) := by omega
    rw [hi, read_natCast, List.getElem?_append_right (Nat.le_refl _), Nat.sub_self]
    rfl
  have hreadLast : read (low ++ a :: b :: high) (low.length - 1 + 2) = some b := by
    have hi : (low.length : Int) - 1 + 2 = (low.length + 1 : Nat) := by omega
    rw [hi, read_natCast, List.getElem?_append_right (by omega), Nat.add_sub_cancel_left]
    rfl
  rw [htmp] at hpos
  rw [cScan]
  cases advanced <;>
    simp only [htmp, hpos, sweepDown_eq, sweepFar_eq hhigh, hreadFirst, hreadLast, hreadEnd,
      Option.bind_eq_bind, Option.bind_some, if_true, Bool.false_eq_true, if_false]

/-- With less than two requests from `pos + 1` on, `c_scan` reads behind the end. -/
theorem cScan_eq_none {advanced : Bool} (htmp : sorted order = low ++ high)
    (hpos : splitPos S (sorted order) = low.length - 1) (hhigh : high.length ≤ 1) :
    cScan S M order advanced = none := by
  have hread : read (low ++ high) (low.length - 1 + 2) = none := by
    have hi : (low.length : Int) - 1 + 2 = (low.length + 1 : Nat) := by omega
    rw [hi, read_natCast]
    exact List.getElem?_eq_none (by rw [List.length_append]; omega)
  rw [htmp] at hpos
  rw [cScan]
  simp only [htmp, hpos, hread, Option.bind_eq_bind, Option.bind_none, Option.bind_fun_none]

end DiskScheduling
end PintosLabs
