/-
The distance that `scan` and `c_scan` report is that of the way they print.
-/
import PintosLabs.DiskSweeps

namespace PintosLabs
namespace DiskScheduling

variable {S M src n t z : Int} {order xs ys : List Int} {r : Report} {advanced : Bool}

/-- A cylinder of an `int`. -/
def OnDisk (cylinder : Int) : Prop := 0 ≤ cylinder ∧ cylinder < 2 ^ 31

theorem close_of_onDisk (hdisk : ∀ x ∈ xs, OnDisk x) : Close xs := by
  intro a ha b hb
  obtain ⟨ha, ha'⟩ := hdisk a ha
  obtain ⟨hb, hb'⟩ := hdisk b hb
  omega

theorem seek_append (z : Int) :
    seek (xs ++ z :: ys) = seek (xs ++ [z]) + seek (z :: ys) := by
  induction xs with
  | nil => rw [List.nil_append, List.nil_append, seek, Int.zero_add]
  | cons x xs ih =>
      cases xs with
      | nil => simp [seek]
      | cons x' xs =>
          simp only [List.cons_append, seek] at ih ⊢
          rw [ih, Int.add_assoc]

theorem seek_of_ascending (h : (src :: xs).Pairwise (· ≤ ·))
    (hlast : (src :: xs).getLast? = some z) : seek (src :: xs) = z - src := by
  induction xs generalizing src with
  | nil =>
      cases hlast
      simp [seek]
  | cons dst rest ih =>
      rw [List.getLast?_cons_cons] at hlast
      have hle := (List.pairwise_cons.mp h).1 dst List.mem_cons_self
      rw [seek, ih (List.pairwise_cons.mp h).2 hlast]
      omega

theorem seek_of_descending (h : (src :: xs).Pairwise (· ≥ ·))
    (hlast : (src :: xs).getLast? = some z) : seek (src :: xs) = src - z := by
  induction xs generalizing src with
  | nil =>
      cases hlast
      simp [seek]
  | cons dst rest ih =>
      rw [List.getLast?_cons_cons] at hlast
      have hge := (List.pairwise_cons.mp h).1 dst List.mem_cons_self
      rw [seek, ih (List.pairwise_cons.mp h).2 hlast]
      omega

/-! What the calls report when two requests or more are above the head. -/

/-- The way down from the head. -/
def wayDown (S : Int) (order : List Int) (advanced : Bool) : List Int :=
  descending (below S order) ++ if advanced then [] else [0]

/-- It ends at the lowest request, or at the end of the disk. -/
theorem wayDown_spec {first : Int} {low : List Int}
    (hlow : sorted (below S order) = first :: low)
    (hreq : ∀ request ∈ order, 0 ≤ request) (advanced : Bool) :
    (S :: wayDown S order advanced).getLast? = some (if advanced then first else 0) ∧
      (S :: wayDown S order advanced).Pairwise (· ≥ ·) ∧ 0 ≤ first ∧ first ≤ S := by
  have hfirst : first ∈ sorted (below S order) := hlow ▸ List.mem_cons_self
  have hnonneg : ∀ request ∈ sorted (below S order), 0 ≤ request := by
    intro request hmem
    exact hreq request (List.mem_filter.mp ((sorted_perm _).mem_iff.mp hmem)).1
  have hdesc : (S :: descending (below S order)).Pairwise (· ≥ ·) := by
    refine List.pairwise_cons.mpr ⟨fun request hmem => ?_, List.pairwise_insertionSort _ _⟩
    rw [descending_eq, List.mem_reverse] at hmem
    exact mem_sorted_below hmem
  have hle : first ≤ S := mem_sorted_below hfirst
  refine ⟨?_, ?_, hnonneg first hfirst, hle⟩
  · rw [wayDown, descending_eq, hlow]
    cases advanced <;> simp [List.getLast?_cons]
  · rw [wayDown]
    cases advanced with
    | true => simpa using hdesc
    | false =>
        rw [← List.cons_append]
        refine List.pairwise_append.mpr ⟨hdesc, List.pairwise_singleton _ _, ?_⟩
        intro x hx y hy
        rw [List.mem_singleton.mp hy]
        rcases List.mem_cons.mp hx with rfl | hx
        · exact Int.le_trans (hnonneg first hfirst) hle
        · rw [descending_eq, List.mem_reverse] at hx
          exact hnonneg x hx

theorem scan_eq_walk (hbelow : below S order ≠ []) (habove : 2 ≤ (above S order).length)
    (hreq : ∀ request ∈ order, 0 ≤ request) :
    scan S order advanced =
      some ((Report.start S).walk S (wayDown S order advanced ++ sorted (above S order))) := by
  have hne : sorted (below S order) ≠ [] := fun hnil =>
    hbelow (List.nil_perm.mp (hnil ▸ sorted_perm _))
  obtain ⟨first, low, hlow⟩ := List.exists_cons_of_ne_nil hne
  have hlen : 2 ≤ (sorted (above S order)).length := by
    rwa [(sorted_perm _).length_eq]
  obtain ⟨a, mid, z, hhigh⟩ : ∃ a mid z, sorted (above S order) = a :: mid ++ [z] := by
    match hcase : sorted (above S order), hlen with
    | a :: b :: high, _ =>
        have hne := List.cons_ne_nil b high
        refine ⟨a, (b :: high).dropLast, (b :: high).getLast hne, ?_⟩
        rw [List.cons_append, List.dropLast_append_getLast hne]
  obtain ⟨last, hlast⟩ : ∃ last, (a :: mid).getLast? = some last :=
    ⟨_, List.getLast?_eq_some_getLast (List.cons_ne_nil _ _)⟩
  have hscan := @scan_eq S order (sorted (below S order)) (a :: mid) z first last advanced
    (by rw [sorted_eq S order, hhigh]) (splitPos_sorted hhigh) (by rw [hlow]; rfl)
    (by rw [List.getLast?_append_cons, hlast])
  obtain ⟨hend, -⟩ := wayDown_spec hlow hreq advanced
  have hturn : (if advanced then (Report.start S).walk S (sorted (below S order)).reverse
      else ((Report.start S).walk S (sorted (below S order)).reverse).move first 0) =
      (Report.start S).walk S (wayDown S order advanced) := by
    rw [wayDown, descending_eq]
    cases advanced with
    | true => simp
    | false =>
        have hlowest : (S :: (sorted (below S order)).reverse).getLast? = some first := by
          rw [hlow]
          simp [List.getLast?_cons]
        rw [if_neg (by decide), if_neg (by decide), walk_append hlowest]
        rfl
  have hlast' : ((if advanced then first else 0) :: a :: mid).getLast? = some last := by
    rw [List.getLast?_cons_cons, hlast]
  rw [hscan, hturn, walk_append hend, hhigh, walk_append hlast']
  rfl

/-- The way of `c_scan` after the jump. -/
def wayBack (S M : Int) (order : List Int) (advanced : Bool) : List Int :=
  (if advanced then [] else [M - 1]) ++ descending (above S order)

theorem cScan_eq_walk (hbelow : below S order ≠ []) (habove : 2 ≤ (above S order).length)
    (advanced : Bool) :
    ∃ far rest, wayBack S M order advanced = far :: rest ∧
      cScan S M order advanced = some
        ((((Report.start S).walk S (wayDown S order advanced)).print far).walk far rest) := by
  have hne : sorted (below S order) ≠ [] := fun hnil =>
    hbelow (List.nil_perm.mp (hnil ▸ sorted_perm _))
  obtain ⟨first, low, hlow⟩ := List.exists_cons_of_ne_nil hne
  have hlen : 2 ≤ (sorted (above S order)).length := by
    rwa [(sorted_perm _).length_eq]
  obtain ⟨a, b, high, hhigh⟩ : ∃ a b high, sorted (above S order) = a :: b :: high := by
    match hcase : sorted (above S order), hlen with
    | a :: b :: high, _ => exact ⟨a, b, high, rfl⟩
  obtain ⟨z, xs, hback⟩ : ∃ z xs, (b :: high).reverse = z :: xs :=
    List.exists_cons_of_ne_nil (by simp)
  have hdesc : descending (above S order) = z :: (xs ++ [a]) := by
    rw [descending_eq, hhigh, List.reverse_cons, hback, List.cons_append]
  have hlast : (z :: xs).getLast? = some b := by
    rw [← hback, List.getLast?_reverse]
    rfl
  have hscan := @cScan_eq S M order xs (sorted (below S order)) high z a b first advanced
    (by rw [sorted_eq S order, hhigh]) (splitPos_sorted hhigh) (by rw [hlow]; rfl) hback
  cases advanced with
  | true =>
      refine ⟨z, xs ++ [a], hdesc, ?_⟩
      rw [hscan, walk_append hlast, wayDown, descending_eq, if_pos rfl, if_pos rfl,
        List.append_nil]
      rfl
  | false =>
      refine ⟨M - 1, z :: (xs ++ [a]), by rw [wayBack, hdesc]; rfl, ?_⟩
      have hlowest : (S :: (sorted (below S order)).reverse).getLast? = some first := by
        rw [hlow]
        simp [List.getLast?_cons]
      have hdown : (Report.start S).walk S (wayDown S order false) =
          ((Report.start S).walk S (sorted (below S order)).reverse).move first 0 := by
        rw [wayDown, descending_eq, if_neg (by decide), walk_append hlowest]
        rfl
      rw [hscan, hdown, if_neg (by decide), Report.walk, walk_append hlast]
      rfl

/-- How many cylinders `c_scan` prints before it jumps to the high end. -/
def jumpAt (S : Int) (order : List Int) (advanced : Bool) : Nat :=
  (S :: wayDown S order advanced).length

/-- The distance of a way, but for the jump after its first `n` cylinders. -/
def seekJump (n : Nat) (path : List Int) : Int :=
  seek (path.take n) + seek (path.drop n)

/-- `scan` reports the distance of the way it prints. -/
def ScanExact (S : Int) (order : List Int) (advanced : Bool) : Prop :=
  ∃ r, scan S order advanced = some r ∧ r.sum = seek r.path

/-- `c_scan` reports the distance of the way it prints, without its jump. -/
def CScanExact (S M : Int) (order : List Int) (advanced : Bool) : Prop :=
  ∃ r, cScan S M order advanced = some r ∧
    r.sum = seekJump (jumpAt S order advanced) r.path

theorem seek_wayDown {first : Int} {low : List Int}
    (hlow : sorted (below S order) = first :: low)
    (hreq : ∀ request ∈ order, 0 ≤ request) (advanced : Bool) :
    seek (S :: wayDown S order advanced) = S - if advanced then first else 0 := by
  obtain ⟨hlast, hdesc, -⟩ := wayDown_spec hlow hreq advanced
  exact seek_of_descending hdesc hlast

/-- From the lowest point the way of `scan` goes up to the last request. -/
theorem seek_scan {first : Int} {low : List Int}
    (hlow : sorted (below S order) = first :: low)
    (hz : (sorted (above S order)).getLast? = some z)
    (hreq : ∀ request ∈ order, 0 ≤ request) (advanced : Bool) :
    seek (S :: (wayDown S order advanced ++ sorted (above S order))) =
      S - (if advanced then first else 0) + (z - if advanced then first else 0) := by
  obtain ⟨hlast, -, hfirst, hle⟩ := wayDown_spec hlow hreq advanced
  have hdown := seek_wayDown hlow hreq advanced
  have hturn : (if advanced then first else 0) ≤ S := by
    cases advanced
    · exact Int.le_trans hfirst hle
    · exact hle
  generalize (if advanced then first else 0) = t at *
  obtain ⟨ys, hys⟩ := List.getLast?_eq_some_iff.mp hlast
  have hup : seek (t :: sorted (above S order)) = z - t := by
    refine seek_of_ascending (List.pairwise_cons.mpr ⟨fun x hx => ?_, sorted_pairwise _⟩) ?_
    · exact Int.le_trans hturn (Int.le_of_lt (mem_sorted_above hx))
    · rw [List.getLast?_cons, hz]
      rfl
  rw [← List.cons_append, hys, List.append_assoc, List.singleton_append, seek_append, ← hys,
    hdown, hup]

/-- From the high end the way of `c_scan` goes down to the request above the head. -/
theorem seek_wayBack {a : Int} {high : List Int}
    (hhigh : sorted (above S order) = a :: high)
    (hreq : ∀ request ∈ order, request < M) (advanced : Bool) :
    ∃ far < M, seek (wayBack S M order advanced) = far - a ∧ a ≤ far := by
  have hlast : (descending (above S order)).getLast? = some a := by
    rw [descending_eq, hhigh, List.getLast?_reverse]
    rfl
  have hdesc : (descending (above S order)).Pairwise (· ≥ ·) :=
    List.pairwise_insertionSort _ _
  have hlt : ∀ x ∈ descending (above S order), x < M := by
    intro x hx
    rw [descending_eq, List.mem_reverse] at hx
    exact hreq x (List.mem_filter.mp ((sorted_perm _).mem_iff.mp hx)).1
  have ha : a ∈ descending (above S order) := List.mem_of_getLast? hlast
  obtain ⟨far, rest, hfar⟩ := List.exists_cons_of_ne_nil (List.ne_nil_of_mem ha)
  rw [hfar] at hlast hdesc hlt ha
  rw [wayBack, hfar]
  cases advanced with
  | true =>
      refine ⟨far, hlt far List.mem_cons_self, seek_of_descending hdesc hlast, ?_⟩
      rcases List.mem_cons.mp ha with rfl | ha
      · exact Int.le_refl _
      · exact (List.pairwise_cons.mp hdesc).1 a ha
  | false =>
      have hend : ∀ x ∈ far :: rest, M - 1 ≥ x := fun x hx => by
        have := hlt x hx
        omega
      refine ⟨M - 1, by omega, ?_, hend a ha⟩
      have hlast' : ((M - 1) :: far :: rest).getLast? = some a := by
        rw [List.getLast?_cons_cons, hlast]
      exact seek_of_descending (List.pairwise_cons.mpr ⟨hend, hdesc⟩) hlast'

theorem le_getLast_sorted {x : Int} (hz : (sorted order).getLast? = some z)
    (hx : x ∈ order) : x ≤ z := by
  obtain ⟨ys, hys⟩ := List.getLast?_eq_some_iff.mp hz
  have hmem := (sorted_perm order).mem_iff.mpr hx
  have hsorted := sorted_pairwise order
  rw [hys] at hmem hsorted
  rcases List.mem_append.mp hmem with hmem | hmem
  · exact (List.pairwise_append.mp hsorted).2.2 x hmem z List.mem_cons_self
  · exact Int.le_of_eq (List.mem_singleton.mp hmem)

theorem mem_wayDown {x : Int} (hx : x ∈ wayDown S order advanced) : x ∈ order ∨ x = 0 := by
  rcases List.mem_append.mp hx with hx | hx
  · rw [descending_eq, List.mem_reverse] at hx
    exact Or.inl (List.mem_filter.mp ((sorted_perm _).mem_iff.mp hx)).1
  · cases advanced
    · exact Or.inr (List.mem_singleton.mp hx)
    · cases hx

theorem mem_wayBack {x : Int} (hx : x ∈ wayBack S M order advanced) :
    x ∈ order ∨ x = M - 1 := by
  rcases List.mem_append.mp hx with hx | hx
  · cases advanced
    · exact Or.inr (List.mem_singleton.mp hx)
    · cases hx
  · rw [descending_eq, List.mem_reverse] at hx
    exact Or.inl (List.mem_filter.mp ((sorted_perm _).mem_iff.mp hx)).1

section

variable (hM : M < 2 ^ 31) (hS : 0 ≤ S ∧ S < M)
  (hreq : ∀ request ∈ order, 0 ≤ request ∧ request < M)
include hM hS hreq

theorem onDisk_wayDown : ∀ x ∈ S :: wayDown S order advanced, OnDisk x := by
  intro x hx
  rcases List.mem_cons.mp hx with rfl | hx
  · exact ⟨hS.1, by omega⟩
  · rcases mem_wayDown hx with hx | rfl
    · exact ⟨(hreq x hx).1, by have := (hreq x hx).2; omega⟩
    · exact ⟨Int.le_refl _, by decide⟩

theorem scan_sum (hbelow : below S order ≠ []) (habove : 2 ≤ (above S order).length) :
    ∃ r, scan S order advanced = some r ∧ r.sum = (seek r.path).bmod (2 ^ 32) ∧
      r.path = S :: (wayDown S order advanced ++ sorted (above S order)) := by
  refine ⟨_, scan_eq_walk hbelow habove fun request hmem => (hreq request hmem).1, ?_,
    path_walk⟩
  have hdisk : ∀ x ∈ S :: (wayDown S order advanced ++ sorted (above S order)), OnDisk x := by
    intro x hx
    rw [← List.cons_append] at hx
    rcases List.mem_append.mp hx with hx | hx
    · exact onDisk_wayDown hM hS hreq x hx
    · have hmem := (List.mem_filter.mp ((sorted_perm _).mem_iff.mp hx)).1
      exact ⟨(hreq x hmem).1, by have := (hreq x hmem).2; omega⟩
  rw [sum_walk (n := 0) rfl (close_of_onDisk hdisk), path_walk, Int.zero_add]
  rfl

theorem cScan_sum (hbelow : below S order ≠ []) (habove : 2 ≤ (above S order).length) :
    ∃ r, cScan S M order advanced = some r ∧
      r.sum = (seekJump (jumpAt S order advanced) r.path).bmod (2 ^ 32) ∧
      seekJump (jumpAt S order advanced) r.path =
        seek (S :: wayDown S order advanced) + seek (wayBack S M order advanced) := by
  obtain ⟨far, rest, hback, hcscan⟩ := cScan_eq_walk (M := M) hbelow habove advanced
  have hdown : ((Report.start S).walk S (wayDown S order advanced)).sum =
      (seek (S :: wayDown S order advanced)).bmod (2 ^ 32) := by
    rw [sum_walk (n := 0) rfl (close_of_onDisk (onDisk_wayDown hM hS hreq)), Int.zero_add]
  have hdisk : ∀ x ∈ far :: rest, OnDisk x := by
    intro x hx
    rw [← hback] at hx
    rcases mem_wayBack hx with hx | rfl
    · exact ⟨(hreq x hx).1, by have := (hreq x hx).2; omega⟩
    · exact ⟨by omega, by omega⟩
  have hpath : ((((Report.start S).walk S (wayDown S order advanced)).print far).walk far
      rest).path = (S :: wayDown S order advanced) ++ far :: rest := by
    simp [Report.print, Report.start]
  have hjump : seekJump (jumpAt S order advanced)
      ((((Report.start S).walk S (wayDown S order advanced)).print far).walk far rest).path =
        seek (S :: wayDown S order advanced) + seek (far :: rest) := by
    rw [seekJump, jumpAt, hpath, List.take_left, List.drop_left]
  refine ⟨_, hcscan, ?_, by rw [hjump, hback]⟩
  rw [hjump]
  exact sum_walk hdown (close_of_onDisk hdisk)

end

/-- The reported distances are those of the printed ways when two requests or more
are above the head and that of `scan` fits in an `int`. -/
theorem seek_exact_iff (hM : M < 2 ^ 31)
    (hreq : ∀ request ∈ order, 0 ≤ request ∧ request < M)
    (hlow : ∃ request ∈ order, request ≤ S) (hhigh : ∃ request ∈ order, S < request) :
    (∀ advanced, ScanExact S order advanced ∧ CScanExact S M order advanced) ↔
      2 ≤ (above S order).length ∧ ∀ request ∈ order, S + request < 2 ^ 31 := by
  obtain ⟨lower, hlower, hle⟩ := hlow
  obtain ⟨higher, hhigher, hlt⟩ := hhigh
  have hS : 0 ≤ S ∧ S < M :=
    ⟨Int.le_trans (hreq lower hlower).1 hle, Int.lt_trans hlt (hreq higher hhigher).2⟩
  have hbelow : below S order ≠ [] :=
    List.ne_nil_of_mem (List.mem_filter.mpr ⟨hlower, decide_eq_true hle⟩)
  have hone : 1 ≤ (above S order).length :=
    List.length_pos_of_mem (List.mem_filter.mpr ⟨hhigher, decide_eq_true hlt⟩)
  have hnonneg : ∀ request ∈ order, 0 ≤ request := fun request hmem => (hreq request hmem).1
  have hltM : ∀ request ∈ order, request < M := fun request hmem => (hreq request hmem).2
  obtain ⟨first, low, hfirst⟩ := List.exists_cons_of_ne_nil
    (fun hnil => hbelow (List.nil_perm.mp (hnil ▸ sorted_perm _)) :
      sorted (below S order) ≠ [])
  obtain ⟨a, high, ha⟩ := List.exists_cons_of_ne_nil
    (fun hnil => List.ne_nil_of_length_pos hone (List.nil_perm.mp (hnil ▸ sorted_perm _)) :
      sorted (above S order) ≠ [])
  obtain ⟨z, hz⟩ : ∃ z, (sorted (above S order)).getLast? = some z :=
    ⟨_, List.getLast?_eq_some_getLast (by rw [ha]; exact List.cons_ne_nil _ _)⟩
  have hzmem : z ∈ order :=
    (List.mem_filter.mp ((sorted_perm _).mem_iff.mp (List.mem_of_getLast? hz))).1
  have hzS : S < z := mem_sorted_above (List.mem_of_getLast? hz)
  obtain ⟨-, -, hfirst0, hfirstS⟩ := wayDown_spec hfirst hnonneg true
  constructor
  · intro hall
    have hmany : 2 ≤ (above S order).length := by
      by_contra hfew
      obtain ⟨r, hr, -⟩ := (hall true).2
      rw [cScan_of_above_eq_one (by omega)] at hr
      cases hr
    obtain ⟨r, hr, hsum, hpath⟩ := @scan_sum S M order false hM hS hreq hbelow hmany
    obtain ⟨r', hr', hexact⟩ := (hall false).1
    rw [hr, Option.some.injEq] at hr'
    subst hr'
    have htotal := seek_scan hfirst hz hnonneg false
    rw [← hpath, ← hexact, hsum] at htotal
    have hbound : (seek r.path).bmod (2 ^ 32) < 2 ^ 31 :=
      Int.bmod_lt (by decide)
    rw [htotal, if_neg (by decide), Int.sub_zero, Int.sub_zero] at hbound
    refine ⟨hmany, fun request hmem => ?_⟩
    have hmax : request ≤ z := by
      rcases lt_or_ge S request with hlt | hle
      · exact le_getLast_sorted hz (List.mem_filter.mpr ⟨hmem, decide_eq_true hlt⟩)
      · omega
    omega
  · rintro ⟨hmany, hfits⟩ advanced
    constructor
    · obtain ⟨r, hr, hsum, hpath⟩ := @scan_sum S M order advanced hM hS hreq hbelow hmany
      refine ⟨r, hr, ?_⟩
      have htotal := seek_scan hfirst hz hnonneg advanced
      have hfit := hfits z hzmem
      rw [← hpath] at htotal
      rw [hsum]
      apply Int.bmod_eq_of_le <;> cases advanced <;> simp at htotal <;> omega
    · obtain ⟨r, hr, hsum, hpath⟩ := @cScan_sum S M order advanced hM hS hreq hbelow hmany
      refine ⟨r, hr, ?_⟩
      have hdown := seek_wayDown hfirst hnonneg advanced
      obtain ⟨far, hfar, hback, hle⟩ := seek_wayBack ha hltM advanced
      have haS : S < a := mem_sorted_above (ha ▸ List.mem_cons_self)
      rw [hsum]
      apply Int.bmod_eq_of_le <;> cases advanced <;> simp at hdown <;> omega

namespace SeekWitness

theorem seek_exact_two : ScanExact 53 [98, 37, 122, 14] false :=
  ((seek_exact_iff (M := 200) (by decide) (by decide) (by decide) (by decide)).mpr
    (by decide) false).1

/-- One request above the head: `scan` adds its distance from the other request,
and prints that it comes from 0. -/
theorem one_above : (∀ request ∈ [10, 70], (0 : Int) ≤ request ∧ request < 100) ∧
    (∃ request ∈ [10, 70], request ≤ (50 : Int)) ∧
    (∃ request ∈ [10, 70], (50 : Int) < request) ∧
    scan 50 [10, 70] false = some ⟨[50, 10, 0, 70], 110⟩ ∧ seek [50, 10, 0, 70] = 120 ∧
    cScan 50 100 [10, 70] false = none ∧ ¬ ScanExact 50 [10, 70] false := by
  have hscan : scan 50 [10, 70] false = some ⟨[50, 10, 0, 70], 110⟩ := by decide +kernel
  refine ⟨by decide, by decide, by decide, hscan, by decide, by decide +kernel, ?_⟩
  rintro ⟨r, hr, hsum⟩
  rw [hscan, Option.some.injEq] at hr
  subst hr
  exact absurd hsum (by decide)

end SeekWitness

end DiskScheduling
end PintosLabs
