/-
The order in which `scan` and `c_scan` serve the requests: down from the head to
the lowest one, and then those above the head, up or down.
-/
import PintosLabs.DiskScheduling

namespace PintosLabs
namespace DiskScheduling

def below (S : Int) (order : List Int) : List Int := order.filter (· ≤ S)

def above (S : Int) (order : List Int) : List Int := order.filter (S < ·)

def descending (order : List Int) : List Int := order.insertionSort (· ≥ ·)

/-- Where the head turns at the ends of the disk. -/
def scanTurn (advanced : Bool) : List Int := if advanced then [] else [0]

def cScanTurn (M : Int) (advanced : Bool) : List Int := if advanced then [] else [0, M - 1]

def scanPath (S : Int) (order : List Int) (advanced : Bool) : List Int :=
  S :: (descending (below S order) ++ (scanTurn advanced ++ sorted (above S order)))

def cScanPath (S M : Int) (order : List Int) (advanced : Bool) : List Int :=
  S :: (descending (below S order) ++ (cScanTurn M advanced ++ descending (above S order)))

/-- A call reads its array only inside, prints `path`, and on it the head, the
turns and each request as often as it was asked for. -/
def Prints (report : Option Report) (path : List Int) (S : Int) (turn order : List Int) :
    Prop :=
  ∃ r, report = some r ∧ r.path = path ∧ r.path.Perm (S :: (turn ++ order))

variable {S M a b z : Int} {order low mid high xs : List Int} {advanced : Bool}

theorem sorted_perm (order : List Int) : (sorted order).Perm order :=
  List.perm_insertionSort _ _

theorem sorted_pairwise (order : List Int) : (sorted order).Pairwise (· ≤ ·) :=
  List.pairwise_insertionSort _ _

theorem descending_eq (order : List Int) : descending order = (sorted order).reverse := by
  have hperm : (descending order).Perm (sorted order).reverse :=
    (List.perm_insertionSort _ _).trans
      ((sorted_perm order).symm.trans (List.reverse_perm _).symm)
  have hrev : (sorted order).reverse.Pairwise (· ≥ ·) :=
    List.pairwise_reverse.mpr (sorted_pairwise order)
  exact hperm.eq_of_pairwise (fun _ _ _ _ hge hle => Int.le_antisymm hle hge)
    (List.pairwise_insertionSort _ _) hrev

theorem mem_sorted_below {request : Int} (h : request ∈ sorted (below S order)) :
    request ≤ S := by
  have hmem := (sorted_perm _).mem_iff.mp h
  exact of_decide_eq_true (List.mem_filter.mp hmem).2

theorem mem_sorted_above {request : Int} (h : request ∈ sorted (above S order)) :
    S < request := by
  have hmem := (sorted_perm _).mem_iff.mp h
  exact of_decide_eq_true (List.mem_filter.mp hmem).2

theorem below_append_above_perm (S : Int) (order : List Int) :
    (below S order ++ above S order).Perm order := by
  have hnot : above S order = order.filter fun request => !decide (request ≤ S) :=
    List.filter_congr fun request _ => by rw [← decide_not, decide_eq_decide, Int.not_le]
  rw [hnot]
  exact List.filter_append_perm _ _

theorem sorted_eq (S : Int) (order : List Int) :
    sorted order = sorted (below S order) ++ sorted (above S order) := by
  have hperm : (sorted order).Perm (sorted (below S order) ++ sorted (above S order)) :=
    (sorted_perm order).trans ((below_append_above_perm S order).symm.trans
      ((sorted_perm _).append (sorted_perm _)).symm)
  refine hperm.eq_of_pairwise (fun _ _ _ _ hle hge => Int.le_antisymm hle hge)
    (sorted_pairwise order) ?_
  refine List.pairwise_append.mpr ⟨sorted_pairwise _, sorted_pairwise _, ?_⟩
  intro request hlow request' hhigh
  exact Int.le_of_lt (Int.lt_of_le_of_lt (mem_sorted_below hlow) (mem_sorted_above hhigh))

theorem path_perm {turn : List Int} (hperm : (low ++ high).Perm order) :
    (S :: (low ++ (turn ++ high))).Perm (S :: (turn ++ order)) := by
  refine List.Perm.cons S ?_
  have hswap : (low ++ (turn ++ high)).Perm (turn ++ (low ++ high)) := by
    rw [← List.append_assoc, ← List.append_assoc]
    exact List.perm_append_comm.append_right _
  exact hswap.trans (hperm.append_left _)

theorem scanPath_perm :
    (scanPath S order advanced).Perm (S :: (scanTurn advanced ++ order)) :=
  path_perm (((List.perm_insertionSort _ _).append (sorted_perm _)).trans
    (below_append_above_perm S order))

theorem cScanPath_perm :
    (cScanPath S M order advanced).Perm (S :: (cScanTurn M advanced ++ order)) :=
  path_perm (((List.perm_insertionSort _ _).append (List.perm_insertionSort _ _)).trans
    (below_append_above_perm S order))

/-! What the calls print. -/

theorem splitPos_of_above (hlow : ∀ request ∈ low, request ≤ S)
    (ha : S < a) : splitPos S (low ++ a :: high) = low.length - 1 := by
  have hnone : low.findIdx? (fun request => decide (S < request)) = none := by
    rw [List.findIdx?_eq_none_iff]
    intro request hmem
    have := hlow request hmem
    exact decide_eq_false (by omega)
  have hfind : (low ++ a :: high).findIdx? (fun request => decide (S < request)) =
      some low.length := by
    rw [List.findIdx?_append, hnone, List.findIdx?_cons, if_pos (decide_eq_true ha)]
    simp
  rw [splitPos, hfind]

theorem splitPos_of_below (hlow : ∀ request ∈ low, request ≤ S) : splitPos S low = 0 := by
  have hnone : low.findIdx? (fun request => decide (S < request)) = none := by
    rw [List.findIdx?_eq_none_iff]
    intro request hmem
    have := hlow request hmem
    exact decide_eq_false (by omega)
  rw [splitPos, hnone]

theorem splitPos_sorted (h : sorted (above S order) = a :: high) :
    splitPos S (sorted order) = (sorted (below S order)).length - 1 := by
  rw [sorted_eq S order, h]
  exact splitPos_of_above (fun _ => mem_sorted_below)
    (mem_sorted_above (h ▸ List.mem_cons_self))

theorem scan_path {first last : Int} (advanced : Bool)
    (htmp : sorted order = low ++ (mid ++ [z]))
    (hpos : splitPos S (sorted order) = low.length - 1)
    (hfirst : (low ++ mid).head? = some first)
    (hlast : (low ++ mid).getLast? = some last) :
    ∃ r, scan S order advanced = some r ∧
      r.path = S :: (low.reverse ++ (scanTurn advanced ++ (mid ++ [z]))) := by
  refine ⟨_, scan_eq htmp hpos hfirst hlast, ?_⟩
  cases advanced <;> simp [Report.start, scanTurn]

theorem cScan_path {first : Int} (advanced : Bool)
    (htmp : sorted order = low ++ a :: b :: high)
    (hpos : splitPos S (sorted order) = low.length - 1)
    (hfirst : (low ++ [a]).head? = some first) :
    ∃ r, cScan S M order advanced = some r ∧
      r.path = S :: (low.reverse ++ (cScanTurn M advanced ++ (a :: b :: high).reverse)) := by
  obtain ⟨z, xs, hhigh⟩ : ∃ z xs, (b :: high).reverse = z :: xs :=
    List.exists_cons_of_ne_nil (by simp)
  have hrev : (a :: b :: high).reverse = z :: (xs ++ [a]) := by
    rw [List.reverse_cons, hhigh, List.cons_append]
  refine ⟨_, cScan_eq htmp hpos hfirst hhigh, ?_⟩
  rw [hrev]
  cases advanced <;> simp [Report.start, Report.print, toHighEnd, cScanTurn]

/-- With a request above the head and another one, `scan` serves them in order. -/
theorem scan_prints (habove : above S order ≠ []) (hN : 2 ≤ order.length) :
    Prints (scan S order advanced) (scanPath S order advanced) S (scanTurn advanced)
      order := by
  have hne : sorted (above S order) ≠ [] := fun hnil =>
    habove (List.nil_perm.mp (hnil ▸ sorted_perm _))
  obtain ⟨a, rest, ha⟩ := List.exists_cons_of_ne_nil hne
  obtain ⟨mid, z, hz⟩ := (List.eq_nil_or_concat' (sorted (above S order))).resolve_left hne
  have htmp : sorted order = sorted (below S order) ++ (mid ++ [z]) := by
    rw [sorted_eq S order, hz]
  have hlen : 1 ≤ (sorted (below S order) ++ mid).length := by
    have := congrArg List.length htmp
    rw [(sorted_perm order).length_eq, ← List.append_assoc, List.length_append] at this
    change _ = _ + 1 at this
    omega
  have hne : sorted (below S order) ++ mid ≠ [] := List.ne_nil_of_length_pos hlen
  obtain ⟨r, hr, hpath⟩ := scan_path advanced htmp (splitPos_sorted ha)
    (List.head?_eq_some_head hne) (List.getLast?_eq_some_getLast hne)
  have hsame : r.path = scanPath S order advanced := by
    rw [hpath, scanPath, descending_eq, hz]
  exact ⟨r, hr, hsame, hsame ▸ scanPath_perm⟩

/-- With two requests above the head, `c_scan` serves them in order. -/
theorem cScan_prints (habove : 2 ≤ (above S order).length) :
    Prints (cScan S M order advanced) (cScanPath S M order advanced) S
      (cScanTurn M advanced) order := by
  have hlen : 2 ≤ (sorted (above S order)).length := by
    rwa [(sorted_perm _).length_eq]
  obtain ⟨a, b, high, hhigh⟩ : ∃ a b high, sorted (above S order) = a :: b :: high := by
    match hcase : sorted (above S order), hlen with
    | a :: b :: high, _ => exact ⟨a, b, high, rfl⟩
  have htmp : sorted order = sorted (below S order) ++ a :: b :: high := by
    rw [sorted_eq S order, hhigh]
  obtain ⟨r, hr, hpath⟩ := cScan_path (M := M) advanced htmp
    (splitPos_sorted hhigh) (List.head?_eq_some_head (by simp))
  have hsame : r.path = cScanPath S M order advanced := by
    rw [hpath, cScanPath, descending_eq, descending_eq, hhigh]
  exact ⟨r, hr, hsame, hsame ▸ cScanPath_perm⟩

theorem cScan_of_above_eq_one (habove : (above S order).length = 1) :
    cScan S M order advanced = none := by
  have hlen : (sorted (above S order)).length = 1 := by
    rw [(sorted_perm _).length_eq, habove]
  obtain ⟨a, hhigh⟩ := List.length_eq_one_iff.mp hlen
  exact cScan_eq_none (sorted_eq S order) (splitPos_sorted hhigh) (by rw [hlen])

/-- When no request is above the head, `pos` stays 0, as if only the lowest request
were not above it. -/
theorem splitPos_of_no_above (habove : above S order = []) :
    splitPos S (sorted order) = 0 := by
  refine splitPos_of_below fun request hmem => ?_
  rw [sorted_eq S order, habove] at hmem
  rcases List.mem_append.mp hmem with hmem | hmem
  · exact mem_sorted_below hmem
  · cases hmem

theorem sorted_of_no_above (habove : above S order = []) :
    sorted order = sorted (below S order) := by
  have heq := sorted_eq S order
  rw [habove] at heq
  exact heq.trans (List.append_nil _)

/-- Then `c_scan` goes to the highest cylinder before it serves what is below the
head, unless the disk has no other one. -/
theorem cScan_of_no_above (habove : above S order = []) (hM : 1 ≤ M)
    (hprints : ∃ r, cScan S M order false = some r ∧ r.path = cScanPath S M order false) :
    M = 1 ∧ 3 ≤ order.length := by
  obtain ⟨r, hr, hpath⟩ := hprints
  have hpos := splitPos_of_no_above habove
  have hlen := (sorted_perm order).length_eq
  cases htmp : sorted order with
  | nil =>
      have hread : read (sorted order) 0 = none := by rw [htmp]; rfl
      rw [cScan] at hr
      simp [hread] at hr
  | cons first rest =>
      have hsplit : sorted order = [first] ++ rest := htmp
      have hshort : rest.length ≤ 1 → False := by
        intro hle
        rw [cScan_eq_none hsplit (hpos.trans rfl) hle] at hr
        cases hr
      cases rest with
      | nil => exact (hshort (by simp)).elim
      | cons a rest =>
          cases rest with
          | nil => exact (hshort (by simp)).elim
          | cons b high =>
              obtain ⟨r', hr', hpath'⟩ :=
                cScan_path (M := M) false hsplit (hpos.trans rfl) rfl
              rw [hr', Option.some.injEq] at hr
              rw [hr, hpath, cScanPath, descending_eq, descending_eq, habove,
                ← sorted_of_no_above habove, htmp] at hpath'
              -- read from the end: the request served last against `M - 1`
              have hback := congrArg List.reverse hpath'
              simp [cScanTurn, sorted] at hback
              have hsorted := sorted_pairwise order
              rw [htmp] at hsorted hlen
              have hle : a ≤ b :=
                (List.pairwise_cons.mp (List.pairwise_cons.mp hsorted).2).1 b
                  List.mem_cons_self
              simp at hlen
              omega

/-- On a disk with one cylinder every way is the same. -/
theorem prints_of_zero {report : Option Report} {path turn : List Int}
    (hpath : path.Perm (S :: (turn ++ order))) (hsplit : sorted order = low ++ high)
    (hreport : ∃ r, report = some r ∧ r.path = S :: (low.reverse ++ (turn ++ high)))
    (hS : S = 0) (hturn : ∀ x ∈ turn, x = 0) (hzero : ∀ request ∈ order, request = 0) :
    Prints report path S turn order := by
  obtain ⟨r, hr, hrpath⟩ := hreport
  have hperm : r.path.Perm (S :: (turn ++ order)) := by
    rw [hrpath]
    refine path_perm (((List.reverse_perm _).append_right _).trans ?_)
    rw [← hsplit]
    exact sorted_perm order
  have hall : S :: (turn ++ order) =
      List.replicate (S :: (turn ++ order)).length 0 := by
    refine List.eq_replicate_iff.mpr ⟨rfl, fun x hx => ?_⟩
    rcases List.mem_cons.mp hx with rfl | hx
    · exact hS
    · exact (List.mem_append.mp hx).elim (hturn x) (hzero x)
  have hsame := hperm
  rw [hall, List.perm_replicate, ← hall] at hsame
  rw [hall, List.perm_replicate, ← hall] at hpath
  exact ⟨r, hr, hsame.trans hpath.symm, hperm⟩

/-- The calls serve the requests in order when at least two of them are above the
head, and else only on a disk with one cylinder and three requests or more. -/
theorem service_order_iff (hS : 0 ≤ S ∧ S < M)
    (hreq : ∀ request ∈ order, 0 ≤ request ∧ request < M) :
    (∀ advanced,
      Prints (scan S order advanced) (scanPath S order advanced) S (scanTurn advanced)
        order ∧
      Prints (cScan S M order advanced) (cScanPath S M order advanced) S
        (cScanTurn M advanced) order) ↔
      2 ≤ (above S order).length ∨ M = 1 ∧ 3 ≤ order.length := by
  constructor
  · intro hall
    have hcscan := (hall false).2
    rcases Nat.lt_or_ge (above S order).length 2 with hfew | hmany
    · right
      rcases Nat.eq_zero_or_pos (above S order).length with hzero | hone
      · obtain ⟨r, hr, hpath, -⟩ := hcscan
        exact cScan_of_no_above (List.length_eq_zero_iff.mp hzero) (by omega)
          ⟨r, hr, hpath⟩
      · obtain ⟨r, hr, -⟩ := hcscan
        rw [cScan_of_above_eq_one (by omega)] at hr
        cases hr
    · exact Or.inl hmany
  · rintro (hmany | ⟨hM, hlen⟩) advanced
    · have hle : (above S order).length ≤ order.length := List.length_filter_le _ _
      have hne : above S order ≠ [] := List.ne_nil_of_length_pos (by omega)
      exact ⟨scan_prints hne (by omega), cScan_prints hmany⟩
    · have hS : S = 0 := by omega
      have hzero : ∀ request ∈ order, request = 0 := by
        intro request hmem
        have := hreq request hmem
        omega
      have habove : above S order = [] := by
        refine List.filter_eq_nil_iff.mpr fun request hmem => ?_
        rw [hzero request hmem, hS]
        decide
      have hpos := splitPos_of_no_above habove
      have hsorted : 3 ≤ (sorted order).length := by rwa [(sorted_perm order).length_eq]
      match hsplit : sorted order, hsorted with
      | first :: a :: b :: high, _ =>
          have htail : a :: b :: high ≠ [] := List.cons_ne_nil _ _
          have hend : sorted order = [first] ++
              ((a :: b :: high).dropLast ++ [(a :: b :: high).getLast htail]) := by
            rw [hsplit, List.dropLast_append_getLast]
            rfl
          constructor
          · refine prints_of_zero scanPath_perm hend ?_ hS ?_ hzero
            · exact scan_path advanced hend (hpos.trans rfl) rfl
                (List.getLast?_eq_some_getLast (by simp))
            · cases advanced <;> simp [scanTurn]
          · have hsplit' : sorted order = [first] ++ a :: b :: high := hsplit
            have hrev : sorted order = [first] ++ (a :: b :: high).reverse := by
              rw [hsplit]
              have hz : ∀ x ∈ a :: b :: high, x = 0 := fun x hx =>
                hzero x ((sorted_perm order).mem_iff.mp
                  (hsplit ▸ List.mem_cons_of_mem _ hx))
              rw [List.eq_replicate_iff.mpr ⟨rfl, hz⟩, List.reverse_replicate]
              rfl
            refine prints_of_zero cScanPath_perm hrev ?_ hS ?_ hzero
            · exact cScan_path advanced hsplit' (hpos.trans rfl) rfl
            · cases advanced <;> simp [cScanTurn, hM]

namespace SweepsWitness

theorem service_order_two : Prints (scan 53 [98, 37, 122, 14] false)
      (scanPath 53 [98, 37, 122, 14] false) 53 (scanTurn false) [98, 37, 122, 14] :=
  ((service_order_iff (M := 200) (by decide) (by decide)).mpr
    (Or.inl (by decide)) false).1

/-- All requests below the head: LOOK goes to the lowest one first. -/
theorem all_below : (∀ request ∈ [10, 40], (0 : Int) ≤ request ∧ request < 100) ∧
    (scan 50 [10, 40] true).map Report.path = some [50, 10, 40] ∧
    scanPath 50 [10, 40] true = [50, 40, 10] ∧
    cScan 50 100 [10, 40] true = none ∧
    ¬ Prints (scan 50 [10, 40] true) (scanPath 50 [10, 40] true) 50 (scanTurn true)
      [10, 40] := by
  have hpath : (scan 50 [10, 40] true).map Report.path = some [50, 10, 40] := by
    decide +kernel
  refine ⟨by decide, hpath, by decide +kernel, by decide +kernel, ?_⟩
  rintro ⟨r, hr, hprints, -⟩
  rw [hr, Option.map_some, hprints] at hpath
  exact absurd hpath (by decide +kernel)

end SweepsWitness

end DiskScheduling
end PintosLabs
