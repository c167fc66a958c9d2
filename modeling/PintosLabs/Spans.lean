/-
Spans of the integers, as memory allocators cut a range of addresses into
them: what it means that spans tile a range, and the pass that joins spans
that lie next to each other.
-/
import Mathlib.Algebra.Ring.Int.Defs
import Mathlib.Algebra.Ring.Nat
import Mathlib.Data.List.Count
import Mathlib.Data.List.Pairwise
import Mathlib.Order.Basic
import Mathlib.Tactic.Common

namespace PintosLabs

structure Span where
  size : Int
  start : Int
deriving DecidableEq

instance : Inhabited Span := ⟨⟨0, 0⟩⟩

namespace Span

/-- The first integer behind the span. -/
def stop (s : Span) : Int := s.start + s.size

def Has (s : Span) (x : Int) : Prop := s.start ≤ x ∧ x < s.stop

instance (s : Span) (x : Int) : Decidable (s.Has x) :=
  inferInstanceAs (Decidable (s.start ≤ x ∧ x < s.stop))

/-- One of the spans ends before the other starts. -/
def Disjoint (s t : Span) : Prop := s.stop ≤ t.start ∨ t.stop ≤ s.start

/-- The two spans, the second of which starts where the first one stops, as
one. -/
def join (s t : Span) : Span := { s with size := s.size + t.size }

theorem has_start {s : Span} (hsize : 0 < s.size) : s.Has s.start :=
  ⟨Int.le_refl _, by rw [stop]; omega⟩

theorem has_last {s : Span} (hsize : 0 < s.size) : s.Has (s.stop - 1) := by
  rw [Has, stop]
  omega

theorem join_stop (s t : Span) (hnext : s.stop = t.start) :
    (s.join t).stop = t.stop := by
  simp only [stop, join] at hnext ⊢
  omega

end Span

/-- How many of the spans have the integer. -/
def cover (spans : List Span) (x : Int) : Nat :=
  spans.countP fun s => decide (s.Has x)

@[simp] theorem cover_nil (x : Int) : cover [] x = 0 := rfl

theorem cover_cons (s : Span) (spans : List Span) (x : Int) :
    cover (s :: spans) x = cover spans x + if s.Has x then 1 else 0 := by
  rw [cover, List.countP_cons]
  simp [cover]

theorem cover_append (first second : List Span) (x : Int) :
    cover (first ++ second) x = cover first x + cover second x :=
  List.countP_append

theorem cover_perm {first second : List Span} (hperm : first.Perm second)
    (x : Int) : cover first x = cover second x :=
  hperm.countP_eq _

theorem cover_pos_iff {spans : List Span} {x : Int} :
    0 < cover spans x ↔ ∃ s ∈ spans, s.Has x := by
  simp [cover, List.countP_pos_iff]

/-- A span is as good as its two parts. -/
theorem cover_join {s t : Span} (hnext : s.stop = t.start) (hs : 0 < s.size)
    (ht : 0 < t.size) (spans : List Span) (x : Int) :
    cover (s.join t :: spans) x = cover (s :: t :: spans) x := by
  have hor : (s.join t).Has x ↔ s.Has x ∨ t.Has x := by
    simp only [Span.Has, Span.join, Span.stop] at hnext ⊢
    omega
  have hnot : s.Has x → ¬ t.Has x := by
    simp only [Span.Has, Span.stop] at hnext ⊢
    omega
  rw [cover_cons, cover_cons, cover_cons]
  by_cases hsx : s.Has x
  · simp [hor, hsx, hnot hsx]
  · simp [hor, hsx]

/-- The spans cut the integers from zero up to a bound into pieces. -/
structure Tiles (bound : Int) (spans : List Span) : Prop where
  nonempty : ∀ s ∈ spans, 0 < s.size
  covered : ∀ x, cover spans x = if 0 ≤ x ∧ x < bound then 1 else 0

namespace Tiles

variable {bound : Int} {spans : List Span}

theorem perm {spans' : List Span} (h : Tiles bound spans)
    (hperm : spans'.Perm spans) : Tiles bound spans' :=
  ⟨fun s hs => h.nonempty s (hperm.mem_iff.mp hs),
    fun x => (cover_perm hperm x).trans (h.covered x)⟩

theorem has_iff (h : Tiles bound spans) (x : Int) :
    (∃ s ∈ spans, s.Has x) ↔ 0 ≤ x ∧ x < bound := by
  rw [← cover_pos_iff, h.covered x]
  split <;> simp_all

theorem eq_of_has (h : Tiles bound spans) {s t : Span} {x : Int} (hs : s ∈ spans)
    (ht : t ∈ spans) (hsx : s.Has x) (htx : t.Has x) : s = t := by
  have hone : (spans.filter fun s => decide (s.Has x)).length ≤ 1 := by
    rw [← List.countP_eq_length_filter]
    change cover spans x ≤ 1
    rw [h.covered x]
    split <;> omega
  have hs' : s ∈ spans.filter fun s => decide (s.Has x) :=
    List.mem_filter.mpr ⟨hs, decide_eq_true hsx⟩
  have ht' : t ∈ spans.filter fun s => decide (s.Has x) :=
    List.mem_filter.mpr ⟨ht, decide_eq_true htx⟩
  obtain ⟨i, hi, rfl⟩ := List.mem_iff_getElem.mp hs'
  obtain ⟨j, hj, rfl⟩ := List.mem_iff_getElem.mp ht'
  have hij : i = j := by omega
  subst hij
  rfl

theorem start_nonneg (h : Tiles bound spans) {s : Span} (hs : s ∈ spans) :
    0 ≤ s.start :=
  ((h.has_iff _).mp ⟨s, hs, Span.has_start (h.nonempty s hs)⟩).1

theorem stop_le (h : Tiles bound spans) {s : Span} (hs : s ∈ spans) :
    s.stop ≤ bound := by
  have := ((h.has_iff _).mp ⟨s, hs, Span.has_last (h.nonempty s hs)⟩).2
  omega

theorem size_le (h : Tiles bound spans) {s : Span} (hs : s ∈ spans) :
    s.size ≤ bound := by
  have hstart := h.start_nonneg hs
  have hstop := h.stop_le hs
  rw [Span.stop] at hstop
  omega

/-- No integer is in two of the spans. -/
theorem pairwise_disjoint (h : Tiles bound spans) :
    spans.Pairwise Span.Disjoint := by
  have hle : ∀ x, cover spans x ≤ 1 := by
    intro x
    rw [h.covered x]
    split <;> omega
  have hpos := h.nonempty
  clear h
  induction spans with
  | nil => exact List.Pairwise.nil
  | cons s rest ih =>
      rw [List.forall_mem_cons] at hpos
      refine List.pairwise_cons.mpr ⟨fun t ht => ?_, ih (fun x => ?_) hpos.2⟩
      · by_contra hmeet
        rw [Span.Disjoint, not_or] at hmeet
        have hsx : s.Has (max s.start t.start) := by
          simp only [Span.Has, Span.stop] at hmeet ⊢
          have := hpos.1
          omega
        have htx : t.Has (max s.start t.start) := by
          simp only [Span.Has, Span.stop] at hmeet ⊢
          have := hpos.2 t ht
          omega
        have hrest := cover_pos_iff.mpr ⟨t, ht, htx⟩
        have hall := hle (max s.start t.start)
        rw [cover_cons, if_pos hsx] at hall
        omega
      · have := hle x
        rw [cover_cons] at this
        omega

/-- A span may be cut in two. -/
theorem split {s t : Span} (h : Tiles bound (s.join t :: spans))
    (hnext : s.stop = t.start) (hs : 0 < s.size) (ht : 0 < t.size) :
    Tiles bound (s :: t :: spans) := by
  refine ⟨?_, fun x => (cover_join hnext hs ht spans x).symm.trans (h.covered x)⟩
  intro u hu
  rcases List.mem_cons.mp hu with rfl | hu
  · exact hs
  rcases List.mem_cons.mp hu with rfl | hu
  · exact ht
  exact h.nonempty u (List.mem_cons_of_mem _ hu)

end Tiles

/-- One pass over the spans from first to last: a span that stops where the
next one starts takes it in, and the pass goes on behind what it took. -/
def mergePass : List Span → List Span
  | [] => []
  | [s] => [s]
  | s :: t :: rest =>
      if s.stop = t.start then s.join t :: mergePass rest
      else s :: mergePass (t :: rest)

theorem mergePass_cover {spans : List Span} (hpos : ∀ s ∈ spans, 0 < s.size)
    (x : Int) : cover (mergePass spans) x = cover spans x := by
  fun_induction mergePass spans with
  | case1 => rfl
  | case2 s => rfl
  | case3 s t rest hnext ih =>
      simp only [List.forall_mem_cons] at hpos
      rw [← cover_join hnext hpos.1 hpos.2.1, cover_cons, ih hpos.2.2, cover_cons]
  | case4 s t rest hnext ih =>
      rw [List.forall_mem_cons] at hpos
      rw [cover_cons, ih hpos.2, cover_cons s]

theorem mergePass_size_pos {spans : List Span} (hpos : ∀ s ∈ spans, 0 < s.size) :
    ∀ s ∈ mergePass spans, 0 < s.size := by
  fun_induction mergePass spans with
  | case1 => exact hpos
  | case2 s => exact hpos
  | case3 s t rest hnext ih =>
      simp only [List.forall_mem_cons] at hpos ⊢
      exact ⟨Int.add_pos hpos.1 hpos.2.1, ih hpos.2.2⟩
  | case4 s t rest hnext ih =>
      rw [List.forall_mem_cons] at hpos ⊢
      exact ⟨hpos.1, ih hpos.2⟩

/-- A pass drops starts, and makes none. -/
theorem mergePass_starts (spans : List Span) :
    ((mergePass spans).map Span.start).Sublist (spans.map Span.start) := by
  fun_induction mergePass spans with
  | case1 => exact List.Sublist.refl _
  | case2 s => exact List.Sublist.refl _
  | case3 s t rest hnext ih => exact (ih.cons _).cons_cons _
  | case4 s t rest hnext ih => exact ih.cons_cons _

theorem mergePass_sorted {spans : List Span}
    (hsorted : spans.Pairwise fun s t => s.start ≤ t.start) :
    (mergePass spans).Pairwise fun s t => s.start ≤ t.start := by
  have hmap := (List.pairwise_map (f := Span.start)
    (R := fun x y : Int => x ≤ y)).mpr hsorted
  exact List.pairwise_map.mp (hmap.sublist (mergePass_starts spans))

theorem mergePass_start_lt {spans : List Span} {x : Int}
    (hlt : ∀ s ∈ spans, x < s.start) : ∀ s ∈ mergePass spans, x < s.start := by
  intro s hs
  have hmem := (mergePass_starts spans).subset (List.mem_map_of_mem hs)
  obtain ⟨t, ht, heq⟩ := List.mem_map.mp hmem
  rw [← heq]
  exact hlt t ht

theorem Tiles.mergePass {bound : Int} {first second : List Span}
    (h : Tiles bound (first ++ second)) :
    Tiles bound (mergePass first ++ second) := by
  have hpos : ∀ s ∈ first, 0 < s.size := fun s hs =>
    h.nonempty s (List.mem_append_left _ hs)
  refine ⟨fun s hs => ?_, fun x => ?_⟩
  · rcases List.mem_append.mp hs with hs | hs
    · exact mergePass_size_pos hpos s hs
    · exact h.nonempty s (List.mem_append_right _ hs)
  · rw [cover_append, mergePass_cover hpos, ← cover_append]
    exact h.covered x

/-- Spans in order, with a gap between each and the next. -/
def Apart (spans : List Span) : Prop :=
  spans.Pairwise fun s t => s.stop < t.start

theorem mergePass_of_apart {spans : List Span} (hapart : Apart spans) :
    mergePass spans = spans := by
  fun_induction mergePass spans with
  | case1 => rfl
  | case2 s => rfl
  | case3 s t rest hnext ih =>
      exact absurd hnext (Int.ne_of_lt (List.rel_of_pairwise_cons hapart
        List.mem_cons_self))
  | case4 s t rest hnext ih => rw [ih hapart.of_cons]

/-- A span put between spans that are apart is joined to its neighbour by one
pass, if it does not lie next to both of them. -/
theorem mergePass_apart {before after : List Span} {s : Span}
    (hpos : ∀ t ∈ before ++ s :: after, 0 < t.size)
    (hordered : (before ++ s :: after).Pairwise fun t u => t.stop ≤ u.start)
    (hapart : Apart (before ++ after))
    (hone : (∀ t ∈ before, t.stop ≠ s.start) ∨ ∀ t ∈ after, s.stop ≠ t.start) :
    Apart (mergePass (before ++ s :: after)) := by
  induction before with
  | nil =>
      rw [List.nil_append] at hpos hordered hapart ⊢
      cases after with
      | nil => exact List.pairwise_singleton _ _
      | cons t rest =>
          rw [Apart, List.pairwise_cons] at hapart
          have hle : s.stop ≤ t.start :=
            List.rel_of_pairwise_cons hordered List.mem_cons_self
          rw [mergePass]
          split
          case isTrue hnext =>
            rw [mergePass_of_apart hapart.2, Apart, List.pairwise_cons]
            refine ⟨fun u hu => ?_, hapart.2⟩
            rw [Span.join_stop s t hnext]
            exact hapart.1 u hu
          case isFalse hnext =>
            have hrest : Apart (t :: rest) := List.pairwise_cons.mpr hapart
            rw [mergePass_of_apart hrest, Apart, List.pairwise_cons]
            refine ⟨fun u hu => ?_, hrest⟩
            rcases List.mem_cons.mp hu with rfl | hu
            · omega
            · have hpos' := hpos t (by simp)
              have hlt := hapart.1 u hu
              rw [Span.stop] at hlt
              omega
  | cons b before ih =>
      simp only [List.cons_append, List.forall_mem_cons] at hpos
      rw [List.cons_append, List.pairwise_cons] at hordered
      rw [List.cons_append, Apart, List.pairwise_cons] at hapart
      have htail := ih hpos.2 hordered.2 hapart.2 (hone.imp_left fun h t ht =>
        h t (List.mem_cons_of_mem b ht))
      cases before with
      | nil =>
          rw [List.cons_append, List.nil_append, mergePass]
          rw [List.nil_append] at htail
          split
          case isTrue hnext =>
            have hfar : ∀ t ∈ after, s.stop ≠ t.start :=
              hone.resolve_left fun h => h b List.mem_cons_self hnext
            rw [List.nil_append] at hapart hordered
            rw [mergePass_of_apart hapart.2, Apart, List.pairwise_cons]
            refine ⟨fun t ht => ?_, hapart.2⟩
            rw [Span.join_stop b s hnext]
            have hle : s.stop ≤ t.start := List.rel_of_pairwise_cons hordered.2 ht
            have := hfar t ht
            omega
          case isFalse hnext =>
            rw [Apart, List.pairwise_cons]
            refine ⟨mergePass_start_lt fun t ht => ?_, htail⟩
            rcases List.mem_cons.mp ht with rfl | ht
            · have := hordered.1 t (by simp)
              omega
            · exact hapart.1 t ht
      | cons c before =>
          have hbc : b.stop < c.start := hapart.1 c (by simp)
          rw [List.cons_append, List.cons_append, mergePass,
            if_neg (Int.ne_of_lt hbc), Apart, List.pairwise_cons]
          refine ⟨mergePass_start_lt fun t ht => ?_, htail⟩
          rcases List.mem_cons.mp ht with rfl | ht
          · exact hbc
          · have hc := hpos.2 c (by simp)
            have hct : c.stop ≤ t.start := List.rel_of_pairwise_cons hordered.2 ht
            rw [Span.stop] at hct
            omega

/-- No span stops where another one starts. -/
def Coalesced (spans : List Span) : Prop :=
  ∀ s ∈ spans, ∀ t ∈ spans, s.stop ≠ t.start

namespace Tiles

variable {bound : Int} {free held : List Span}

/-- Sorted pieces of a tiling stop before the next one starts. -/
theorem ordered (h : Tiles bound (free ++ held))
    (hsorted : free.Pairwise fun s t => s.start ≤ t.start) :
    free.Pairwise fun s t => s.stop ≤ t.start := by
  have hdisjoint := h.pairwise_disjoint.sublist (List.sublist_append_left _ _)
  have hboth := hsorted.and hdisjoint
  refine hboth.imp_of_mem ?_
  rintro s t hs ht ⟨hle, hst | hts⟩
  · exact hst
  · have hpos := h.nonempty t (List.mem_append_left _ ht)
    rw [Span.stop] at hts
    omega

theorem coalesced_of_apart (hpos : ∀ s ∈ free, 0 < s.size) (hapart : Apart free) :
    Coalesced free := by
  induction free with
  | nil => exact fun s hs => absurd hs List.not_mem_nil
  | cons s rest ih =>
      rw [List.forall_mem_cons] at hpos
      rw [Apart, List.pairwise_cons] at hapart
      have hself : s.stop ≠ s.start := by
        have := hpos.1
        rw [Span.stop]
        omega
      have hback : ∀ t ∈ rest, t.stop ≠ s.start := by
        intro t ht
        have hlt := hapart.1 t ht
        have ht' := hpos.2 t ht
        have hs' := hpos.1
        rw [Span.stop] at hlt ⊢
        omega
      simp only [Coalesced, List.forall_mem_cons]
      exact ⟨⟨hself, fun u hu => Int.ne_of_lt (hapart.1 u hu)⟩,
        fun t ht => ⟨hback t ht, ih hpos.2 hapart.2 t ht⟩⟩

theorem apart_of_coalesced (h : Tiles bound (free ++ held))
    (hsorted : free.Pairwise fun s t => s.start ≤ t.start)
    (hcoalesced : Coalesced free) : Apart free := by
  refine (h.ordered hsorted).imp_of_mem fun {s t} hs ht hle => ?_
  have := hcoalesced s hs t ht
  omega

end Tiles

end PintosLabs
