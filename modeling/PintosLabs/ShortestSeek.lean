/-
The shortest seek first of lab10 (main.cpp): each round serves the request
nearest to the head, the first one in the list where there are several.
-/
import PintosLabs.DiskScheduling

namespace PintosLabs
namespace DiskScheduling

/-- `MAX` -/
def maxDistance : Int := 0x3f3f3f3f

/-- `min` and `pos` -/
structure Nearest where
  min : Int
  pos : Int

def Nearest.look (cur : Int) (n : Nearest) (request : Int) : Nearest :=
  if distance cur request < n.min then ⟨distance cur request, request⟩ else n

structure Sstf where
  ls : List Int
  cur : Int
  pre : Int
  report : Report

/-- A round of the loop of `sstf`; there is nothing to erase when `pos` is not in
the list. -/
def Sstf.turn (S : Int) (s : Sstf) (i : Nat) : Option Sstf :=
  let pos := (s.ls.foldl (Nearest.look s.cur) ⟨maxDistance, -1⟩).pos
  let moved := if i = 0 then distance pos S else distance pos s.pre
  if pos ∈ s.ls then some ⟨s.ls.erase pos, pos, pos, (s.report.add moved).print pos⟩
  else none

def sstf (S : Int) (order : List Int) : Option Report := do
  let s ← (List.range order.length).foldlM (Sstf.turn S) ⟨order, S, -1, Report.start S⟩
  some s.report

/-- From `cur` each request served is one of the nearest of those left, and the
first of them. -/
def Greedy : Int → List Int → List Int → Prop
  | _, left, [] => left = []
  | cur, left, pos :: served =>
      ∃ before after, left = before ++ pos :: after ∧
        (∀ x ∈ before, (cur - pos).natAbs < (cur - x).natAbs) ∧
        (∀ x ∈ after, (cur - pos).natAbs ≤ (cur - x).natAbs) ∧
        Greedy pos (before ++ after) served

variable {S cur : Int} {order left served : List Int}

theorem Greedy.perm (h : Greedy cur left served) : served.Perm left := by
  induction served generalizing cur left with
  | nil =>
      rw [show left = [] from h]
  | cons pos served ih =>
      obtain ⟨before, after, rfl, -, -, hrest⟩ := h
      exact ((ih hrest).cons pos).trans List.perm_middle.symm

/-- What a search through a list finds. -/
theorem foldl_look (n : Nearest) (ls : List Int) :
    (∀ x ∈ ls, n.min ≤ distance cur x) ∧ ls.foldl (Nearest.look cur) n = n ∨
      ∃ before pos after, ls = before ++ pos :: after ∧
        ls.foldl (Nearest.look cur) n = ⟨distance cur pos, pos⟩ ∧
        distance cur pos < n.min ∧
        (∀ x ∈ before, distance cur pos < distance cur x) ∧
        ∀ x ∈ after, distance cur pos ≤ distance cur x := by
  induction ls generalizing n with
  | nil => exact Or.inl ⟨by simp, rfl⟩
  | cons x ls ih =>
      rw [List.foldl_cons, Nearest.look]
      split
      case isTrue hlt =>
        right
        rcases ih ⟨distance cur x, x⟩ with ⟨hall, hfold⟩ |
            ⟨before, pos, after, rfl, hfold, hpos, hbefore, hafter⟩
        · dsimp only at hall
          exact ⟨[], x, ls, rfl, hfold, hlt, by simp, hall⟩
        · dsimp only at hpos
          refine ⟨x :: before, pos, after, rfl, hfold, Int.lt_trans hpos hlt, ?_, hafter⟩
          exact List.forall_mem_cons.mpr ⟨hpos, hbefore⟩
      case isFalse hge =>
        rcases ih n with ⟨hall, hfold⟩ |
            ⟨before, pos, after, rfl, hfold, hpos, hbefore, hafter⟩
        · exact Or.inl ⟨List.forall_mem_cons.mpr ⟨Int.not_lt.mp hge, hall⟩, hfold⟩
        · refine Or.inr ⟨x :: before, pos, after, rfl, hfold, hpos, ?_, hafter⟩
          exact List.forall_mem_cons.mpr
            ⟨Int.lt_of_lt_of_le hpos (Int.not_lt.mp hge), hbefore⟩

/-- All requests, and the head, are nearer to each other than `MAX`. -/
def Near (cylinders : List Int) : Prop :=
  ∀ a ∈ cylinders, ∀ b ∈ cylinders, ((a - b).natAbs : Int) < maxDistance

theorem Near.close {cylinders : List Int} (h : Near cylinders) : Close cylinders := by
  intro a ha b hb
  have := h a ha b hb
  unfold maxDistance at this
  omega

theorem Near.mono {cylinders fewer : List Int} (h : Near cylinders)
    (hsub : fewer ⊆ cylinders) : Near fewer :=
  fun a ha b hb => h a (hsub ha) b (hsub hb)

/-- A round of `sstf`. -/
theorem turn_spec {s : Sstf} {i : Nat} (hls : s.ls ≠ []) (hnear : Near (s.cur :: s.ls))
    (hpre : s.cur = if i = 0 then S else s.pre) :
    ∃ before pos after, s.ls = before ++ pos :: after ∧
      (∀ x ∈ before, (s.cur - pos).natAbs < (s.cur - x).natAbs) ∧
      (∀ x ∈ after, (s.cur - pos).natAbs ≤ (s.cur - x).natAbs) ∧
      s.turn S i = some ⟨before ++ after, pos, pos, s.report.move s.cur pos⟩ := by
  have hdist : ∀ x ∈ s.ls, distance s.cur x = (s.cur - x).natAbs := fun x hx =>
    distance_eq (hnear.close s.cur List.mem_cons_self x (List.mem_cons_of_mem _ hx))
  rcases @foldl_look s.cur ⟨maxDistance, -1⟩ s.ls with ⟨hall, -⟩ |
      ⟨before, pos, after, hsplit, hfold, -, hbefore, hafter⟩
  · obtain ⟨x, hx⟩ := List.exists_mem_of_ne_nil _ hls
    have hfar := hall x hx
    rw [hdist x hx] at hfar
    exact absurd (hnear s.cur List.mem_cons_self x (List.mem_cons_of_mem _ hx))
      (Int.not_lt.mpr hfar)
  · have hpos : pos ∈ s.ls := by rw [hsplit]; simp
    have hmemBefore : ∀ x ∈ before, x ∈ s.ls := fun x hx => by rw [hsplit]; simp [hx]
    have hmemAfter : ∀ x ∈ after, x ∈ s.ls := fun x hx => by rw [hsplit]; simp [hx]
    have hbefore' : ∀ x ∈ before, (s.cur - pos).natAbs < (s.cur - x).natAbs := by
      intro x hx
      have := hbefore x hx
      rw [hdist pos hpos, hdist x (hmemBefore x hx)] at this
      omega
    have hafter' : ∀ x ∈ after, (s.cur - pos).natAbs ≤ (s.cur - x).natAbs := by
      intro x hx
      have := hafter x hx
      rw [hdist pos hpos, hdist x (hmemAfter x hx)] at this
      omega
    refine ⟨before, pos, after, hsplit, hbefore', hafter', ?_⟩
    have hnot : pos ∉ before := fun hmem => Nat.lt_irrefl _ (hbefore' pos hmem)
    have herase : s.ls.erase pos = before ++ after := by
      rw [hsplit, List.erase_append_right _ hnot, List.erase_cons_head]
    have hmoved : (if i = 0 then distance pos S else distance pos s.pre) =
        distance pos s.cur := by
      rw [hpre]
      split <;> rfl
    unfold Sstf.turn
    simp only [hfold, hmoved, herase]
    rw [if_pos hpos]
    rfl

theorem rounds_spec {i n : Nat} {s : Sstf} (hn : s.ls.length = n)
    (hnear : Near (s.cur :: s.ls)) (hpre : s.cur = if i = 0 then S else s.pre) :
    ∃ served s', (List.range' i n).foldlM (Sstf.turn S) s = some s' ∧
      Greedy s.cur s.ls served ∧ s'.report = s.report.walk s.cur served := by
  induction n generalizing i s with
  | zero =>
      have hnil : s.ls = [] := List.length_eq_zero_iff.mp hn
      exact ⟨[], s, rfl, hnil, rfl⟩
  | succ n ih =>
      have hls : s.ls ≠ [] := List.ne_nil_of_length_pos (by omega)
      obtain ⟨before, pos, after, hsplit, hbefore, hafter, hturn⟩ :=
        turn_spec hls hnear hpre
      have hsub : pos :: (before ++ after) ⊆ s.cur :: s.ls := by
        intro x hx
        refine List.mem_cons_of_mem _ ?_
        rw [hsplit]
        exact List.perm_middle.mem_iff.mpr hx
      have hlen : (before ++ after).length = n := by
        have := congrArg List.length hsplit
        rw [hn, List.perm_middle.length_eq] at this
        exact (Nat.succ.inj this).symm
      obtain ⟨served, s', hrun, hgreedy, hreport⟩ := @ih (i + 1)
        ⟨before ++ after, pos, pos, s.report.move s.cur pos⟩ hlen (hnear.mono hsub) rfl
      refine ⟨pos :: served, s', ?_, ⟨before, after, hsplit, hbefore, hafter, hgreedy⟩,
        hreport⟩
      rw [List.range'_succ, List.foldlM_cons, hturn, Option.bind_eq_bind, Option.bind_some,
        hrun]

/-- The head is at one end of what has been served and `other` is at its other end.
The way so far is at most that far twice, and no longer than the way to a request
behind the other end. -/
def Outside (cur other : Int) (left : List Int) (way : Int) : Prop :=
  way ≤ 2 * (cur - other).natAbs ∧
    (other ≤ cur ∧ (∀ x ∈ left, cur ≤ x ∨ x < other ∧ way ≤ cur - x) ∨
      cur ≤ other ∧ ∀ x ∈ left, x ≤ cur ∨ other < x ∧ way ≤ x - cur)

/-- The head turns round only where the next request on its side is at least as far
from it as that on the other side: the way at most doubles then, and so does the gap
to what is left behind. -/
theorem Outside.next {other pos way : Int} (h : Outside cur other left way)
    (hpos : pos ∈ left)
    (hnearest : ∀ x ∈ left, (cur - pos).natAbs ≤ (cur - x).natAbs) :
    ∃ other', (other' = other ∨ other' = cur) ∧
      Outside pos other' left (way + (pos - cur).natAbs) := by
  obtain ⟨hway, ⟨hside, hleft⟩ | ⟨hside, hleft⟩⟩ := h
  · rcases hleft pos hpos with hon | ⟨hbehind, hshort⟩
    · refine ⟨other, Or.inl rfl, by omega, Or.inl ⟨by omega, fun x hx => ?_⟩⟩
      have := hleft x hx
      have := hnearest x hx
      omega
    · refine ⟨cur, Or.inr rfl, by omega, Or.inr ⟨by omega, fun x hx => ?_⟩⟩
      have := hleft x hx
      have := hnearest x hx
      omega
  · rcases hleft pos hpos with hon | ⟨hbehind, hshort⟩
    · refine ⟨other, Or.inl rfl, by omega, Or.inr ⟨by omega, fun x hx => ?_⟩⟩
      have := hleft x hx
      have := hnearest x hx
      omega
    · refine ⟨cur, Or.inr rfl, by omega, Or.inl ⟨by omega, fun x hx => ?_⟩⟩
      have := hleft x hx
      have := hnearest x hx
      omega

theorem Greedy.seek_le {other way width : Int} (hgreedy : Greedy cur left served)
    (hout : Outside cur other left way)
    (hwidth : ∀ a ∈ other :: cur :: left, ∀ b ∈ other :: cur :: left,
      ((a - b).natAbs : Int) ≤ width) :
    way + seek (cur :: served) ≤ 2 * width := by
  induction served generalizing cur left other way with
  | nil =>
      have := hwidth cur (by simp) other (by simp)
      have := hout.1
      simp only [seek]
      omega
  | cons pos served ih =>
      obtain ⟨before, after, rfl, hbefore, hafter, hrest⟩ := hgreedy
      have hnearest : ∀ x ∈ before ++ pos :: after,
          (cur - pos).natAbs ≤ (cur - x).natAbs := by
        intro x hx
        rcases List.mem_append.mp hx with hx | hx
        · exact Nat.le_of_lt (hbefore x hx)
        · rcases List.mem_cons.mp hx with rfl | hx
          · exact Nat.le_refl _
          · exact hafter x hx
      obtain ⟨other', hother, hway, hsides⟩ := hout.next (by simp) hnearest
      have hsub : ∀ x ∈ before ++ after, x ∈ before ++ pos :: after := fun x hx =>
        List.perm_middle.mem_iff.mpr (List.mem_cons_of_mem _ hx)
      have hout' : Outside pos other' (before ++ after) (way + (pos - cur).natAbs) :=
        ⟨hway, hsides.imp (fun h => ⟨h.1, fun x hx => h.2 x (hsub x hx)⟩)
          (fun h => ⟨h.1, fun x hx => h.2 x (hsub x hx)⟩)⟩
      have hmem : ∀ x ∈ other' :: pos :: (before ++ after),
          x ∈ other :: cur :: (before ++ pos :: after) := by
        intro x hx
        rcases List.mem_cons.mp hx with rfl | hx
        · rcases hother with rfl | rfl <;> simp
        · exact List.mem_cons_of_mem _ (List.mem_cons_of_mem _
            (List.perm_middle.mem_iff.mpr hx))
      have hle := ih hrest hout' fun a ha b hb => hwidth a (hmem a ha) b (hmem b hb)
      rw [seek]
      omega

/-- `sstf` serves every request, each time a nearest one, and its total is the
distance of the way. -/
theorem sstf_greedy (hnear : Near (S :: order)) :
    ∃ served, sstf S order = some ⟨S :: served, seek (S :: served)⟩ ∧
      served.Perm order ∧ Greedy S order served := by
  obtain ⟨served, s', hrun, hgreedy, hreport⟩ := @rounds_spec S 0 order.length
    ⟨order, S, -1, Report.start S⟩ rfl hnear rfl
  have hstart : Outside S S order 0 := by
    refine ⟨by omega, Or.inl ⟨Int.le_refl _, fun x _ => ?_⟩⟩
    omega
  have hle : 0 + seek (S :: served) ≤ 2 * (maxDistance - 1) := by
    refine hgreedy.seek_le hstart fun a ha b hb => ?_
    have hmem : ∀ x ∈ S :: S :: order, x ∈ S :: order := by simp
    have := hnear a (hmem a ha) b (hmem b hb)
    omega
  have hnonneg : ∀ way : List Int, 0 ≤ seek way := by
    intro way
    fun_induction seek way <;> omega
  have hclose : Close (S :: served) := (hnear.mono fun x hx => by
    rcases List.mem_cons.mp hx with rfl | hx
    · exact List.mem_cons_self
    · exact List.mem_cons_of_mem _ (hgreedy.perm.mem_iff.mp hx)).close
  have hsum : (Report.walk (Report.start S) S served).sum = seek (S :: served) := by
    rw [sum_walk (n := 0) rfl hclose, Int.zero_add]
    have := hnonneg (S :: served)
    unfold maxDistance at hle
    apply Int.bmod_eq_of_le <;> omega
  have hpath : (Report.walk (Report.start S) S served).path = S :: served := path_walk
  have hfinal : s'.report = ⟨S :: served, seek (S :: served)⟩ := by
    rw [hreport, ← hsum, ← hpath]
  refine ⟨served, ?_, hgreedy.perm, hgreedy⟩
  rw [sstf, List.range_eq_range', hrun, Option.bind_eq_bind, Option.bind_some, hfinal]

namespace SstfWitness

theorem sstf_four : ∃ served,
    sstf 53 [98, 37, 37, 14] = some ⟨53 :: served, seek (53 :: served)⟩ ∧
      served.Perm [98, 37, 37, 14] ∧ Greedy 53 [98, 37, 37, 14] served :=
  sstf_greedy (by unfold Near; decide)

end SstfWitness

end DiskScheduling
end PintosLabs
