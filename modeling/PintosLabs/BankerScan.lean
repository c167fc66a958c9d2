/-
The scan of the banker's `safe_check` decides safety: on vectors that do not
overflow, its passes over the copied maps are the passes of the greedy scan.
-/
import Mathlib
import PintosLabs.Banker
import PintosLabs.SafeSequence

namespace PintosLabs

variable {r : Nat}

instance amountsDecidableLE : DecidableLE (Fin r → Int) :=
  fun v w => inferInstanceAs (Decidable (∀ i, v i ≤ w i))

@[simp] theorem vecInt_replicate_zero :
    vecInt (Vector.replicate r (0 : Int32)) = 0 := by
  funext i
  simp [vecInt]

theorem vecInt_lt (v : Vector Int32 r) (i : Fin r) : vecInt v i < 2 ^ 31 :=
  Int32.toInt_lt _

theorem bmod_eq_self {x : Int} (hlow : -2 ^ 31 ≤ x) (hhigh : x < 2 ^ 31) :
    x.bmod (2 ^ 32) = x := by
  apply Int.bmod_eq_of_le <;> omega

theorem vecInt_addVector {v w : Vector Int32 r}
    (hnonneg : 0 ≤ vecInt v + vecInt w)
    (hhigh : ∀ i, vecInt v i + vecInt w i < 2 ^ 31) :
    vecInt (addVector v w) = vecInt v + vecInt w := by
  funext i
  have hlow : 0 ≤ vecInt v i + vecInt w i := hnonneg i
  have hhigh := hhigh i
  simp only [vecInt, addVector, Fin.getElem_fin, Vector.getElem_zipWith,
    Int32.toInt_add, Pi.add_apply] at hlow hhigh ⊢
  exact bmod_eq_self (by omega) hhigh

theorem vecInt_subVector {v w : Vector Int32 r} (hw : 0 ≤ vecInt w)
    (hle : vecInt w ≤ vecInt v) :
    vecInt (subVector v w) = vecInt v - vecInt w := by
  funext i
  have hw : 0 ≤ vecInt w i := hw i
  have hle : vecInt w i ≤ vecInt v i := hle i
  have hv := vecInt_lt v i
  simp only [vecInt, subVector, Fin.getElem_fin, Vector.getElem_zipWith,
    Int32.toInt_sub, Pi.sub_apply] at hw hle hv ⊢
  exact bmod_eq_self (by omega) (by omega)

theorem fits_iff {need work : Vector Int32 r} :
    fits need work = true ↔ vecInt need ≤ vecInt work := by
  simp [fits, Pi.le_def, vecInt, Int32.lt_iff_toInt_lt]

/-! Reading and writing a map by its pids. -/

/-- The vector of a pid, zero when it has none. -/
def PidMap.vec (m : PidMap r) (pid : Int) : Vector Int32 r :=
  m[pid]?.getD (Vector.replicate r 0)

theorem PidMap.read_of_mem {m : PidMap r} {pid : Int} (hmem : pid ∈ m) :
    m.read pid = some (m.vec pid) := by
  unfold read vec
  split
  · rfl
  · cases hget : m[pid]? with
    | none =>
        rw [Std.TreeMap.mem_iff_isSome_getElem?, hget] at hmem
        contradiction
    | some v => rfl

theorem PidMap.vec_of_not_mem {m : PidMap r} {pid : Int} (hmem : pid ∉ m) :
    m.vec pid = Vector.replicate r 0 := by
  simp [vec, Std.TreeMap.getElem?_eq_none hmem]

theorem PidMap.mem_insert {m : PidMap r} {key pid : Int} {v : Vector Int32 r} :
    pid ∈ m.insert key v ↔ key = pid ∨ pid ∈ m := by
  simp [Std.TreeMap.mem_insert]

theorem PidMap.mem_erase {m : PidMap r} {key pid : Int} :
    pid ∈ m.erase key ↔ key ≠ pid ∧ pid ∈ m := by
  simp [Std.TreeMap.mem_erase]

theorem PidMap.vec_insert (m : PidMap r) (key pid : Int) (v : Vector Int32 r) :
    PidMap.vec (m.insert key v) pid = if key = pid then v else m.vec pid := by
  unfold vec
  rw [Std.TreeMap.getElem?_insert]
  by_cases hkey : key = pid <;> simp [hkey]

theorem PidMap.vec_erase (m : PidMap r) (key pid : Int) :
    PidMap.vec (m.erase key) pid =
      if key = pid then Vector.replicate r 0 else m.vec pid := by
  unfold vec
  rw [Std.TreeMap.getElem?_erase]
  by_cases hkey : key = pid <;> simp [hkey]

theorem PidMap.vec_of_mem_toList {m : PidMap r} {entry : Int × Vector Int32 r}
    (hentry : entry ∈ m.toList) : m.vec entry.1 = entry.2 := by
  unfold vec
  rw [Std.TreeMap.mem_toList_iff_getElem?_eq_some.mp hentry]
  rfl

theorem PidMap.keys_nodup (m : PidMap r) : m.keys.Nodup :=
  Std.TreeMap.nodup_keys

/-! One pass of the scan. -/

/-- The listed processes the scan has not finished. -/
def ScanState.waiting (st : ScanState r)
    (entries : List (Int × Vector Int32 r)) : List Int :=
  (entries.map Prod.fst).filter fun key => !st.finish key

/-- The entries of the copied maps, as needs and holdings by pid, with
everything in the range of `int`. -/
structure ScanReady (tmpAllocated : PidMap r) (need held : Int → Fin r → Int)
    (st : ScanState r) (entries : List (Int × Vector Int32 r)) : Prop where
  need_eq : ∀ entry ∈ entries, vecInt entry.2 = need entry.1
  mem : ∀ entry ∈ entries, entry.1 ∈ tmpAllocated
  held_eq : ∀ entry ∈ entries,
    vecInt (tmpAllocated.vec entry.1) = held entry.1
  held_nonneg : ∀ entry ∈ entries, 0 ≤ held entry.1
  nodup : (entries.map Prod.fst).Nodup
  work_nonneg : 0 ≤ vecInt st.work
  bound : ∀ i, vecInt st.work i + heldSum held (st.waiting entries) i < 2 ^ 31

section Pass

variable {tmpAllocated : PidMap r} {need held : Int → Fin r → Int}
  {st : ScanState r}

theorem ScanState.heldSum_waiting_nonneg
    {entries : List (Int × Vector Int32 r)}
    (hheld : ∀ entry ∈ entries, 0 ≤ held entry.1) :
    0 ≤ heldSum held (st.waiting entries) := by
  apply List.sum_nonneg
  simp only [List.mem_map, waiting, List.mem_filter]
  rintro _ ⟨key, ⟨⟨entry, hentry, rfl⟩, _⟩, rfl⟩
  exact hheld entry hentry

theorem ScanState.waiting_congr {st' : ScanState r}
    {entries : List (Int × Vector Int32 r)}
    (heq : ∀ entry ∈ entries, st'.finish entry.1 = st.finish entry.1) :
    st'.waiting entries = st.waiting entries := by
  apply List.filter_congr
  intro key hkey
  obtain ⟨entry, hentry, rfl⟩ := List.mem_map.mp hkey
  rw [heq entry hentry]

/-- A pass of the scan over the copied maps is a pass of the greedy scan over
the processes still waiting, and raises the flag exactly when it finishes
somebody. -/
theorem foldlM_scanEntry (st : ScanState r)
    {entries : List (Int × Vector Int32 r)}
    (hready : ScanReady tmpAllocated need held st entries) :
    ∃ st', entries.foldlM (scanEntry tmpAllocated) st = some st' ∧
      scanPass need held (vecInt st.work) (st.waiting entries) =
        (vecInt st'.work, st'.waiting entries) ∧
      (∀ key, key ∉ entries.map Prod.fst → st'.finish key = st.finish key) ∧
      (st'.flagOuter = true ↔ st.flagOuter = true ∨
        (st'.waiting entries).length < (st.waiting entries).length) := by
  induction entries generalizing st with
  | nil => exact ⟨st, rfl, by simp [ScanState.waiting, scanPass], by simp,
      by simp [ScanState.waiting]⟩
  | cons entry rest ih =>
      obtain ⟨hneed, hmem, hheld, hnonneg, hnodup, hwork, hbound⟩ := hready
      obtain ⟨key, need₀⟩ := entry
      simp only [List.forall_mem_cons] at hneed hmem hheld hnonneg
      simp only [List.map_cons, List.nodup_cons] at hnodup
      -- what the rest of the pass does to the state it starts from
      have hrest : ∀ st₁ : ScanState r,
          (∀ entry ∈ rest, st₁.finish entry.1 = st.finish entry.1) →
          0 ≤ vecInt st₁.work →
          (∀ i, vecInt st₁.work i + heldSum held (st.waiting rest) i < 2 ^ 31) →
          ∃ st', rest.foldlM (scanEntry tmpAllocated) st₁ = some st' ∧
            scanPass need held (vecInt st₁.work) (st.waiting rest) =
              (vecInt st'.work, st'.waiting rest) ∧
            (∀ key, key ∉ rest.map Prod.fst →
              st'.finish key = st₁.finish key) ∧
            (st'.flagOuter = true ↔ st₁.flagOuter = true ∨
              (st'.waiting rest).length < (st.waiting rest).length) := by
        intro st₁ hfinish hwork₁ hbound₁
        have hwaiting := ScanState.waiting_congr hfinish
        rw [← hwaiting] at hbound₁ ⊢
        exact ih st₁ ⟨hneed.2, hmem.2, hheld.2, hnonneg.2, hnodup.2, hwork₁, hbound₁⟩
      cases hfinish : st.finish key with
      | true =>
          have hwaiting : ∀ st' : ScanState r, st'.finish key = true →
              st'.waiting ((key, need₀) :: rest) = st'.waiting rest := by
            intro st' h
            simp [ScanState.waiting, h]
          rw [hwaiting st hfinish] at hbound ⊢
          obtain ⟨st', hrun, hpass, hother, hflag⟩ :=
            hrest st (fun _ _ => rfl) hwork hbound
          have hkey : st'.finish key = true := by
            rw [hother key hnodup.1, hfinish]
          refine ⟨st', ?_, ?_, ?_, ?_⟩
          · simpa [scanEntry, hfinish] using hrun
          · rw [hwaiting st' hkey]
            exact hpass
          · intro k hk
            exact hother k fun hmem => hk (List.mem_cons_of_mem _ hmem)
          · rw [hwaiting st' hkey]
            exact hflag
      | false =>
          have hwaiting : st.waiting ((key, need₀) :: rest) =
              key :: st.waiting rest := by
            simp [ScanState.waiting, hfinish]
          rw [hwaiting] at hbound ⊢
          simp only [heldSum_cons, Pi.add_apply] at hbound
          by_cases hfits : fits need₀ st.work = true
          · have hle : need key ≤ vecInt st.work := by
              rw [← hneed.1]
              exact fits_iff.mp hfits
            have hsum : vecInt (addVector st.work (tmpAllocated.vec key)) =
                vecInt st.work + held key := by
              rw [← hheld.1]
              apply vecInt_addVector
              · rw [hheld.1]
                exact add_nonneg hwork hnonneg.1
              · intro i
                have hpos : 0 ≤ heldSum held (st.waiting rest) i :=
                  ScanState.heldSum_waiting_nonneg hnonneg.2 i
                have := hbound i
                rw [hheld.1]
                omega
            let st₁ : ScanState r :=
              ⟨addVector st.work (tmpAllocated.vec key),
                Function.update st.finish key true, true⟩
            have hfinish₁ : ∀ entry ∈ rest,
                st₁.finish entry.1 = st.finish entry.1 := by
              intro entry hentry
              have hne : entry.1 ≠ key := by
                rintro rfl
                exact hnodup.1 (List.mem_map_of_mem hentry)
              simp [st₁, hne]
            obtain ⟨st', hrun, hpass, hother, hflag⟩ := hrest st₁ hfinish₁
              (by
                change 0 ≤ vecInt (addVector _ _)
                rw [hsum]
                exact add_nonneg hwork hnonneg.1)
              (by
                intro i
                have := hbound i
                change vecInt (addVector _ _) i + _ < _
                rw [hsum, Pi.add_apply]
                omega)
            have hkey : st'.finish key = true := by
              rw [hother key hnodup.1]
              simp [st₁]
            have hdone : st'.waiting ((key, need₀) :: rest) =
                st'.waiting rest := by
              simp [ScanState.waiting, hkey]
            have hle' : (st'.waiting rest).length ≤ (st.waiting rest).length := by
              have := scanPass_length_le need held
                (vecInt st₁.work) (st.waiting rest)
              rwa [hpass] at this
            refine ⟨st', ?_, ?_, ?_, ?_⟩
            · simpa [scanEntry, hfinish, hfits,
                PidMap.read_of_mem hmem.1, st₁] using hrun
            · rw [hdone, ← hpass]
              simp only [scanPass, hle, ↓reduceIte]
              rw [← hsum]
            · intro k hk
              simp only [List.map_cons, List.mem_cons, not_or] at hk
              rw [hother k hk.2]
              simp [st₁, hk.1]
            · rw [hdone]
              simp only [hflag, st₁, true_or, List.length_cons, true_iff]
              exact Or.inr (by omega)
          · have hle : ¬ need key ≤ vecInt st.work := by
              rw [← hneed.1]
              exact fun h => hfits (fits_iff.mpr h)
            obtain ⟨st', hrun, hpass, hother, hflag⟩ :=
              hrest st (fun _ _ => rfl) hwork (by
                intro i
                have hpos : 0 ≤ held key i := hnonneg.1 i
                have := hbound i
                omega)
            have hkey : st'.finish key = false := by
              rw [hother key hnodup.1, hfinish]
            have hstill : st'.waiting ((key, need₀) :: rest) =
                key :: st'.waiting rest := by
              simp [ScanState.waiting, hkey]
            refine ⟨st', ?_, ?_, ?_, ?_⟩
            · simpa [scanEntry, hfinish, hfits] using hrun
            · rw [hstill]
              simp only [scanPass, hle, ↓reduceIte, hpass]
            · intro k hk
              exact hother k fun hmem => hk (List.mem_cons_of_mem _ hmem)
            · rw [hstill]
              simpa using hflag

end Pass

/-- The passes of `safe_check` leave waiting whom the greedy scan does. -/
theorem scanPasses_waiting {tmpAllocated tmpNeeded : PidMap r}
    {need held : Int → Fin r → Int} (n : Nat) (st : ScanState r)
    (hready : ScanReady tmpAllocated need held st tmpNeeded.toList) :
    ∃ st', scanPasses tmpAllocated tmpNeeded n st = some st' ∧
      st'.waiting tmpNeeded.toList =
        scan need held n (vecInt st.work) (st.waiting tmpNeeded.toList) := by
  induction n generalizing st with
  | zero => exact ⟨st, rfl, rfl⟩
  | succ n ih =>
      obtain ⟨hneed, hmem, hheld, hnonneg, hnodup, hwork, hbound⟩ := hready
      obtain ⟨st', hrun, hpass, -, hflag⟩ :=
        foldlM_scanEntry { st with flagOuter := false }
          ⟨hneed, hmem, hheld, hnonneg, hnodup, hwork, hbound⟩
      simp only [Bool.false_eq_true, false_or] at hflag
      change scanPass need held (vecInt st.work) (st.waiting _) = _ at hpass
      change _ ↔ _ < (st.waiting tmpNeeded.toList).length at hflag
      have hle := scanPass_length_le need held
        (vecInt st.work) (st.waiting tmpNeeded.toList)
      rw [hpass] at hle
      simp only at hle
      by_cases hstop : st'.flagOuter = true
      · have hlt := hflag.mp hstop
        -- the free resources and the holdings of the waiting keep their sum
        obtain ⟨done, hperm, -, hfree⟩ :=
          scanPass_spec need held
            (vecInt st.work) (st.waiting tmpNeeded.toList)
        rw [hpass] at hperm hfree
        simp only at hperm hfree
        have hsum : vecInt st'.work + heldSum held (st'.waiting tmpNeeded.toList)
            = vecInt st.work + heldSum held (st.waiting tmpNeeded.toList) := by
          rw [← heldSum_perm hperm, heldSum_append, hfree, add_assoc]
        have hdone : 0 ≤ heldSum held done := by
          apply List.sum_nonneg
          intro v hv
          obtain ⟨key, hkey, rfl⟩ := List.mem_map.mp hv
          have hkey := hperm.mem_iff.mp (List.mem_append_left _ hkey)
          obtain ⟨entry, hentry, rfl⟩ :=
            List.mem_map.mp (List.mem_filter.mp hkey).1
          exact hnonneg entry hentry
        obtain ⟨last, hlast, hwaiting⟩ := ih st'
          ⟨hneed, hmem, hheld, hnonneg, hnodup,
            hfree ▸ add_nonneg hwork hdone, by
              intro i
              have := congrFun hsum i
              simp only [Pi.add_apply] at this
              rw [this]
              exact hbound i⟩
        refine ⟨last, ?_, ?_⟩
        · simp only [scanPasses, hrun, Option.bind_eq_bind, Option.bind_some,
            hstop, ↓reduceIte]
          exact hlast
        · rw [hwaiting]
          simp only [scan, hpass, if_neg (Nat.ne_of_lt hlt)]
      · have heq : (st'.waiting tmpNeeded.toList).length =
            (st.waiting tmpNeeded.toList).length :=
          Nat.le_antisymm hle (Nat.le_of_not_lt fun h => hstop (hflag.mpr h))
        refine ⟨st', ?_, ?_⟩
        · simp [scanPasses, hrun, hstop]
        · simp only [scan, hpass, heq, ↓reduceIte]

end PintosLabs
