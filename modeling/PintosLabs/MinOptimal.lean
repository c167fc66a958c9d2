/-
The algorithm of lab9 that looks into the future gives up a page that is used
farthest away, so that no demand paging has more hits.
-/
import Mathlib.Order.Bounds.Defs
import PintosLabs.ReplacementRuns

namespace PintosLabs

namespace PageReplacement

/-- The places from `i` on where a page is used. -/
def positions (page : Int) : Nat → List Int → List Nat
  | _, [] => []
  | i, p :: rest =>
      if p = page then i :: positions page (i + 1) rest
      else positions page (i + 1) rest

theorem Uses.at_insert (mls : Uses) (page p : Int) (uses : List Nat) :
    Uses.at (mls.insert page uses) p = if page = p then uses else mls.at p := by
  simp only [Uses.at, Std.TreeMap.getElem?_insert, Std.compare_eq_iff_eq]
  split <;> rfl

theorem pushUse_at (mls : Uses) (page p : Int) (i : Nat) :
    (pushUse mls page i).at p = if page = p then mls.at p ++ [i] else mls.at p := by
  rw [pushUse, Uses.at_insert]
  split
  case isTrue h => rw [h]
  case isFalse => rfl

theorem recordUses_at (mls : Uses) (i : Nat) (order : List Int) (p : Int) :
    (recordUses mls i order).at p = mls.at p ++ positions p i order := by
  induction order generalizing mls i with
  | nil => exact (List.append_nil _).symm
  | cons page rest ih =>
      rw [recordUses, ih, pushUse_at, positions]
      split <;> simp

theorem foldl_pushUse_at (mls : Uses) (n : Nat) (order : List Int) (p : Int) :
    (order.foldl (fun mls page => pushUse mls page n) mls).at p =
      mls.at p ++ List.replicate (order.count p) n := by
  induction order generalizing mls with
  | nil => exact (List.append_nil _).symm
  | cons page rest ih =>
      rw [List.foldl_cons, ih, pushUse_at, List.count_cons]
      by_cases h : page = p
      · simp [h, List.replicate_succ]
      · simp [h]

theorem usesOf_at (order : List Int) (p : Int) :
    (usesOf order).at p = positions p 0 order ++
      List.replicate (order.count p) (order.length + 1) := by
  rw [usesOf, foldl_pushUse_at, recordUses_at]
  rfl

theorem le_of_mem_positions {p : Int} {i use : Nat} {order : List Int}
    (h : use ∈ positions p i order) : i ≤ use := by
  induction order generalizing i with
  | nil => exact absurd h List.not_mem_nil
  | cons page rest ih =>
      rw [positions] at h
      split at h
      · rcases List.mem_cons.mp h with rfl | h
        · exact Nat.le_refl _
        · exact Nat.le_of_succ_le (ih h)
      · exact Nat.le_of_succ_le (ih h)

/-- Where a page is next used from `i` on, or `n` if it is not. -/
def nextUseOr (n : Nat) (order : List Int) (i : Nat) (page : Int) : Nat :=
  if page ∈ order.drop i then i + (order.drop i).idxOf page else n

/-- Where a page is next used from `i` on, or a place past the end. -/
def nextUse (order : List Int) (i : Nat) (page : Int) : Nat :=
  if page ∈ order.drop i then i + (order.drop i).idxOf page else order.length + 1

theorem head_positions {p : Int} {i n : Nat} {order : List Int} {tail : List Nat}
    (htail : ∀ use ∈ tail, use = n) (hne : tail ≠ []) :
    (positions p i order ++ tail).head? =
      some (if p ∈ order then i + order.idxOf p else n) := by
  induction order generalizing i with
  | nil =>
      obtain ⟨use, rest, rfl⟩ := List.exists_cons_of_ne_nil hne
      rw [positions, List.nil_append, List.head?_cons, if_neg List.not_mem_nil,
        htail use List.mem_cons_self]
  | cons page rest ih =>
      rw [positions]
      by_cases h : page = p
      · subst h
        simp
      · rw [if_neg h, ih, List.idxOf_cons_ne _ h]
        simp only [List.mem_cons, Ne.symm h, false_or]
        split
        · rw [Nat.succ_eq_add_one]
          congr 1
          omega
        · rfl

/-- Dropping the uses that are past leaves those from here on. -/
theorem dropWhile_positions {p : Int} {i j : Nat} {order : List Int}
    {tail : List Nat} (hij : i ≤ j) (htail : ∀ use ∈ tail, j ≤ use) :
    (positions p i order ++ tail).dropWhile (fun use => decide (use < j)) =
      positions p j (order.drop (j - i)) ++ tail := by
  have hkeep : ∀ l : List Nat, (∀ use ∈ l, j ≤ use) →
      l.dropWhile (fun use => decide (use < j)) = l := by
    intro l hl
    cases l with
    | nil => rfl
    | cons use rest =>
        refine List.dropWhile_cons_of_neg ?_
        simpa using hl use List.mem_cons_self
  induction order generalizing i with
  | nil =>
      rw [List.drop_nil]
      exact hkeep _ htail
  | cons page rest ih =>
      rcases Nat.eq_or_lt_of_le hij with rfl | hlt
      · rw [Nat.sub_self, List.drop_zero]
        refine hkeep _ fun use huse => ?_
        rcases List.mem_append.mp huse with huse | huse
        · exact le_of_mem_positions huse
        · exact htail use huse
      · have hdrop : (page :: rest).drop (j - i) = rest.drop (j - (i + 1)) := by
          obtain ⟨d, hd⟩ : ∃ d, j - i = d + 1 := ⟨j - i - 1, by omega⟩
          rw [hd, List.drop_succ_cons]
          congr 1
          omega
        rw [hdrop, ← ih hlt, positions]
        split
        · rw [List.cons_append, List.dropWhile_cons_of_pos (by simpa using hlt)]
        · rfl

/-- The first use that is not past is the next one. -/
theorem uses_head {order : List Int} {i n : Nat} {p : Int} {tail : List Nat}
    (htail : ∀ use ∈ tail, use = n) (hne : tail ≠ []) (hi : i ≤ n) :
    ((positions p 0 order ++ tail).dropWhile fun use => decide (use < i)).head? =
      some (nextUseOr n order i p) := by
  rw [dropWhile_positions (Nat.zero_le i) (fun use h => by rwa [htail use h]),
    Nat.sub_zero, head_positions htail hne, nextUseOr]

/-- The first use that the scan finds is the next one. -/
theorem usesOf_head {order : List Int} {i : Nat} {p : Int} (hp : p ∈ order)
    (hi : i ≤ order.length) :
    (((usesOf order).at p).dropWhile fun use => decide (use < i)).head? =
      some (nextUse order i p) := by
  rw [usesOf_at]
  refine uses_head (fun _ h => List.eq_of_mem_replicate h) (fun hnil => ?_) (by omega)
  have := List.count_pos_iff.mpr hp
  rw [List.replicate_eq_nil_iff] at hnil
  omega

/-- A page whose next use is no earlier is used no earlier. -/
theorem idxOf_le_of_nextUseOr_le {done rest : List Int} {page v w : Int} {n : Nat}
    (hv : v ≠ page) (hw : w ≠ page) (hn : (done ++ page :: rest).length ≤ n)
    (hle : nextUseOr n (done ++ page :: rest) done.length w ≤
      nextUseOr n (done ++ page :: rest) done.length v) :
    rest.idxOf w ≤ rest.idxOf v := by
  by_cases hvr : v ∈ rest
  · have hlt := List.idxOf_lt_length_of_mem hvr
    rw [List.length_append, List.length_cons] at hn
    simp only [nextUseOr, List.drop_left, List.mem_cons, hv, hw, hvr, false_or,
      or_true, if_true, List.idxOf_cons_ne _ (Ne.symm hv),
      List.idxOf_cons_ne _ (Ne.symm hw)] at hle
    split at hle <;> omega
  · rw [List.idxOf_of_notMem hvr]
    exact List.idxOf_le_length

/-- The uses of a page are scanned down to the first that is not past, which
is then compared. -/
theorem scanUses_eq (i : Nat) (page : Int) (uses : List Nat) (scan : VictimScan) :
    scanUses i page uses scan =
      match uses.dropWhile fun use => decide (use < i) with
      | [] => { scan with mls := scan.mls.insert page [] }
      | use :: rest =>
          if (use : Int) > scan.maxNum then
            ⟨scan.mls.insert page (use :: rest), page, use⟩
          else { scan with mls := scan.mls.insert page (use :: rest) } := by
  induction uses with
  | nil => rfl
  | cons use rest ih =>
      by_cases h : use < i
      · rw [scanUses, if_pos h, ih, List.dropWhile_cons_of_pos (by simpa using h)]
      · rw [scanUses, if_neg h, List.dropWhile_cons_of_neg (by simpa using h)]

/-- Each list of uses is what was recorded, without some uses that are past. -/
def Uses.Current (mls : Uses) (order : List Int) (i : Nat) : Prop :=
  ∀ p, ∃ j ≤ i, mls.at p =
    ((usesOf order).at p).dropWhile fun use => decide (use < j)

theorem Uses.Current.mono {mls : Uses} {order : List Int} {i j : Nat}
    (h : mls.Current order i) (hij : i ≤ j) : mls.Current order j := fun p =>
  (h p).imp fun _ hk => ⟨hk.1.trans hij, hk.2⟩

theorem dropWhile_dropWhile_lt {i j : Nat} (hji : j ≤ i) (uses : List Nat) :
    (uses.dropWhile fun use => decide (use < j)).dropWhile
        (fun use => decide (use < i)) =
      uses.dropWhile fun use => decide (use < i) := by
  induction uses with
  | nil => rfl
  | cons use rest ih =>
      by_cases h : use < j
      · rw [List.dropWhile_cons_of_pos (by simpa using h), ih,
          List.dropWhile_cons_of_pos (by simpa using h.trans_le hji)]
      · rw [List.dropWhile_cons_of_neg (by simpa using h)]

/-- What the search for a page to give up has found among the pages it has
seen. -/
structure VictimScan.Best (order : List Int) (i : Nat) (seen : List Int)
    (scan : VictimScan) : Prop where
  current : scan.mls.Current order i
  best : seen = [] ∧ scan.maxNum = -1 ∨
    scan.maxPos ∈ seen ∧ scan.maxNum = nextUse order i scan.maxPos ∧
      ∀ p ∈ seen, nextUse order i p ≤ nextUse order i scan.maxPos

theorem VictimScan.Best.scanUses {order : List Int} {i : Nat} {seen : List Int}
    {scan : VictimScan} {page : Int} (h : scan.Best order i seen)
    (hpage : page ∈ order) (hi : i ≤ order.length) :
    (PageReplacement.scanUses i page (scan.mls.at page) scan).Best order i
      (seen ++ [page]) := by
  obtain ⟨j, hj, hat⟩ := h.current page
  have hhead := usesOf_head hpage hi
  rw [scanUses_eq, hat, dropWhile_dropWhile_lt hj]
  have hcurrent : ∀ uses, uses = ((usesOf order).at page).dropWhile
      (fun use => decide (use < i)) →
      Uses.Current (scan.mls.insert page uses) order i := by
    intro uses huses p
    by_cases hp : page = p
    · subst hp
      exact ⟨i, Nat.le_refl _, by rw [Uses.at_insert, if_pos rfl, huses]⟩
    · obtain ⟨k, hk, hatp⟩ := h.current p
      exact ⟨k, hk, by rw [Uses.at_insert, if_neg hp, hatp]⟩
  cases hdrop : ((usesOf order).at page).dropWhile fun use => decide (use < i) with
  | nil =>
      rw [hdrop] at hhead
      exact absurd hhead.symm (Option.some_ne_none _)
  | cons use rest =>
      rw [hdrop, List.head?_cons, Option.some.injEq] at hhead
      rw [hdrop] at hcurrent
      simp only
      split
      case isTrue hgt =>
        refine ⟨hcurrent _ rfl, Or.inr ⟨by simp, by rw [hhead], fun p hp => ?_⟩⟩
        rcases List.mem_append.mp hp with hp | hp
        · rcases h.best with ⟨rfl, -⟩ | ⟨-, hnum, hmax⟩
          · exact absurd hp List.not_mem_nil
          · have := hmax p hp
            rw [hnum] at hgt
            rw [← hhead]
            omega
        · rw [List.mem_singleton.mp hp]
      case isFalse hle =>
        rcases h.best with ⟨-, hnum⟩ | ⟨hmem, hnum, hmax⟩
        · rw [hnum] at hle
          omega
        · refine ⟨hcurrent _ rfl, Or.inr ⟨List.mem_append_left _ hmem, hnum,
            fun p hp => ?_⟩⟩
          rcases List.mem_append.mp hp with hp | hp
          · exact hmax p hp
          · rw [List.mem_singleton.mp hp, ← hhead]
            rw [hnum] at hle
            exact Int.ofNat_le.mp (Int.not_lt.mp hle)

theorem VictimScan.Best.foldl {order : List Int} {i : Nat} {seen keys : List Int}
    {scan : VictimScan} (h : scan.Best order i seen) (hkeys : ∀ p ∈ keys, p ∈ order)
    (hi : i ≤ order.length) :
    (keys.foldl (fun scan page => PageReplacement.scanUses i page
      (scan.mls.at page) scan) scan).Best order i (seen ++ keys) := by
  induction keys generalizing seen scan with
  | nil => rwa [List.append_nil]
  | cons page rest ih =>
      rw [List.forall_mem_cons] at hkeys
      rw [List.append_cons]
      exact ih (h.scanUses hkeys.1 hi) hkeys.2

/-- The state of `min` before the request at place `i`. -/
structure MinState.Inv (K : Nat) (order : List Int) (i : Nat) (rest : List Int)
    (st : MinState) : Prop where
  place : ∃ done, order = done ++ rest ∧ done.length = i
  pages : st.pages.Inv
  card_le : st.pages.resident.card ≤ K
  used : ∀ p ∈ st.pages.resident, p ∈ order
  current : st.mls.Current order i

theorem minStep_spec {K i : Nat} {iter : Nat → List Int → List Int}
    (hiter : ∀ i keys, (iter i keys).Perm keys) {order rest : List Int} {page : Int}
    {st : MinState} (hK : 1 ≤ K) (h : st.Inv K order i (page :: rest)) :
    ∃ st' gain, minStep K iter i st page = some st' ∧
      st'.Inv K order (i + 1) rest ∧ st'.hit = st.hit + gain ∧
      PagingStep K farthestPage st.pages.resident page rest st'.pages.resident
        gain := by
  obtain ⟨done, horder, rfl⟩ := h.place
  have hplace : ∃ before, order = before ++ rest ∧ before.length = done.length + 1 :=
    ⟨done ++ [page], by rw [horder, List.append_cons], by simp⟩
  have hpage_order : page ∈ order := by
    rw [horder]
    simp
  have hi : done.length ≤ order.length := by
    rw [horder, List.length_append]
    exact Nat.le_add_right _ _
  by_cases hpage : page ∈ st.pages.posMap
  · refine ⟨{ st with hit := st.hit + 1 }, 1, ?_, ⟨hplace, h.pages, h.card_le, h.used,
      h.current.mono (Nat.le_succ _)⟩, rfl,
      Or.inl ⟨PageList.mem_resident.mpr hpage, rfl, rfl⟩⟩
    rw [minStep, if_neg (not_not.mpr hpage)]
  · have hout : page ∉ st.pages.resident := PageList.mem_resident.not.mpr hpage
    have hused : ∀ {R : Finset Int}, R ⊆ st.pages.resident →
        ∀ p ∈ insert page R, p ∈ order := by
      intro R hR p hp
      rcases Finset.mem_insert.mp hp with rfl | hp
      · exact hpage_order
      · exact h.used p (hR hp)
    rw [minStep, if_pos hpage]
    by_cases hfull : st.pages.posMap.size = K
    · have hcard : st.pages.resident.card = K :=
        (PageList.card_resident _).trans hfull
      have hperm := hiter done.length st.pages.posMap.keys
      have hseen : ∀ p, p ∈ iter done.length st.pages.posMap.keys ↔
          p ∈ st.pages.resident := by
        intro p
        rw [hperm.mem_iff, Std.TreeMap.mem_keys, PageList.mem_resident]
      obtain ⟨scan, hscan⟩ : ∃ scan, scan =
        (iter done.length st.pages.posMap.keys).foldl
          (fun scan page => scanUses done.length page (scan.mls.at page) scan)
          ⟨st.mls, -1, -1⟩ := ⟨_, rfl⟩
      have hbest : scan.Best order done.length
          ([] ++ iter done.length st.pages.posMap.keys) := by
        rw [hscan]
        exact VictimScan.Best.foldl ⟨h.current, Or.inl ⟨rfl, rfl⟩⟩
          (fun p hp => h.used p ((hseen p).mp hp)) hi
      rw [List.nil_append] at hbest
      obtain ⟨hmem, -, hmax⟩ := hbest.best.resolve_left fun hnil => by
        obtain ⟨p, hp⟩ := Finset.card_pos.mp (by omega :
          0 < st.pages.resident.card)
        exact absurd (hnil.1 ▸ (hseen p).mpr hp) List.not_mem_nil
      have hv : scan.maxPos ∈ st.pages.resident := (hseen _).mp hmem
      obtain ⟨pos, hpos⟩ : ∃ pos, st.pages.posMap[scan.maxPos]? = some pos := by
        rw [PageList.mem_resident, Std.TreeMap.mem_iff_isSome_getElem?] at hv
        exact Option.isSome_iff_exists.mp hv
      have hout' : page ∉ (st.pages.without scan.maxPos pos).posMap := by
        rw [← PageList.mem_resident, PageList.resident_without]
        exact fun hp => hout (Finset.mem_of_mem_erase hp)
      have hne : ∀ p ∈ st.pages.resident, p ≠ page := fun p hp =>
        ne_of_mem_of_not_mem hp hout
      have hresident : ((st.pages.without scan.maxPos pos).pushBack page).resident =
          insert page (st.pages.resident.erase scan.maxPos) := by
        rw [PageList.resident_pushBack, PageList.resident_without]
      have hstep : PagingStep K farthestPage st.pages.resident page rest
          ((st.pages.without scan.maxPos pos).pushBack page).resident 0 := by
        refine Or.inr ⟨hout, rfl, Or.inr ⟨hcard, scan.maxPos, hv, fun w hw => ?_,
          hresident⟩⟩
        refine @idxOf_le_of_nextUseOr_le done _ _ _ _ _ (hne _ hv) (hne w hw)
          (Nat.le_succ _) ?_
        rw [← horder]
        exact hmax w ((hseen w).mpr hw)
      refine ⟨⟨st.hit, (st.pages.without scan.maxPos pos).pushBack page, scan.mls⟩, 0,
        ?_, ⟨hplace, (h.pages.without hpos).pushBack hout', hstep.card_le h.card_le,
          ?_, hbest.current.mono (Nat.le_succ _)⟩, rfl, hstep⟩
      · simp only [if_pos hfull, ← hscan, hpos, h.pages.eraseNode_eq hpos,
          PageList.eraseKey, if_pos (PageList.mem_of_get hpos), Option.bind_eq_bind,
          Option.bind_some]
        rfl
      · rw [hresident]
        exact hused (Finset.erase_subset _ _)
    · have hroom : st.pages.resident.card < K :=
        Nat.lt_of_le_of_ne h.card_le (PageList.card_resident _ ▸ hfull)
      have hstep : PagingStep K farthestPage st.pages.resident page rest
          (st.pages.pushBack page).resident 0 :=
        Or.inr ⟨hout, rfl, Or.inl ⟨hroom, PageList.resident_pushBack _ _⟩⟩
      refine ⟨{ st with pages := st.pages.pushBack page }, 0, ?_,
        ⟨hplace, h.pages.pushBack hpage, hstep.card_le h.card_le, ?_,
          h.current.mono (Nat.le_succ _)⟩, rfl, hstep⟩
      · simp only [if_neg hfull, Option.bind_eq_bind, Option.bind_some]
      · rw [PageList.resident_pushBack]
        exact hused (Finset.Subset.refl _)

theorem min_farthest {K : Nat} (hK : 1 ≤ K) {iter : Nat → List Int → List Int}
    (hiter : ∀ i keys, (iter i keys).Perm keys) (order : List Int) :
    ∃ hits, min K iter order = some hits ∧ FarthestRun K ∅ order hits := by
  have hcurrent : (usesOf order).Current order 0 := by
    intro p
    refine ⟨0, Nat.le_refl _, ?_⟩
    cases (usesOf order).at p with
    | nil => rfl
    | cons use rest => rw [List.dropWhile_cons_of_neg (by simp)]
  obtain ⟨st, hits, hrun, hhits, hpaging⟩ :=
    @forOrder_run _ K farthestPage (minStep K iter)
    (fun st => st.pages.resident) MinState.hit
    (fun i rest st => st.Inv K order i rest) (fun h => minStep_spec hiter hK h)
    0 order ⟨0, .empty, usesOf order⟩
    ⟨⟨[], rfl, rfl⟩, PageList.empty_inv, Nat.zero_le _, by simp [PageList.empty],
      hcurrent⟩
  refine ⟨hits, ?_, hpaging⟩
  rw [min, hrun, Option.map_some, hhits, Nat.zero_add]

/-- The hits of `min` are the most that any demand paging has, in whatever
order the pages come up when one is looked for; so the other algorithms have
no more. -/
theorem min_optimal {K : Nat} (hK : 1 ≤ K) {order : List Int}
    (hnonneg : ∀ page ∈ order, 0 ≤ page) :
    ∃ best, IsGreatest {hits | DemandRun K ∅ order hits} best ∧
      (∀ iter : Nat → List Int → List Int, (∀ i keys, (iter i keys).Perm keys) →
        min K iter order = some best) ∧
      (∃ hits ≤ best, fifo K order = some hits) ∧
      (∃ hits ≤ best, lru K order = some hits) ∧
      ∃ hits ≤ best, clock K order = some hits := by
  obtain ⟨best, -, hbest⟩ := min_farthest hK
    (show ∀ (i : Nat) (keys : List Int), keys.Perm keys from fun _ keys => .refl keys)
    order
  have hle : ∀ {hits}, DemandRun K ∅ order hits → hits ≤ best := hbest.optimal
  refine ⟨best, ⟨hbest.demand, fun _ => hle⟩, fun iter hiter => ?_, ?_, ?_, ?_⟩
  · obtain ⟨hits, hmin, hrun⟩ := min_farthest hK hiter order
    rw [hmin, Nat.le_antisymm (hle hrun.demand) (hrun.optimal hbest.demand)]
  · obtain ⟨hits, hfifo, hrun⟩ := fifo_demand hK order
    exact ⟨hits, hle hrun, hfifo⟩
  · obtain ⟨hits, hlru, hrun⟩ := lru_demand hK order
    exact ⟨hits, hle hrun, hlru⟩
  · obtain ⟨hits, hclock, hrun⟩ := clock_demand hK hnonneg
    exact ⟨hits, hle hrun, hclock⟩

namespace MinOptimalWitness

def order : List Int := [7, 0, 1, 2, 0, 3, 0, 4, 2, 3]

theorem min_optimal_three_frames :
    ∃ best, IsGreatest {hits | DemandRun 3 ∅ order hits} best ∧
      (∀ iter : Nat → List Int → List Int, (∀ i keys, (iter i keys).Perm keys) →
        min 3 iter order = some best) ∧
      (∃ hits ≤ best, fifo 3 order = some hits) ∧
      (∃ hits ≤ best, lru 3 order = some hits) ∧
      ∃ hits ≤ best, clock 3 order = some hits :=
  min_optimal (by decide) (by decide)

end MinOptimalWitness

end PageReplacement

end PintosLabs
