/-
The programs of lab8 and lab9 have the same hits.  First in first out and least
recently used are compared with the list of pages that each of them keeps in
one form or another; the two that look into the future give up different pages,
and agree because both are best.
-/
import PintosLabs.MinOptimal
import PintosLabs.Replacement
import PintosLabs.SegmentedCache

namespace PintosLabs

/-- Two programs that serve every request together serve the whole string. -/
theorem PageReplacement.forOrder_simulation {S T : Type}
    (step : Nat → S → Int → Option S) (step' : Nat → T → Int → Option T)
    (rel : Nat → List Int → S → T → Prop)
    (hstep : ∀ {i page rest s t}, rel i (page :: rest) s t →
      ∃ s₁ t₁, step i s page = some s₁ ∧ step' i t page = some t₁ ∧
        rel (i + 1) rest s₁ t₁)
    {i : Nat} {order : List Int} {s : S} {t : T} (h : rel i order s t) :
    ∃ j s₁ t₁, forOrder step i order s = some s₁ ∧
      forOrder step' i order t = some t₁ ∧ rel j [] s₁ t₁ := by
  induction order generalizing i s t with
  | nil => exact ⟨i, s, t, rfl, rfl, h⟩
  | cons page rest ih =>
      obtain ⟨s₁, t₁, hs, ht, hrel⟩ := hstep h
      obtain ⟨j, s₂, t₂, hs', ht', hend⟩ := ih hrel
      refine ⟨j, s₂, t₂, ?_, ?_, hend⟩
      · simp only [forOrder, hs, Option.bind_eq_bind, Option.bind_some, hs']
      · simp only [forOrder, ht, Option.bind_eq_bind, Option.bind_some, ht']

namespace Replacement

open PageReplacement

/-- A page is taken in at the end of the list, the first one making way if the
cache is full. -/
def takeIn (K : Nat) (pages : List Int) (page : Int) : List Int :=
  (if pages.length = K then pages.tail else pages) ++ [page]

theorem tail_append_singleton {K : Nat} (hK : 1 ≤ K) {pages : List Int}
    (hle : pages.length ≤ K) (page : Int) :
    (if (pages ++ [page]).length > K then (pages ++ [page]).tail
      else pages ++ [page]) = takeIn K pages page := by
  rw [List.length_append, List.length_singleton, takeIn]
  by_cases hfull : pages.length = K
  · rw [if_pos (by omega), if_pos hfull]
    exact List.tail_append_of_ne_nil (List.ne_nil_of_length_pos (by omega))
  · rw [if_neg (by omega), if_neg hfull]

/-! First in, first out. -/

/-- What a request does to the queue of lab9. -/
theorem fifoStep_que {K i : Nat} {st st' : PageReplacement.FifoState} {page : Int}
    (h : st.Inv K) (hstep : PageReplacement.fifoStep K i st page = some st') :
    if page ∈ st.que then st'.que = st.que ∧ st'.hit = st.hit + 1
    else st'.que = takeIn K st.que page ∧ st'.hit = st.hit := by
  rw [PageReplacement.fifoStep] at hstep
  by_cases hpage : page ∈ st.que
  · rw [if_neg (by rw [h.eleSet_eq, List.mem_toFinset]; exact not_not.mpr hpage),
      Option.some.injEq] at hstep
    rw [if_pos hpage, ← hstep]
    exact ⟨rfl, rfl⟩
  · rw [if_pos (by rwa [h.eleSet_eq, List.mem_toFinset])] at hstep
    rw [if_neg hpage, takeIn]
    by_cases hfull : st.que.length = K
    · rw [if_pos hfull] at hstep ⊢
      cases hque : st.que with
      | nil =>
          rw [hque] at hstep
          exact absurd hstep (by simp)
      | cons f rest =>
          have hf : f ∈ st.eleSet := by
            rw [h.eleSet_eq, hque]
            simp
          simp only [hque, if_pos hf, Option.bind_eq_bind, Option.bind_some,
            Option.some.injEq] at hstep
          rw [← hstep]
          exact ⟨rfl, rfl⟩
    · simp only [if_neg hfull, Option.bind_eq_bind, Option.bind_some,
        Option.some.injEq] at hstep
      rw [if_neg hfull, ← hstep]
      exact ⟨rfl, rfl⟩

structure FifoState.Same (K : Nat) (st : FifoState)
    (st' : PageReplacement.FifoState) : Prop where
  inv : st'.Inv K
  fifoCache_eq : st.fifoCache = st'.que
  hit_eq : st.hit = st'.hit

theorem FifoState.Same.step {K i : Nat} {st : FifoState}
    {st' : PageReplacement.FifoState} (hK : 1 ≤ K) (h : st.Same K st') (page : Int) :
    ∃ st₁ st₁', fifoStep K i st page = some st₁ ∧
      PageReplacement.fifoStep K i st' page = some st₁' ∧ st₁.Same K st₁' := by
  obtain ⟨st₁', gain, hstep, hinv, -, -⟩ :=
    @PageReplacement.fifoStep_spec K i st' page [] hK h.inv
  have hque := fifoStep_que h.inv hstep
  rw [fifoStep]
  simp only [h.fifoCache_eq]
  by_cases hpage : page ∈ st'.que
  · rw [if_pos hpage] at hque ⊢
    exact ⟨_, st₁', rfl, hstep, hinv, hque.1.symm, by rw [hque.2, h.hit_eq]⟩
  · rw [if_neg hpage] at hque ⊢
    have hle : st'.que.length ≤ K := h.inv.card_eq ▸ h.inv.card_le
    refine ⟨{ st with fifoCache := takeIn K st'.que page }, st₁', ?_, hstep, hinv,
      hque.1.symm, h.hit_eq.trans hque.2.symm⟩
    rw [← tail_append_singleton hK hle]
    split <;> rfl

theorem fifo_eq {K : Nat} (hK : 1 ≤ K) (order : List Int) :
    ∃ hits, fifo K order = some hits ∧ PageReplacement.fifo K order = some hits := by
  obtain ⟨-, st, st', hrun, hrun', hsame⟩ :=
    @forOrder_simulation _ _ (fifoStep K) (PageReplacement.fifoStep K)
      (fun _ _ st st' => st.Same K st') (fun h => h.step hK _) 0 order ⟨0, []⟩
      ⟨0, [], ∅⟩ ⟨⟨List.nodup_nil, rfl, Nat.zero_le _⟩, rfl, rfl⟩
  refine ⟨st.hit, ?_, ?_⟩
  · rw [fifo, hrun, Option.map_some]
  · rw [PageReplacement.fifo, hrun', Option.map_some, hsame.hit_eq]

/-! Least recently used. -/

/-- The pages of the list of lab9, those used least recently first. -/
def recent (st : PageReplacement.LruState) : List Int := st.pages.ls.map Prod.snd

theorem size_posMap {l : PageList} (h : l.Inv) :
    l.posMap.size = (l.ls.map Prod.snd).length := by
  rw [List.length_map, h.length_eq, PageList.card_resident]

theorem map_snd_without {l : PageList} (h : l.Inv) {page : Int} {pos : Nat}
    (hpos : l.posMap[page]? = some pos) :
    (l.ls.filter fun node => node.1 ≠ pos).map Prod.snd =
      (l.ls.map Prod.snd).filter fun p => p ≠ page := by
  rw [List.filter_map]
  congr 1
  refine List.filter_congr fun node hnode => ?_
  have hget := (h.node_iff node.2 node.1).mpr hnode
  refine decide_eq_decide.mpr (not_congr ⟨fun heq => ?_, fun heq => ?_⟩)
  · rw [← heq] at hpos
    exact congrArg Prod.snd (List.inj_on_of_nodup_map h.nodup hnode
      ((h.node_iff page node.1).mp hpos) rfl)
  · change node.2 = page at heq
    rw [heq, hpos, Option.some.injEq] at hget
    exact hget.symm

/-- What a request does to the list of lab9. -/
theorem lruStep_recent {K i : Nat} {st st' : PageReplacement.LruState} {page : Int}
    (h : st.pages.Inv) (hstep : PageReplacement.lruStep K i st page = some st') :
    if page ∈ recent st then
      recent st' = (recent st).filter (fun p => p ≠ page) ++ [page] ∧
        st'.hit = st.hit + 1
    else recent st' = takeIn K (recent st) page ∧ st'.hit = st.hit := by
  have hmem : page ∈ recent st ↔ page ∈ st.pages.posMap := h.mem_iff.symm
  rw [PageReplacement.lruStep] at hstep
  cases hget : st.pages.posMap[page]? with
  | some pos =>
      rw [if_pos (hmem.mpr (PageList.mem_of_get hget))]
      simp only [hget, h.eraseNode_eq hget, Option.bind_eq_bind, Option.bind_some,
        Option.some.injEq] at hstep
      rw [← hstep, recent, PageList.pushBack, List.map_append, map_snd_without h hget]
      exact ⟨rfl, rfl⟩
  | none =>
      have hpage : page ∉ st.pages.posMap := by
        rw [Std.TreeMap.mem_iff_isSome_getElem?, hget]
        exact Bool.false_ne_true
      rw [if_neg (hmem.not.mpr hpage), takeIn]
      simp only [hget] at hstep
      rw [show (recent st).length = st.pages.posMap.size from (size_posMap h).symm]
      by_cases hfull : st.pages.posMap.size = K
      · rw [if_pos hfull] at hstep ⊢
        cases hls : st.pages.ls with
        | nil =>
            rw [hls] at hstep
            exact absurd hstep (by simp)
        | cons node rest =>
            obtain ⟨pos, ind⟩ := node
            have hind := PageList.mem_of_get (h.popFront hls).1
            simp only [hls, PageList.eraseKey, if_pos hind, Option.bind_eq_bind,
              Option.bind_some, Option.some.injEq] at hstep
            rw [← hstep, recent, recent, hls, PageList.pushBack, List.map_append]
            exact ⟨rfl, rfl⟩
      · simp only [if_neg hfull, Option.bind_eq_bind, Option.bind_some,
          Option.some.injEq] at hstep
        rw [if_neg hfull, ← hstep, recent, PageList.pushBack, List.map_append]
        exact ⟨rfl, rfl⟩

/-- When a page was last used, by the map of lab8. -/
def lastUse (lruCache : Std.TreeMap Int Nat) (page : Int) : Nat :=
  lruCache[page]?.getD 0

/-- The map holds these pages, those used least recently first. -/
structure Recent (i : Nat) (lruCache : Std.TreeMap Int Nat) (pages : List Int) :
    Prop where
  mem_iff : ∀ page, page ∈ lruCache ↔ page ∈ pages
  nodup : pages.Nodup
  sorted : pages.Pairwise fun p q => lastUse lruCache p < lastUse lruCache q
  before : ∀ page ∈ pages, lastUse lruCache page < i

namespace Recent

variable {i : Nat} {lruCache : Std.TreeMap Int Nat} {pages rest : List Int}
  {page : Int}

theorem size_eq (h : Recent i lruCache pages) : lruCache.size = pages.length := by
  rw [← Std.TreeMap.length_keys, ← List.toFinset_card_of_nodup Std.TreeMap.nodup_keys,
    ← List.toFinset_card_of_nodup h.nodup]
  congr 1
  ext p
  rw [List.mem_toFinset, List.mem_toFinset, Std.TreeMap.mem_keys, h.mem_iff]

theorem lastUse_insert (lruCache : Std.TreeMap Int Nat) (page p : Int) (i : Nat) :
    lastUse (lruCache.insert page i) p = if page = p then i else lastUse lruCache p := by
  simp only [lastUse, Std.TreeMap.getElem?_insert, Std.compare_eq_iff_eq]
  split <;> rfl

theorem lastUse_erase {page p : Int} (h : page ≠ p) :
    lastUse (lruCache.erase page) p = lastUse lruCache p := by
  simp only [lastUse, Std.TreeMap.getElem?_erase, Std.compare_eq_iff_eq, if_neg h]

/-- `lru_cache[index] = i;` -/
theorem insert (h : Recent i lruCache pages) (page : Int) :
    Recent (i + 1) (lruCache.insert page i) (pages.filter (fun p => p ≠ page) ++ [page]) := by
  have hkeep : ∀ p ∈ pages.filter (fun p => p ≠ page), p ∈ pages ∧
      lastUse (lruCache.insert page i) p = lastUse lruCache p := by
    intro p hp
    rw [List.mem_filter, decide_eq_true_eq] at hp
    exact ⟨hp.1, by rw [lastUse_insert, if_neg (Ne.symm hp.2)]⟩
  have hpage : lastUse (lruCache.insert page i) page = i := by
    rw [lastUse_insert, if_pos rfl]
  refine ⟨fun p => ?_, ?_, ?_, fun p hp => ?_⟩
  · rw [Std.TreeMap.mem_insert, Std.compare_eq_iff_eq, h.mem_iff, List.mem_append,
      List.mem_filter, List.mem_singleton, decide_eq_true_eq]
    by_cases hp : p = page
    · simp [hp]
    · simp [hp, Ne.symm hp]
  · refine List.Nodup.append (h.nodup.filter _) (List.nodup_singleton page) ?_
    rw [List.disjoint_singleton, List.mem_filter, decide_eq_true_eq]
    exact fun hmem => hmem.2 rfl
  · rw [List.pairwise_append]
    refine ⟨(h.sorted.filter _).imp_of_mem fun hp hq hlt => ?_,
      List.pairwise_singleton _ _, fun p hp q hq => ?_⟩
    · rwa [(hkeep _ hp).2, (hkeep _ hq).2]
    · rw [List.mem_singleton.mp hq, hpage, (hkeep p hp).2]
      exact h.before p (hkeep p hp).1
  · rcases List.mem_append.mp hp with hp | hp
    · rw [(hkeep p hp).2]
      exact Nat.lt_succ_of_lt (h.before p (hkeep p hp).1)
    · rw [List.mem_singleton.mp hp, hpage]
      exact Nat.lt_succ_self i

theorem erase_head (h : Recent i lruCache (page :: rest)) :
    Recent i (lruCache.erase page) rest := by
  have hnodup := List.nodup_cons.mp h.nodup
  have hsorted := List.pairwise_cons.mp h.sorted
  have hkeep : ∀ p ∈ rest, lastUse (lruCache.erase page) p = lastUse lruCache p :=
    fun p hp => lastUse_erase (Ne.symm (ne_of_mem_of_not_mem hp hnodup.1))
  refine ⟨fun p => ?_, hnodup.2, hsorted.2.imp_of_mem fun hp hq hlt => ?_,
    fun p hp => ?_⟩
  · rw [Std.TreeMap.mem_erase, ne_eq, Std.compare_eq_iff_eq, h.mem_iff, List.mem_cons]
    by_cases hp : p = page
    · simp [hp, hnodup.1]
    · simp [hp, Ne.symm hp]
  · rwa [hkeep _ hp, hkeep _ hq]
  · rw [hkeep p hp]
    exact h.before p (List.mem_cons_of_mem _ hp)

end Recent

theorem minIter_le (first : Int × Nat) (entries : List (Int × Nat)) :
    minIter first entries ∈ first :: entries ∧
      ∀ entry ∈ first :: entries, (minIter first entries).2 ≤ entry.2 := by
  induction entries generalizing first with
  | nil => simp [minIter]
  | cons iter rest ih =>
      rw [minIter, List.foldl_cons]
      split
      case isTrue hlt =>
        obtain ⟨hmem, hle⟩ := ih iter
        refine ⟨List.mem_cons_of_mem _ hmem, fun entry hentry => ?_⟩
        rcases List.mem_cons.mp hentry with rfl | hentry
        · exact (hle iter List.mem_cons_self).trans hlt.le
        · exact hle entry hentry
      case isFalse hnot =>
        obtain ⟨hmem, hle⟩ := ih first
        refine ⟨?_, fun entry hentry => ?_⟩
        · rcases List.mem_cons.mp hmem with heq | hmem
          · exact List.mem_cons.mpr (Or.inl heq)
          · exact List.mem_cons_of_mem _ (List.mem_cons_of_mem _ hmem)
        · rcases List.mem_cons.mp hentry with rfl | hentry
          · exact hle _ List.mem_cons_self
          rcases List.mem_cons.mp hentry with rfl | hentry
          · exact (hle first List.mem_cons_self).trans (Nat.le_of_not_lt hnot)
          · exact hle entry (List.mem_cons_of_mem _ hentry)

/-- The page with the least time is the first of the list. -/
theorem Recent.minIter_eq {i : Nat} {lruCache : Std.TreeMap Int Nat}
    {page : Int} {pages : List Int} {first : Int × Nat} {rest : List (Int × Nat)}
    (h : Recent i lruCache (page :: pages)) (hlist : lruCache.toList = first :: rest) :
    (minIter first (first :: rest)).1 = page := by
  obtain ⟨hmem, hle⟩ := minIter_le first (first :: rest)
  have hentry : ∀ entry ∈ first :: first :: rest, entry ∈ lruCache.toList := by
    intro entry hentry
    rw [hlist]
    rcases List.mem_cons.mp hentry with rfl | hentry
    · exact List.mem_cons_self
    · exact hentry
  obtain ⟨⟨p, time⟩, hmin⟩ : ∃ entry, entry = minIter first (first :: rest) := ⟨_, rfl⟩
  rw [← hmin] at hmem hle ⊢
  have hp := Std.TreeMap.mem_toList_iff_getElem?_eq_some.mp (hentry _ hmem)
  have hpmem : p ∈ page :: pages := by
    rw [← h.mem_iff, Std.TreeMap.mem_iff_isSome_getElem?, hp]
    rfl
  rcases List.mem_cons.mp hpmem with rfl | hpages
  · rfl
  -- the first page would be older still
  have hlt := (List.pairwise_cons.mp h.sorted).1 p hpages
  obtain ⟨oldest, holdest⟩ : ∃ oldest, lruCache[page]? = some oldest := by
    rw [← Option.isSome_iff_exists, ← Std.TreeMap.mem_iff_isSome_getElem?, h.mem_iff]
    exact List.mem_cons_self
  have hle' := hle (page, oldest) (List.mem_cons_of_mem _
    (hlist ▸ Std.TreeMap.mem_toList_iff_getElem?_eq_some.mpr holdest))
  simp only [lastUse, hp, holdest, Option.getD_some] at hlt hle'
  omega

structure LruState.Same (K i : Nat) (st : LruState)
    (st' : PageReplacement.LruState) : Prop where
  inv : st'.pages.Inv
  length_le : (recent st').length ≤ K
  recent : Recent i st.lruCache (recent st')
  hit_eq : st.hit = st'.hit

theorem LruState.Same.step {K i : Nat} {st : LruState} {st' : PageReplacement.LruState}
    (hK : 1 ≤ K) (h : st.Same K i st') (page : Int) :
    ∃ st₁ st₁', lruStep K i st page = some st₁ ∧
      PageReplacement.lruStep K i st' page = some st₁' ∧ st₁.Same K (i + 1) st₁' := by
  have hcard : st'.pages.resident.card = (Replacement.recent st').length := by
    rw [PageList.card_resident, size_posMap h.inv, Replacement.recent]
  obtain ⟨st₁', gain, hstep, hinv, -, hserved⟩ :=
    @PageReplacement.lruStep_spec K i st' page [] hK h.inv (hcard ▸ h.length_le)
  have hle := hserved.card_le (hcard ▸ h.length_le)
  rw [PageList.card_resident, size_posMap hinv] at hle
  have hrecent := lruStep_recent h.inv hstep
  have hinsert := h.recent.insert page
  rw [lruStep]
  by_cases hpage : page ∈ Replacement.recent st'
  · rw [if_pos hpage] at hrecent
    refine ⟨_, st₁', if_pos ((h.recent.mem_iff page).mpr hpage), hstep, hinv, hle, ?_,
      ?_⟩
    · rw [hrecent.1]
      exact hinsert
    · rw [hrecent.2, h.hit_eq]
  · rw [if_neg hpage, takeIn] at hrecent
    have hkept : (Replacement.recent st').filter (fun p => p ≠ page) =
        Replacement.recent st' := by
      rw [List.filter_eq_self]
      exact fun p hp => decide_eq_true (ne_of_mem_of_not_mem hp hpage)
    rw [hkept] at hinsert
    have hsize : (st.lruCache.insert page i).size =
        (Replacement.recent st').length + 1 := by
      rw [hinsert.size_eq, List.length_append, List.length_singleton]
    rw [if_neg ((h.recent.mem_iff page).not.mpr hpage), hsize]
    by_cases hfull : (Replacement.recent st').length = K
    · rw [if_pos (by omega)]
      obtain ⟨oldest, rest, hcons⟩ := List.exists_cons_of_length_pos
        (show 0 < (Replacement.recent st').length by omega)
      rw [hcons, List.cons_append] at hinsert
      rw [if_pos hfull, hcons, List.tail_cons] at hrecent
      cases hlist : (st.lruCache.insert page i).toList with
      | nil =>
          rw [← Std.TreeMap.length_toList, hlist] at hsize
          exact absurd hsize (by simp)
      | cons first others =>
          refine ⟨_, st₁', rfl, hstep, hinv, hle, ?_, h.hit_eq.trans hrecent.2.symm⟩
          rw [hrecent.1, hinsert.minIter_eq hlist]
          exact hinsert.erase_head
    · have hlen := h.length_le
      rw [if_neg (by omega)]
      rw [if_neg hfull] at hrecent
      refine ⟨_, st₁', rfl, hstep, hinv, hle, ?_, h.hit_eq.trans hrecent.2.symm⟩
      rw [hrecent.1]
      exact hinsert

theorem lru_eq {K : Nat} (hK : 1 ≤ K) (order : List Int) :
    ∃ hits, lru K order = some hits ∧ PageReplacement.lru K order = some hits := by
  obtain ⟨j, st, st', hrun, hrun', hsame⟩ :=
    @forOrder_simulation _ _ (lruStep K) (PageReplacement.lruStep K)
      (fun i _ st st' => st.Same K i st') (fun h => h.step hK _) 0 order ⟨0, ∅⟩
      ⟨0, .empty⟩ ⟨PageList.empty_inv, Nat.zero_le _,
        ⟨by simp [recent, PageList.empty], List.nodup_nil, List.Pairwise.nil,
          by simp [recent, PageList.empty]⟩, rfl⟩
  refine ⟨st.hit, ?_, ?_⟩
  · rw [lru, hrun, Option.map_some]
  · rw [PageReplacement.lru, hrun', Option.map_some, hsame.hit_eq]

/-! The policy that looks into the future. -/

/-- The uses of a page, with the one past the end. -/
def recorded (order : List Int) (page : Int) : List Nat :=
  positions page 0 order ++ [order.length + 10]

/-- The next use from `i` on. -/
def next (order : List Int) (i : Nat) (page : Int) : Nat :=
  nextUseOr (order.length + 10) order i page

theorem positions_ne_nil {page : Int} {i : Nat} {order : List Int} (h : page ∈ order) :
    positions page i order ≠ [] := by
  induction order generalizing i with
  | nil => exact absurd h List.not_mem_nil
  | cons p rest ih =>
      rw [positions]
      split
      case isTrue => exact List.cons_ne_nil _ _
      case isFalse hp => exact ih ((List.mem_cons.mp h).resolve_left (Ne.symm hp))

theorem infoOf_at {order : List Int} {page : Int} (h : page ∈ order) :
    (infoOf order).at page = recorded order page := by
  have hat := recordUses_at ∅ 0 order page
  change _ = [] ++ positions page 0 order at hat
  rw [List.nil_append, Uses.at] at hat
  rw [infoOf, Uses.at, Std.TreeMap.getElem?_map, recorded, ← hat]
  cases hget : (recordUses ∅ 0 order)[page]? with
  | none =>
      rw [hget] at hat
      exact absurd hat.symm (positions_ne_nil h)
  | some uses => rfl

theorem popPast_eq {i : Nat} {uses : List Nat}
    (h : (uses.dropWhile fun use => decide (use < i)) ≠ []) :
    popPast i uses = some (uses.dropWhile fun use => decide (use < i)) := by
  induction uses with
  | nil => exact absurd rfl h
  | cons use rest ih =>
      rw [popPast]
      by_cases hpast : use < i
      · rw [List.dropWhile_cons_of_pos (by simpa using hpast)] at h ⊢
        rw [if_pos hpast, ih h]
      · rw [if_neg hpast, List.dropWhile_cons_of_neg (by simpa using hpast)]

theorem recorded_head {order : List Int} {i : Nat} (hi : i ≤ order.length) (page : Int) :
    ((recorded order page).dropWhile fun use => decide (use < i)).head? =
      some (next order i page) :=
  uses_head (fun _ h => List.mem_singleton.mp h) (List.cons_ne_nil _ _) (by omega)

/-- Each list of uses is what was recorded, without some uses that are past. -/
def Current (info : Uses) (order : List Int) (i : Nat) : Prop :=
  ∀ page ∈ order, ∃ j ≤ i, info.at page =
    (recorded order page).dropWhile fun use => decide (use < j)

theorem Current.mono {info : Uses} {order : List Int} {i j : Nat}
    (h : Current info order i) (hij : i ≤ j) : Current info order j := fun p hp =>
  (h p hp).imp fun _ hk => ⟨hk.1.trans hij, hk.2⟩

/-- What the loop has found among the pages it has seen. -/
structure MaxScan.Best (order : List Int) (i : Nat) (seen : List Int)
    (scan : MaxScan) : Prop where
  current : Current scan.info order i
  popped : ∀ page ∈ seen, scan.info.at page =
    (recorded order page).dropWhile fun use => decide (use < i)
  max_mem : scan.max ∈ seen
  le_max : ∀ page ∈ seen, next order i page ≤ next order i scan.max

theorem scanPage_spec {order : List Int} {i : Nat} {seen : List Int} {scan : MaxScan}
    {page : Int} (hi : i ≤ order.length) (hpage : page ∈ order)
    (hcurrent : Current scan.info order i)
    (hpopped : ∀ p ∈ seen, scan.info.at p =
      (recorded order p).dropWhile fun use => decide (use < i))
    (hmax : scan.max ∈ seen ++ [page])
    (hle : ∀ p ∈ seen, next order i p ≤ next order i scan.max) :
    ∃ scan', scanPage i scan page = some scan' ∧ scan'.Best order i (seen ++ [page]) := by
  obtain ⟨j, hj, hat⟩ := hcurrent page hpage
  have hhead := recorded_head hi
  have hpop : popPast i (scan.info.at page) =
      some ((recorded order page).dropWhile fun use => decide (use < i)) := by
    rw [popPast_eq, hat, dropWhile_dropWhile_lt hj]
    rw [hat, dropWhile_dropWhile_lt hj]
    intro hnil
    have := hhead page
    rw [hnil] at this
    exact absurd this.symm (Option.some_ne_none _)
  obtain ⟨info, hinfo⟩ : ∃ info : Uses, info = scan.info.insert page
    ((recorded order page).dropWhile fun use => decide (use < i)) := ⟨_, rfl⟩
  have hpopped' : ∀ p ∈ seen ++ [page], info.at p =
      (recorded order p).dropWhile fun use => decide (use < i) := by
    intro p hp
    rw [hinfo, Uses.at_insert]
    split
    case isTrue heq => rw [heq]
    case isFalse hne =>
      exact hpopped p ((List.mem_append.mp hp).resolve_right
        fun h => hne (List.mem_singleton.mp h).symm)
  have hcurrent' : Current info order i := by
    intro p hp
    by_cases heq : page = p
    · exact ⟨i, Nat.le_refl _, hpopped' p (by simp [heq])⟩
    · obtain ⟨k, hk, hatp⟩ := hcurrent p hp
      exact ⟨k, hk, by rw [hinfo, Uses.at_insert, if_neg heq, hatp]⟩
  have hfront : ∀ p ∈ seen ++ [page], (info.at p).head? = some (next order i p) :=
    fun p hp => by rw [hpopped' p hp, hhead]
  have hrun : scanPage i scan page = some ⟨info,
      if next order i scan.max < next order i page then page else scan.max⟩ := by
    simp only [scanPage, hpop, Option.bind_eq_bind, Option.bind_some, ← hinfo,
      hfront _ hmax, hfront page (by simp)]
  refine ⟨_, hrun, hcurrent', hpopped', ?_, fun p hp => ?_⟩
  · split
    · simp
    · exact hmax
  · rcases List.mem_append.mp hp with hp | hp
    · have := hle p hp
      simp only
      split <;> omega
    · rw [List.mem_singleton.mp hp]
      simp only
      split <;> omega

theorem MaxScan.Best.foldlM {order : List Int} {i : Nat} {seen pages : List Int}
    {scan : MaxScan} (h : scan.Best order i seen) (hi : i ≤ order.length)
    (hpages : ∀ page ∈ pages, page ∈ order) :
    ∃ scan', pages.foldlM (scanPage i) scan = some scan' ∧
      scan'.Best order i (seen ++ pages) := by
  induction pages generalizing seen scan with
  | nil => exact ⟨scan, rfl, by rwa [List.append_nil]⟩
  | cons page rest ih =>
      rw [List.forall_mem_cons] at hpages
      obtain ⟨scan₁, hrun, hbest⟩ := scanPage_spec hi hpages.1 h.current h.popped
        (List.mem_append_left _ h.max_mem) h.le_max
      obtain ⟨scan', hrest, hbest'⟩ := ih hbest hpages.2
      refine ⟨scan', ?_, by rwa [List.append_cons]⟩
      rw [List.foldlM_cons, hrun]
      exact hrest

/-- The state before the request at place `i`. -/
structure MinState.Inv (K : Nat) (order : List Int) (i : Nat) (rest : List Int)
    (st : MinState) : Prop where
  place : ∃ done, order = done ++ rest ∧ done.length = i
  card_le : st.minCache.keys.toFinset.card ≤ K
  used : ∀ page ∈ st.minCache, page ∈ order
  current : Current st.info order i

/-- The resident pages. -/
def MinState.resident (st : MinState) : Finset Int := st.minCache.keys.toFinset

theorem MinState.mem_resident {st : MinState} {page : Int} :
    page ∈ st.resident ↔ page ∈ st.minCache := by
  rw [resident, List.mem_toFinset, Std.TreeMap.mem_keys]

/-- The page that is requested now is used before every other one. -/
theorem next_lt_next {done rest : List Int} {page p : Int} (hp : p ≠ page) :
    next (done ++ page :: rest) done.length page <
      next (done ++ page :: rest) done.length p := by
  have hpage : next (done ++ page :: rest) done.length page = done.length := by
    rw [next, nextUseOr, List.drop_left, if_pos List.mem_cons_self,
      List.idxOf_cons_self, Nat.add_zero]
  rw [hpage, next, nextUseOr, List.drop_left, List.idxOf_cons_ne _ (Ne.symm hp)]
  split
  · omega
  · rw [List.length_append]
    omega

theorem minStep_spec {K i : Nat} {order rest : List Int} {page : Int} {st : MinState}
    (hK : 1 ≤ K) (h : st.Inv K order i (page :: rest)) :
    ∃ st' gain, minStep K i st page = some st' ∧ st'.Inv K order (i + 1) rest ∧
      st'.hit = st.hit + gain ∧
      PagingStep K farthestPage st.resident page rest st'.resident gain := by
  obtain ⟨done, horder, rfl⟩ := h.place
  have hplace : ∃ before, order = before ++ rest ∧ before.length = done.length + 1 :=
    ⟨done ++ [page], by rw [horder, List.append_cons], by simp⟩
  have hpage_order : page ∈ order := by
    rw [horder]
    simp
  have hi : done.length ≤ order.length := by
    rw [horder, List.length_append]
    exact Nat.le_add_right _ _
  rw [minStep]
  by_cases hpage : page ∈ st.minCache
  · exact ⟨{ st with hit := st.hit + 1 }, 1, if_pos hpage, ⟨hplace, h.card_le, h.used,
      h.current.mono (Nat.le_succ _)⟩, rfl, Or.inl ⟨MinState.mem_resident.mpr hpage, rfl, rfl⟩⟩
  have hout : page ∉ st.resident := MinState.mem_resident.not.mpr hpage
  have hkeys : ∀ p, p ∈ (st.minCache.insert page 0).keys ↔ p = page ∨ p ∈ st.resident := by
    intro p
    rw [Std.TreeMap.mem_keys, Std.TreeMap.mem_insert, Std.compare_eq_iff_eq, MinState.mem_resident,
      eq_comm]
  have hused : ∀ p ∈ (st.minCache.insert page 0).keys, p ∈ order := by
    intro p hp
    rcases (hkeys p).mp hp with rfl | hp
    · exact hpage_order
    · exact h.used p (MinState.mem_resident.mp hp)
  have hsize : (st.minCache.insert page 0).size = st.resident.card + 1 := by
    rw [Std.TreeMap.size_insert, if_neg (by rwa [← Std.TreeMap.mem_iff_contains]),
      MinState.resident,
      List.toFinset_card_of_nodup Std.TreeMap.nodup_keys, Std.TreeMap.length_keys]
  have hle : st.resident.card ≤ K := h.card_le
  rw [if_neg hpage]
  simp only [hsize]
  by_cases hfull : st.resident.card = K
  · rw [if_pos (by omega)]
    cases hlist : (st.minCache.insert page 0).keys with
    | nil =>
        have hmem := (hkeys page).mpr (Or.inl rfl)
        rw [hlist] at hmem
        exact absurd hmem List.not_mem_nil
    | cons first others =>
        rw [hlist, List.forall_mem_cons] at hused
        obtain ⟨scan₁, hfirst, hbest₁⟩ := @scanPage_spec order done.length []
          ⟨st.info, first⟩ first hi hused.1 h.current (by simp) (by simp) (by simp)
        obtain ⟨scan, hothers, hbest⟩ := hbest₁.foldlM hi hused.2
        rw [List.nil_append, List.singleton_append, ← hlist] at hbest
        obtain ⟨w, hw⟩ := Finset.card_pos.mp (show 0 < st.resident.card by omega)
        have hne : ∀ p ∈ st.resident, p ≠ page := fun p hp => ne_of_mem_of_not_mem hp hout
        have hmax : scan.max ≠ page := by
          intro heq
          have hw' := hbest.le_max w ((hkeys w).mpr (Or.inr hw))
          have hlt := @next_lt_next done rest page w (hne w hw)
          rw [heq, horder] at hw'
          omega
        have hv : scan.max ∈ st.resident :=
          ((hkeys _).mp hbest.max_mem).resolve_left hmax
        obtain ⟨st', hst'⟩ : ∃ st' : MinState, st' = { st with
          minCache := (st.minCache.insert page 0).erase scan.max
          info := scan.info } := ⟨_, rfl⟩
        have hresident : st'.resident = insert page (st.resident.erase scan.max) := by
          ext p
          rw [MinState.mem_resident, hst', Std.TreeMap.mem_erase, ← Std.TreeMap.mem_keys, hkeys,
            ne_eq, Std.compare_eq_iff_eq, Finset.mem_insert, Finset.mem_erase]
          by_cases hp : p = page
          · simp [hp, hmax]
          · simp [hp, eq_comm]
        have hstep : PagingStep K farthestPage st.resident page rest st'.resident 0 := by
          refine Or.inr ⟨hout, rfl, Or.inr ⟨hfull, scan.max, hv, fun w hw => ?_,
            hresident⟩⟩
          refine @idxOf_le_of_nextUseOr_le done _ page _ _ (order.length + 10)
            (hne _ hv) (hne w hw) (horder ▸ Nat.le_add_right _ _) ?_
          rw [← horder]
          exact hbest.le_max w ((hkeys w).mpr (Or.inr hw))
        refine ⟨st', 0, ?_, ⟨hplace, hstep.card_le hle, fun p hp => ?_, ?_⟩, ?_, hstep⟩
        · simp only [List.foldlM_cons, hfirst, hothers, Option.bind_eq_bind,
            Option.bind_some, hst']
        · rw [← MinState.mem_resident, hresident, Finset.mem_insert] at hp
          rcases hp with rfl | hp
          · exact hpage_order
          · exact h.used p (MinState.mem_resident.mp (Finset.mem_of_mem_erase hp))
        · rw [hst']
          exact hbest.current.mono (Nat.le_succ _)
        · rw [hst']
          rfl
  · have hroom : st.resident.card < K := Nat.lt_of_le_of_ne hle hfull
    rw [if_neg (by omega)]
    obtain ⟨st', hst'⟩ : ∃ st' : MinState,
        st' = { st with minCache := st.minCache.insert page 0 } := ⟨_, rfl⟩
    have hresident : st'.resident = insert page st.resident := by
      ext p
      rw [MinState.mem_resident, hst', ← Std.TreeMap.mem_keys, hkeys, Finset.mem_insert]
    have hstep : PagingStep K farthestPage st.resident page rest st'.resident 0 :=
      Or.inr ⟨hout, rfl, Or.inl ⟨hroom, hresident⟩⟩
    refine ⟨st', 0, by rw [hst'], ⟨hplace, hstep.card_le hle, fun p hp => ?_, ?_⟩, ?_,
      hstep⟩
    · rw [hst', ← Std.TreeMap.mem_keys] at hp
      exact hused p hp
    · rw [hst']
      exact h.current.mono (Nat.le_succ _)
    · rw [hst']
      rfl

theorem min_farthest {K : Nat} (hK : 1 ≤ K) (order : List Int) :
    ∃ hits, min K order = some hits ∧ FarthestRun K ∅ order hits := by
  have hcurrent : Current (infoOf order) order 0 := by
    intro p hp
    refine ⟨0, Nat.le_refl _, ?_⟩
    rw [infoOf_at hp]
    cases recorded order p with
    | nil => rfl
    | cons use rest => rw [List.dropWhile_cons_of_neg (by simp)]
  obtain ⟨st, hits, hrun, hhits, hpaging⟩ :=
    @forOrder_run _ K farthestPage (minStep K) MinState.resident MinState.hit
    (fun i rest st => st.Inv K order i rest) (fun h => minStep_spec hK h)
    0 order ⟨0, ∅, infoOf order⟩ ⟨⟨[], rfl, rfl⟩, Nat.zero_le _, by simp, hcurrent⟩
  refine ⟨hits, ?_, hpaging⟩
  rw [min, hrun, Option.map_some, hhits, Nat.zero_add]

/-- The programs of lab8 and lab9 count the same hits for the first three
policies, in whatever order the pages of lab9's `pos_map` come up. -/
theorem same_hits {K : Nat} (hK : 1 ≤ K) (order : List Int) :
    (∃ hits, fifo K order = some hits ∧ PageReplacement.fifo K order = some hits) ∧
      (∃ hits, lru K order = some hits ∧ PageReplacement.lru K order = some hits) ∧
      ∃ hits, min K order = some hits ∧
        ∀ iter : Nat → List Int → List Int, (∀ i keys, (iter i keys).Perm keys) →
          PageReplacement.min K iter order = some hits := by
  refine ⟨fifo_eq hK order, lru_eq hK order, ?_⟩
  obtain ⟨hits, hmin, hrun⟩ := min_farthest hK order
  refine ⟨hits, hmin, fun iter hiter => ?_⟩
  obtain ⟨hits', hmin', hrun'⟩ := PageReplacement.min_farthest hK hiter order
  rw [hmin', Nat.le_antisymm (hrun.optimal hrun'.demand) (hrun'.optimal hrun.demand)]

namespace SameHitsWitness

def order : List Int := [7, 0, 1, 2, 0, 3, 0, 4, 2, 3]

theorem same_hits_three_frames :
    (∃ hits, fifo 3 order = some hits ∧ PageReplacement.fifo 3 order = some hits) ∧
      (∃ hits, lru 3 order = some hits ∧ PageReplacement.lru 3 order = some hits) ∧
      ∃ hits, min 3 order = some hits ∧
        ∀ iter : Nat → List Int → List Int, (∀ i keys, (iter i keys).Perm keys) →
          PageReplacement.min 3 iter order = some hits :=
  same_hits (by decide) order

end SameHitsWitness

end Replacement

end PintosLabs
