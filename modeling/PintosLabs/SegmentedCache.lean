/-
The segmented cache of lab9 (`second_chance` in main.cpp): half of the frames
are a queue, the other half a list by recency of what has left the queue.  A
page found in the list changes places with the front of the queue.  With a
single frame there is no queue, and the first request pops from it.
-/
import PintosLabs.MinOptimal

namespace PintosLabs

namespace PageReplacement

namespace PageList

variable {l : PageList} {page : Int} {pos : Nat}

theorem Inv.mem_iff (h : l.Inv) : page ∈ l.posMap ↔ page ∈ l.ls.map Prod.snd := by
  rw [Std.TreeMap.mem_iff_isSome_getElem?, Option.isSome_iff_exists]
  constructor
  · rintro ⟨pos, hpos⟩
    exact List.mem_map.mpr ⟨_, (h.node_iff page pos).mp hpos, rfl⟩
  · intro hmem
    obtain ⟨⟨pos, p⟩, hnode, rfl⟩ := List.mem_map.mp hmem
    exact ⟨pos, (h.node_iff p pos).mpr hnode⟩

/-- A page has one node only. -/
theorem Inv.pages_nodup (h : l.Inv) : (l.ls.map Prod.snd).Nodup := by
  refine List.Nodup.map_on ?_ (List.Nodup.of_map _ h.nodup)
  rintro ⟨pos, p⟩ hp ⟨pos', p'⟩ hp' heq
  have hpos := (h.node_iff p pos).mpr hp
  have hpos' := (h.node_iff p' pos').mpr hp'
  change p = p' at heq
  subst heq
  rw [Option.some.inj (hpos.symm.trans hpos')]

theorem Inv.length_eq (h : l.Inv) : l.ls.length = l.resident.card := by
  have hsame : l.resident = (l.ls.map Prod.snd).toFinset := by
    ext p
    rw [mem_resident, h.mem_iff, List.mem_toFinset]
  rw [hsame, List.toFinset_card_of_nodup h.pages_nodup, List.length_map]

end PageList

structure SegmentedState where
  hit : Nat
  que : List Int
  eleSet : Finset Int
  pages : PageList

namespace SegmentedState

def empty : SegmentedState := ⟨0, [], ∅, .empty⟩

/-- `int f = que.front(); que.pop(); ele_set.erase(ele_set.find(f));` -/
def fifoPop (st : SegmentedState) : Option (Int × SegmentedState) :=
  match st.que with
  | [] => none
  | f :: rest =>
      if f ∈ st.eleSet then
        some (f, { st with que := rest, eleSet := st.eleSet.erase f })
      else none

def fifoPush (st : SegmentedState) (page : Int) : SegmentedState :=
  { st with que := st.que ++ [page], eleSet := insert page st.eleSet }

/-- `int ind = ls.front(); ls.pop_front(); pos_map.erase(pos_map.find(ind));` -/
def lruPop (st : SegmentedState) : Option SegmentedState :=
  match st.pages.ls with
  | [] => none
  | (_, ind) :: rest => do
      let pages ← ({ st.pages with ls := rest } : PageList).eraseKey ind
      some { st with pages := pages }

def lruPush (st : SegmentedState) (page : Int) : SegmentedState :=
  { st with pages := st.pages.pushBack page }

end SegmentedState

/-- The branches of `second_chance`, by the letters of its comments. -/
inductive Branch
  | hit
  | b
  | c
  | d
deriving Repr, DecidableEq

/-- The branch that a request takes, if it takes one. -/
def branch (K : Nat) (st : SegmentedState) (page : Int) : Option Branch :=
  let fifoSize := K / 2
  let lruSize := K - K / 2
  if page ∈ st.eleSet ∨ page ∈ st.pages.posMap then some .hit
  else if st.que.length < fifoSize then some .b
  else if st.que.length = fifoSize ∧ st.pages.ls.length < lruSize then some .c
  else if st.que.length = fifoSize ∧ st.pages.ls.length = lruSize then some .d
  else none

/-- Branch `e`: a page of the list changes places with the front of the queue. -/
def SegmentedState.exchange (st : SegmentedState) (page : Int) :
    Option SegmentedState :=
  match st.pages.posMap[page]? with
  | none => some st
  | some pos => do
      let pages ← st.pages.eraseNode pos
      let pages ← pages.eraseKey page
      let (f, st) ← ({ st with pages := pages } : SegmentedState).fifoPop
      some ((st.lruPush f).fifoPush page)

def secondChanceStep (K : Nat) (_ : Nat) (st : SegmentedState) (page : Int) :
    Option SegmentedState :=
  match branch K st page with
  | some .hit => ({ st with hit := st.hit + 1 } : SegmentedState).exchange page
  | some .b => some (st.fifoPush page)
  | some .c => do
      let (f, st) ← st.fifoPop
      some ((st.fifoPush page).lruPush f)
  | some .d => do
      let st ← st.lruPop
      let (f, st) ← st.fifoPop
      some ((st.fifoPush page).lruPush f)
  | none => some st

def secondChance (K : Nat) (order : List Int) : Option Nat :=
  (forOrder (secondChanceStep K) 0 order .empty).map SegmentedState.hit

namespace SegmentedState

/-- The four containers between two requests. -/
structure Consistent (K : Nat) (st : SegmentedState) : Prop where
  mem_eleSet : ∀ page, page ∈ st.eleSet ↔ page ∈ st.que
  mem_posMap : ∀ page, page ∈ st.pages.posMap ↔ page ∈ st.pages.ls.map Prod.snd
  posMap_node : ∀ page pos, st.pages.posMap[page]? = some pos →
    (pos, page) ∈ st.pages.ls
  disjoint : ∀ page ∈ st.que, page ∉ st.pages.ls.map Prod.snd
  que_nodup : st.que.Nodup
  ls_nodup : (st.pages.ls.map Prod.snd).Nodup
  que_le : st.que.length ≤ K / 2
  ls_le : st.pages.ls.length ≤ K - K / 2
  que_full : st.pages.ls ≠ [] → st.que.length = K / 2

/-- The two parts of the cache have no page in common. -/
structure Parts (st : SegmentedState) : Prop where
  nodup : st.que.Nodup
  eleSet_eq : st.eleSet = st.que.toFinset
  pages : st.pages.Inv
  disjoint : Disjoint st.eleSet st.pages.resident

variable {K : Nat} {st : SegmentedState} {page f : Int} {rest : List Int} {pos : Nat}

theorem Parts.pop (h : st.Parts) (hque : st.que = f :: rest) :
    ∃ st', st.fifoPop = some (f, st') ∧ st'.Parts ∧ st'.que = rest ∧
      st'.eleSet = st.eleSet.erase f ∧ st'.pages = st.pages ∧
        f ∉ st'.eleSet ∧ f ∉ st'.pages.resident := by
  have hf : f ∈ st.eleSet := by
    rw [h.eleSet_eq, hque]
    simp
  have hnodup := h.nodup
  rw [hque, List.nodup_cons] at hnodup
  refine ⟨{ st with que := rest, eleSet := st.eleSet.erase f }, ?_,
    ⟨hnodup.2, ?_, h.pages, ?_⟩, rfl, rfl, rfl, Finset.notMem_erase _ _,
    Finset.disjoint_left.mp h.disjoint hf⟩
  · simp only [fifoPop, hque, if_pos hf]
  · rw [h.eleSet_eq, hque, List.toFinset_cons, Finset.erase_insert]
    rw [List.mem_toFinset]
    exact hnodup.1
  · exact Finset.disjoint_of_subset_left (Finset.erase_subset _ _) h.disjoint

@[simp] theorem fifoPush_pages (st : SegmentedState) (page : Int) :
    (st.fifoPush page).pages = st.pages := rfl

theorem Parts.fifoPush (h : st.Parts) (hque : page ∉ st.eleSet)
    (hls : page ∉ st.pages.resident) : (st.fifoPush page).Parts where
  nodup := by
    refine List.Nodup.append h.nodup (List.nodup_singleton page) ?_
    rw [List.disjoint_singleton]
    rwa [h.eleSet_eq, List.mem_toFinset] at hque
  eleSet_eq := by
    rw [SegmentedState.fifoPush, List.toFinset_append, h.eleSet_eq, Finset.insert_eq,
      Finset.union_comm]
    rfl
  pages := h.pages
  disjoint := Finset.disjoint_insert_left.mpr ⟨hls, h.disjoint⟩

theorem Parts.lruPush (h : st.Parts) (hque : page ∉ st.eleSet)
    (hls : page ∉ st.pages.resident) : (st.lruPush page).Parts where
  nodup := h.nodup
  eleSet_eq := h.eleSet_eq
  pages := h.pages.pushBack (PageList.mem_resident.not.mp hls)
  disjoint := by
    rw [SegmentedState.lruPush, PageList.resident_pushBack]
    exact Finset.disjoint_insert_right.mpr ⟨hque, h.disjoint⟩

theorem Parts.without (h : st.Parts) (hpos : st.pages.posMap[page]? = some pos) :
    ({ st with pages := st.pages.without page pos } : SegmentedState).Parts where
  nodup := h.nodup
  eleSet_eq := h.eleSet_eq
  pages := h.pages.without hpos
  disjoint := by
    rw [PageList.resident_without]
    exact Finset.disjoint_of_subset_right (Finset.erase_subset _ _) h.disjoint

/-- What `second_chance` keeps. -/
structure Inv (K : Nat) (st : SegmentedState) : Prop where
  parts : st.Parts
  que_le : st.que.length ≤ K / 2
  ls_le : st.pages.resident.card ≤ K - K / 2
  que_full : 0 < st.pages.resident.card → st.que.length = K / 2

theorem Inv.consistent (h : st.Inv K) : st.Consistent K where
  mem_eleSet p := by rw [h.parts.eleSet_eq, List.mem_toFinset]
  mem_posMap p := h.parts.pages.mem_iff
  posMap_node p pos := (h.parts.pages.node_iff p pos).mp
  disjoint p hp hls := by
    refine Finset.disjoint_left.mp h.parts.disjoint (?_ : p ∈ st.eleSet) ?_
    · rwa [h.parts.eleSet_eq, List.mem_toFinset]
    · rwa [PageList.mem_resident, h.parts.pages.mem_iff]
  que_nodup := h.parts.nodup
  ls_nodup := h.parts.pages.pages_nodup
  que_le := h.que_le
  ls_le := h.parts.pages.length_eq ▸ h.ls_le
  que_full hne := by
    refine h.que_full ?_
    rw [← h.parts.pages.length_eq]
    exact List.length_pos_iff.mpr hne

theorem empty_inv : (empty).Inv K where
  parts := ⟨List.nodup_nil, rfl, PageList.empty_inv, Finset.disjoint_empty_left _⟩
  que_le := Nat.zero_le _
  ls_le := Nat.zero_le _
  que_full hpos := absurd hpos (Nat.lt_irrefl 0)

theorem Parts.card_eq (h : st.Parts) : st.eleSet.card = st.que.length := by
  rw [h.eleSet_eq, List.toFinset_card_of_nodup h.nodup]

/-- The front of the queue goes to the end of the list, and a page that is in
neither part to the end of the queue. -/
theorem Parts.rotate (h : st.Parts) (hpos : 0 < st.que.length)
    (hque : page ∉ st.eleSet) (hls : page ∉ st.pages.resident) :
    ∃ f st₁, st.fifoPop = some (f, st₁) ∧
      ((st₁.fifoPush page).lruPush f).Parts ∧
      ((st₁.fifoPush page).lruPush f).que.length = st.que.length ∧
      ((st₁.fifoPush page).lruPush f).pages.resident.card =
        st.pages.resident.card + 1 := by
  obtain ⟨f, rest, hcons⟩ := List.exists_cons_of_length_pos hpos
  obtain ⟨st₁, hpop, hparts, hrest, hset, hpages, hf, hf'⟩ := h.pop hcons
  have hpage : page ∉ st₁.eleSet := by
    rw [hset]
    exact fun hmem => hque (Finset.mem_of_mem_erase hmem)
  have hpage' : page ∉ st₁.pages.resident := by rwa [hpages]
  have hne : f ≠ page := by
    rintro rfl
    rw [h.eleSet_eq, hcons] at hque
    simp at hque
  have hf₁ : f ∉ (st₁.fifoPush page).eleSet := by
    rw [SegmentedState.fifoPush, Finset.mem_insert, not_or]
    exact ⟨hne, hf⟩
  refine ⟨f, st₁, hpop, (hparts.fifoPush hpage hpage').lruPush hf₁ hf', ?_, ?_⟩
  · rw [SegmentedState.lruPush, SegmentedState.fifoPush, List.length_append, hrest,
      hcons]
    rfl
  · rw [SegmentedState.lruPush, PageList.resident_pushBack, fifoPush_pages,
      Finset.card_insert_of_notMem hf', hpages]

theorem fifoPush_lruPush (st : SegmentedState) (page f : Int) :
    (st.lruPush f).fifoPush page = (st.fifoPush page).lruPush f := rfl

theorem mem_que_push (st : SegmentedState) (page f : Int) :
    page ∈ ((st.fifoPush page).lruPush f).que := by
  simp [SegmentedState.lruPush, SegmentedState.fifoPush]

end SegmentedState

open SegmentedState

variable {K : Nat} {st : SegmentedState} {page : Int}

/-- A page in neither part: one of the last three branches takes it. -/
theorem secondChanceStep_miss (hK : 2 ≤ K) (h : st.Inv K) (hque : page ∉ st.eleSet)
    (hls : page ∉ st.pages.posMap) (i : Nat) :
    ∃ st', secondChanceStep K i st page = some st' ∧ (branch K st page).isSome ∧
      st'.Inv K ∧ page ∈ st'.que := by
  have hout : page ∉ st.pages.resident := PageList.mem_resident.not.mpr hls
  have hnot : ¬ (page ∈ st.eleSet ∨ page ∈ st.pages.posMap) := not_or.mpr ⟨hque, hls⟩
  have hlength := h.parts.pages.length_eq
  have hhalf : 0 < K / 2 := Nat.div_pos hK Nat.zero_lt_two
  rcases Nat.lt_or_eq_of_le h.que_le with hroom | hfull
  · have hbranch : branch K st page = some .b := by
      simp only [branch, if_neg hnot, if_pos hroom]
    have hempty : ¬ 0 < st.pages.resident.card := fun hpos =>
      Nat.ne_of_lt hroom (h.que_full hpos)
    refine ⟨st.fifoPush page, ?_, ?_, ⟨h.parts.fifoPush hque hout, ?_, h.ls_le,
      fun hpos => absurd hpos hempty⟩, ?_⟩
    · rw [secondChanceStep, hbranch]
    · rw [hbranch]
      rfl
    · rw [SegmentedState.fifoPush, List.length_append]
      exact hroom
    · simp [SegmentedState.fifoPush]
  · have hpos : 0 < st.que.length := hfull ▸ hhalf
    have hnotb : ¬ st.que.length < K / 2 := hfull ▸ Nat.lt_irrefl _
    rcases Nat.lt_or_eq_of_le h.ls_le with hroom | hfull'
    · have hbranch : branch K st page = some .c := by
        simp only [branch, if_neg hnot, if_neg hnotb]
        rw [if_pos ⟨hfull, hlength ▸ hroom⟩]
      obtain ⟨f, st₁, hpop, hparts, hlen, hcard⟩ := h.parts.rotate hpos hque hout
      refine ⟨_, ?_, ?_, ⟨hparts, ?_, ?_, fun _ => hlen.trans hfull⟩,
        mem_que_push _ _ _⟩
      · simp only [secondChanceStep, hbranch, hpop, Option.bind_eq_bind,
          Option.bind_some]
      · rw [hbranch]
        rfl
      · rw [hlen]
        exact h.que_le
      · rw [hcard]
        exact hroom
    · have hbranch : branch K st page = some .d := by
        simp only [branch, if_neg hnot, if_neg hnotb]
        rw [if_neg (fun hc => Nat.ne_of_lt hc.2 (hlength.trans hfull')),
          if_pos ⟨hfull, hlength.trans hfull'⟩]
      obtain ⟨⟨pos, ind⟩, rest, hcons⟩ := List.exists_cons_of_length_pos
        (show 0 < st.pages.ls.length by omega)
      obtain ⟨hind, herase⟩ := h.parts.pages.popFront hcons
      have hparts := h.parts.without hind
      have hmem : ind ∈ st.pages.resident :=
        PageList.mem_resident.mpr (PageList.mem_of_get hind)
      have hout' : page ∉ (st.pages.without ind pos).resident := by
        rw [PageList.resident_without]
        exact fun hmem => hout (Finset.mem_of_mem_erase hmem)
      have hcard₁ : (st.pages.without ind pos).resident.card + 1 = K - K / 2 := by
        rw [PageList.resident_without, Finset.card_erase_add_one hmem, hfull']
      obtain ⟨f, st₁, hpop, hparts, hlen, hcard⟩ := hparts.rotate hpos hque hout'
      refine ⟨_, ?_, ?_, ⟨hparts, ?_, ?_, fun _ => hlen.trans hfull⟩,
        mem_que_push _ _ _⟩
      · simp only [secondChanceStep, hbranch, lruPop, hcons, herase, hpop,
          Option.bind_eq_bind, Option.bind_some]
      · rw [hbranch]
        rfl
      · rw [hlen]
        exact h.que_le
      · rw [hcard]
        exact Nat.le_of_eq hcard₁

/-- A page in the queue stays there; one in the list changes places with the
front of the queue. -/
theorem secondChanceStep_hit (hK : 2 ≤ K) (h : st.Inv K)
    (hhit : page ∈ st.eleSet ∨ page ∈ st.pages.posMap) (i : Nat) :
    ∃ st', secondChanceStep K i st page = some st' ∧ (branch K st page).isSome ∧
      st'.Inv K ∧ page ∈ st'.que := by
  have hbranch : branch K st page = some .hit := by
    simp only [branch, if_pos hhit]
  have hhalf : 0 < K / 2 := Nat.div_pos hK Nat.zero_lt_two
  obtain ⟨st₀, hst₀⟩ : ∃ st₀, ({ st with hit := st.hit + 1 } : SegmentedState) = st₀ :=
    ⟨_, rfl⟩
  have h₀ : st₀.Inv K := hst₀ ▸ ⟨⟨h.parts.1, h.parts.2, h.parts.3, h.parts.4⟩, h.2, h.3, h.4⟩
  have hpages : st.pages = st₀.pages := hst₀ ▸ rfl
  have hque : st.que = st₀.que := hst₀ ▸ rfl
  simp only [secondChanceStep, hbranch, hst₀, Option.isSome_some, true_and]
  rw [hpages] at hhit
  rw [SegmentedState.exchange]
  cases hget : st₀.pages.posMap[page]? with
  | none =>
      refine ⟨st₀, rfl, h₀, ?_⟩
      have hnot : page ∉ st₀.pages.posMap := by
        rw [Std.TreeMap.mem_iff_isSome_getElem?, hget]
        exact Bool.false_ne_true
      have hmem := hhit.resolve_right hnot
      rw [h.parts.eleSet_eq, List.mem_toFinset, hque] at hmem
      exact hmem
  | some pos =>
      have hmem : page ∈ st₀.pages.resident :=
        PageList.mem_resident.mpr (PageList.mem_of_get hget)
      have hfull : st₀.que.length = K / 2 :=
        h₀.que_full (Finset.card_pos.mpr ⟨page, hmem⟩)
      have hout : page ∉ st₀.eleSet :=
        Finset.disjoint_right.mp h₀.parts.disjoint hmem
      have hout' : page ∉ (st₀.pages.without page pos).resident := by
        rw [PageList.resident_without]
        exact Finset.notMem_erase _ _
      have hcard₁ : (st₀.pages.without page pos).resident.card + 1 =
          st₀.pages.resident.card := by
        rw [PageList.resident_without, Finset.card_erase_add_one hmem]
      have herase : PageList.eraseKey { st₀.pages with
          ls := st₀.pages.ls.filter fun node => node.1 ≠ pos } page =
            some (st₀.pages.without page pos) := by
        rw [PageList.eraseKey, if_pos (PageList.mem_of_get hget)]
        rfl
      obtain ⟨f, st₁, hpop, hparts, hlen, hcard⟩ := (h₀.parts.without hget).rotate
        (hfull ▸ hhalf) hout hout'
      refine ⟨(st₁.fifoPush page).lruPush f, ?_, ⟨hparts, ?_, ?_,
        fun _ => hlen.trans hfull⟩, mem_que_push _ _ _⟩
      · simp only [h₀.parts.pages.eraseNode_eq hget, herase, hpop,
          Option.bind_eq_bind, Option.bind_some, fifoPush_lruPush]
      · rw [hlen]
        exact h₀.que_le
      · rw [hcard, hcard₁]
        exact h₀.ls_le

/-- Every request is taken by a branch, which finds what it pops. -/
theorem secondChanceStep_spec (hK : 2 ≤ K) (h : st.Inv K) (i : Nat) (page : Int) :
    ∃ st', secondChanceStep K i st page = some st' ∧ (branch K st page).isSome ∧
      st'.Inv K ∧ page ∈ st'.que := by
  by_cases hhit : page ∈ st.eleSet ∨ page ∈ st.pages.posMap
  · exact secondChanceStep_hit hK h hhit i
  · rw [not_or] at hhit
    exact secondChanceStep_miss hK h hhit.1 hhit.2 i

theorem secondChance_run (hK : 2 ≤ K) (h : st.Inv K) (i : Nat) (order : List Int) :
    ∃ st', forOrder (secondChanceStep K) i order st = some st' ∧ st'.Inv K := by
  induction order generalizing i st with
  | nil => exact ⟨st, rfl, h⟩
  | cons page rest ih =>
      obtain ⟨st₁, hstep, -, h₁, -⟩ := secondChanceStep_spec hK h i page
      obtain ⟨st', hrun, h'⟩ := ih h₁ (i + 1)
      refine ⟨st', ?_, h'⟩
      simp only [forOrder, hstep, Option.bind_eq_bind, Option.bind_some, hrun]

/-- After the requests of any reference string, the next one, too, is taken by
one of the branches and leaves the containers consistent, with the requested
page in the queue. -/
theorem secondChance_consistent {K : Nat} (hK : 2 ≤ K) (order : List Int) (page : Int) :
    ∃ st st' taken, forOrder (secondChanceStep K) 0 order .empty = some st ∧
      branch K st page = some taken ∧
      secondChanceStep K order.length st page = some st' ∧ st'.Consistent K ∧
        page ∈ st'.que := by
  obtain ⟨st, hrun, h⟩ := secondChance_run hK empty_inv 0 order
  obtain ⟨st', hstep, htaken, h', hpage⟩ :=
    secondChanceStep_spec hK h order.length page
  obtain ⟨taken, htaken⟩ := Option.isSome_iff_exists.mp htaken
  exact ⟨st, st', taken, hrun, htaken, hstep, h'.consistent, hpage⟩

/-- With one frame the first request takes branch `c`, which pops from a queue that
has no place. -/
theorem secondChance_one {order : List Int} (hne : order ≠ []) :
    secondChance 1 order = none := by
  obtain ⟨page, rest, rfl⟩ := List.exists_cons_of_ne_nil hne
  have hbranch : branch 1 .empty page = some .c := by
    simp [branch, SegmentedState.empty, PageList.empty]
  have hstep : secondChanceStep 1 0 .empty page = none := by
    rw [secondChanceStep, hbranch]
    rfl
  simp only [secondChance, forOrder, hstep, Option.bind_eq_bind, Option.bind_none,
    Option.map_none]

/-- None of the algorithms pops from an empty container, erases at an end or leaves
its array, if and only if there are two frames or no requests. -/
theorem replacement_defined_iff {K : Nat} (hK : 1 ≤ K) {order : List Int}
    (hnonneg : ∀ page ∈ order, 0 ≤ page) :
    ((fifo K order).isSome ∧ (lru K order).isSome ∧
      (∀ iter : Nat → List Int → List Int, (∀ i keys, (iter i keys).Perm keys) →
        (min K iter order).isSome) ∧
      (clock K order).isSome ∧ (secondChance K order).isSome) ↔ 2 ≤ K ∨ order = [] := by
  obtain ⟨_, hfifo, -⟩ := fifo_demand hK order
  obtain ⟨_, hlru, -⟩ := lru_demand hK order
  obtain ⟨_, hclock, -⟩ := clock_demand hK hnonneg
  have hmin : ∀ iter : Nat → List Int → List Int, (∀ i keys, (iter i keys).Perm keys) →
      (min K iter order).isSome := by
    intro iter hiter
    obtain ⟨_, hmin, -⟩ := min_farthest hK hiter order
    exact hmin ▸ rfl
  have hothers : (fifo K order).isSome ∧ (lru K order).isSome ∧
      (clock K order).isSome := ⟨hfifo ▸ rfl, hlru ▸ rfl, hclock ▸ rfl⟩
  constructor
  · rintro ⟨-, -, -, -, hsecond⟩
    by_contra hnot
    obtain ⟨hone, hne⟩ := not_or.mp hnot
    obtain rfl : K = 1 := by omega
    rw [secondChance_one hne] at hsecond
    exact absurd hsecond Bool.false_ne_true
  · intro hcases
    refine ⟨hothers.1, hothers.2.1, hmin, hothers.2.2, ?_⟩
    rcases hcases with htwo | rfl
    · obtain ⟨st, hrun, -⟩ := secondChance_run htwo empty_inv 0 order
      rw [secondChance, hrun]
      rfl
    · rfl

namespace SegmentedCacheWitness

/-- A page comes back from the list, when the front of the queue goes there. -/
theorem secondChance_consistent_swap :
    ∃ st st' taken, forOrder (secondChanceStep 4) 0 [1, 2, 3, 4, 5] .empty = some st ∧
      branch 4 st 2 = some taken ∧ secondChanceStep 4 5 st 2 = some st' ∧
        st'.Consistent 4 ∧ (2 : Int) ∈ st'.que :=
  secondChance_consistent (by decide) [1, 2, 3, 4, 5] 2

theorem replacement_defined_two : (secondChance 2 [3, 1, 3]).isSome :=
  ((replacement_defined_iff (K := 2) (by decide)
    (show ∀ page ∈ [3, 1, 3], (0 : Int) ≤ page by decide)).mpr
      (Or.inl (Nat.le_refl 2))).2.2.2.2

/-- One frame and one request. -/
theorem secondChance_pops_nothing : secondChance 1 [0] = none := by decide +kernel

end SegmentedCacheWitness

end PageReplacement

end PintosLabs
