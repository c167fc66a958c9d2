/-
What each function of the contiguous allocator does to the two lists: the
searches, the splitting of a free block, the insertion of a held one, the
joining pass, and the removal of a block.
-/
import PintosLabs.ContiguousMemory

namespace PintosLabs

section Search

variable {h : NodeHeap FreeBlock} {head : Option Nat} {nodes : List Nat}
  {size startAddr : Int}

/-- A search has found a block that is large enough, with the trailing pointer
before it, or there is none. -/
def Fit.Correct (h : NodeHeap FreeBlock) (head : Option Nat) (nodes : List Nat)
    (size : Int) (fit : Fit) : Prop :=
  (fit.hasSpace = false ∧ ∀ a ∈ nodes, (h.data a).size < size) ∨
    (fit.hasSpace = true ∧ ∃ before a after, nodes = before ++ a :: after ∧
      fit.pre = NodeHeap.trailing head before ∧ fit.tmp = some a ∧
      size ≤ (h.data a).size ∧ fit.startAddr = (h.data a).start)

theorem firstFit_spec (hlist : Segment h.next head nodes none)
    (hsize : ∀ a ∈ nodes, a < h.size) (size startAddr : Int) :
    ∃ fit, firstFit h head size startAddr = some fit ∧
      fit.Correct h head nodes size := by
  obtain ⟨passed, rest, tmp, hsplit, hrun, hpassed, hend⟩ :=
    NodeHeap.scanUntil_spec (fun a => decide ((h.data a).size ≥ size)) []
      (by simp) hlist hlist (Nat.lt_succ_of_le (hlist.length_le hsize))
  rw [List.nil_append] at hsplit
  change h.scanUntil _ head (h.size + 1) head head = _ at hrun
  refine ⟨_, by rw [firstFit, hrun]; rfl, ?_⟩
  rcases hend with ⟨rfl, rfl⟩ | ⟨a, tail, rfl, rfl, hstop⟩
  · refine Or.inl ⟨rfl, fun a ha => ?_⟩
    rw [hsplit, List.append_nil] at ha
    exact Int.not_le.mp (of_decide_eq_false (hpassed a ha))
  · exact Or.inr ⟨rfl, passed, a, tail, hsplit, rfl, rfl, of_decide_eq_true hstop, rfl⟩

/-- The search that keeps the best block so far, whatever makes a block
better, finds one whenever there is one. -/
theorem keepScan_spec {better : Int → Int → Bool} {init : Int}
    (hbetter : ∀ left best, -1 ≤ best → better left best = true → 0 ≤ left)
    (hinit : ∀ left, 0 ≤ left → left < intMax → better left init = true)
    (hpos : 0 < size) {n : Nat} (before : List Nat) {rest : List Nat} {kept : Fit}
    {best : Int} {tmp : Option Nat}
    (hlist : Segment h.next head (before ++ rest) none)
    (hmax : ∀ a ∈ rest, (h.data a).size ≤ intMax)
    (htmp : Segment h.next tmp rest none) (hn : rest.length < n)
    (hbest : -1 ≤ best)
    (hkept : (kept.hasSpace = false ∧ best = init ∧
        ∀ a ∈ before, (h.data a).size < size) ∨
      (kept.hasSpace = true ∧ kept.Correct h head (before ++ rest) size)) :
    ∃ fit, keepScan better h head size n kept best
        (NodeHeap.trailing head before) tmp = some fit ∧
      fit.Correct h head (before ++ rest) size := by
  induction rest generalizing n before kept best tmp with
  | nil =>
      obtain ⟨n, rfl⟩ : ∃ k, n = k + 1 := ⟨n - 1, by simp at hn; omega⟩
      rw [show tmp = none from htmp]
      refine ⟨kept, rfl, ?_⟩
      rcases hkept with ⟨hnone, -, hsmall⟩ | ⟨-, hcorrect⟩
      · rw [List.append_nil]
        exact Or.inl ⟨hnone, hsmall⟩
      · exact hcorrect
  | cons a rest ih =>
      obtain ⟨n, rfl⟩ : ∃ k, n = k + 1 := ⟨n - 1, by simp at hn; omega⟩
      obtain ⟨rfl, hrest⟩ := htmp
      rw [List.length_cons] at hn
      rw [List.forall_mem_cons] at hmax
      simp only [keepScan, NodeHeap.trail_spec hlist, Option.bind_eq_bind,
        Option.bind_some]
      rw [List.append_cons] at hlist
      rw [List.append_cons before a rest] at hkept ⊢
      by_cases htake : better ((h.data a).size - size) best = true
      · have hleft := hbetter _ _ hbest htake
        simp only [if_pos htake]
        refine ih _ hlist hmax.2 hrest (by omega) (by omega) (Or.inr ⟨rfl, Or.inr ⟨rfl,
          before, a, rest, by rw [← List.append_cons], rfl, rfl, by omega, rfl⟩⟩)
      · simp only [if_neg htake]
        refine ih _ hlist hmax.2 hrest (by omega) hbest (hkept.imp_left ?_)
        rintro ⟨hnone, rfl, hsmall⟩
        refine ⟨hnone, rfl, fun b hb => ?_⟩
        rcases List.mem_append.mp hb with hb | hb
        · exact hsmall b hb
        · rw [List.mem_singleton.mp hb]
          refine Int.not_le.mp fun hle => htake (hinit _ (by omega) ?_)
          have := hmax.1
          omega

theorem search_spec (policy : FitPolicy) (startAddr : Int) (hpos : 0 < size)
    (hlist : Segment h.next head nodes none) (hsize : ∀ a ∈ nodes, a < h.size)
    (hmax : ∀ a ∈ nodes, (h.data a).size ≤ intMax) :
    ∃ fit, policy.search h head size startAddr = some fit ∧
      fit.Correct h head nodes size := by
  have hn := Nat.lt_succ_of_le (hlist.length_le hsize)
  cases policy with
  | firstFit => exact firstFit_spec hlist hsize size startAddr
  | bestFit =>
      refine keepScan_spec ?_ ?_ hpos [] hlist hmax hlist hn
        (by decide) (Or.inl ⟨rfl, rfl, by simp⟩)
      · intro left best _ htake
        simp only [Bool.and_eq_true, decide_eq_true_eq] at htake
        exact htake.2
      · intro left hleft hlt
        simp [hleft, hlt]
  | worstFit =>
      refine keepScan_spec ?_ ?_ hpos [] hlist hmax hlist hn
        (by decide) (Or.inl ⟨rfl, rfl, by simp⟩)
      · intro left best hbest htake
        have := of_decide_eq_true htake
        omega
      · intro left hleft _
        exact decide_eq_true (by omega)

/-- What is left of a free block from which some bytes are taken. -/
def leftOver (b : FreeBlock) (size : Int) : List FreeBlock :=
  if b.size = size then [] else [⟨b.size - size, b.start + size⟩]

theorem takeFrom_spec (size : Int) {before after : List Nat} {a : Nat}
    (hlist : Segment h.next head (before ++ a :: after) none)
    (hsize : ∀ b ∈ before ++ a :: after, b < h.size) :
    ∃ h' head', takeFrom h head (NodeHeap.trailing head before) a size =
        some (h', head') ∧
      h'.Holds head' (before.map h.data ++ leftOver (h.data a) size ++
        after.map h.data) := by
  have hnodup := hlist.nodup
  obtain ⟨mid, hbefore, hafter⟩ := segment_append.mp hlist
  obtain ⟨rfl, hafter⟩ := hafter
  have hnot : ∀ b ∈ before, some a ≠ some b := by
    intro b hb heq
    rw [Option.some.inj heq] at hnodup
    exact (List.disjoint_of_nodup_append hnodup) hb List.mem_cons_self
  have hdisjoint : ∀ b ∈ after, b ∉ before := fun b hb hmem =>
    (List.disjoint_of_nodup_append hnodup) hmem (List.mem_cons_of_mem a hb)
  rw [takeFrom, leftOver]
  split
  case isTrue =>
    obtain ⟨h', head', hrelink, hseg, hdata, hsize', hnext⟩ :=
      NodeHeap.relink_spec (h.next a) hbefore hnodup.of_append_left hnot
    refine ⟨h', head', hrelink, before ++ after, ?_, ?_, fun b hb => ?_⟩
    · rw [segment_append]
      exact ⟨_, hseg, hafter.congr fun b hb => hnext b (hdisjoint b hb)⟩
    · rw [List.map_append, hdata, List.append_nil]
    · rw [hsize']
      refine hsize b ?_
      rcases List.mem_append.mp hb with hb | hb
      · exact List.mem_append_left _ hb
      · exact List.mem_append_right _ (List.mem_cons_of_mem _ hb)
  case isFalse =>
    obtain ⟨block, hblock⟩ : ∃ block : FreeBlock,
      block = ⟨(h.data a).size - size, (h.data a).start + size⟩ := ⟨_, rfl⟩
    rw [← hblock]
    have hold : ∀ b ∈ before ++ a :: after, (h.alloc block).next b = h.next b :=
      fun b hb => Function.update_of_ne (Nat.ne_of_lt (hsize b hb)) _ _
    obtain ⟨h', head', hrelink, hseg, hdata, hsize', hnext⟩ :=
      NodeHeap.relink_spec (h := h.alloc block) (some h.size)
        (hbefore.congr fun b hb => hold b (List.mem_append_left _ hb))
        hnodup.of_append_left hnot
    have hnew : h.size ∉ before ++ a :: after := fun hmem =>
      Nat.lt_irrefl _ (hsize _ hmem)
    have ha_before : a ∉ before := fun hmem => hnot a hmem rfl
    have ha_next : h'.next a = h.next a := by
      rw [hnext a ha_before]
      exact hold a (by simp)
    have hafter_new : ∀ b ∈ after, b < h.size := fun b hb =>
      hsize b (List.mem_append_right _ (List.mem_cons_of_mem _ hb))
    refine ⟨h'.setNext h.size (h'.next a), head', ?_, before ++ h.size :: after, ?_,
      ?_, fun b hb => ?_⟩
    · simp only [hrelink, Option.bind_eq_bind, Option.bind_some]
    · rw [segment_append]
      refine ⟨some h.size, hseg.update fun hmem =>
        hnew (List.mem_append_left _ hmem), rfl, ?_⟩
      rw [NodeHeap.setNext_next, Function.update_self, ha_next]
      refine (hafter.congr fun b hb => ?_).update fun hmem =>
        Nat.lt_irrefl _ (hafter_new _ hmem)
      rw [hnext b (hdisjoint b hb)]
      exact hold b (List.mem_append_right _ (List.mem_cons_of_mem _ hb))
    · rw [NodeHeap.setNext_data, hdata, List.map_append, List.map_cons,
        NodeHeap.alloc_data_self, List.append_assoc, List.singleton_append]
      refine congrArg₂ _ (List.map_congr_left fun b hb => ?_)
        (congrArg _ (List.map_congr_left fun b hb => ?_))
      · exact NodeHeap.alloc_data_of_lt (hsize b (List.mem_append_left _ hb))
      · exact NodeHeap.alloc_data_of_lt (hafter_new b hb)
    · rw [NodeHeap.setNext_size, hsize', NodeHeap.alloc_size]
      rcases List.mem_append.mp hb with hb | hb
      · exact Nat.lt_succ_of_lt (hsize b (List.mem_append_left _ hb))
      rcases List.mem_cons.mp hb with rfl | hb
      · exact Nat.lt_succ_self _
      · exact Nat.lt_succ_of_lt (hafter_new b hb)

end Search

section Held

variable {h : NodeHeap AllocatedBlock} {head : Option Nat} {nodes : List Nat}

/-- The new block stands behind all those that do not start after it. -/
theorem insertAllocated_spec {ab : Nat} (hlist : Segment h.next head nodes none)
    (hsize : ∀ a ∈ nodes, a < h.size) (hnot : ab ∉ nodes) (hab : ab < h.size)
    (hend : h.next ab = none) :
    ∃ h' head' before after, insertAllocated h head ab = some (h', head') ∧
      nodes.map h.data = before ++ after ∧
      h'.Holds head' (before ++ h.data ab :: after) ∧
      (∀ b ∈ before, b.startAddr ≤ (h.data ab).startAddr) ∧
      ∀ b ∈ after.head?, (h.data ab).startAddr < b.startAddr := by
  rw [insertAllocated]
  cases nodes with
  | nil =>
      rw [show head = none from hlist]
      have hself : ¬ (h.data ab).startAddr > (h.data ab).startAddr :=
        Int.lt_irrefl _
      have hscan : h.scanUntil
          (fun a => decide ((h.data a).startAddr > (h.data ab).startAddr))
          (some ab) (h.size + 1) (some ab) (some ab) = some (some ab, none) := by
        obtain ⟨m, hm⟩ : ∃ m, h.size = m + 1 := ⟨h.size - 1, by omega⟩
        rw [hm]
        simp [NodeHeap.scanUntil, hend, NodeHeap.trail]
      simp only [↓reduceIte, hscan, Option.bind_eq_bind, Option.bind_some,
        Option.map_some]
      refine ⟨_, _, [], [], rfl, rfl, ⟨[ab], ⟨rfl, Function.update_self _ _ _⟩, rfl, ?_⟩,
        by simp, by simp⟩
      intro a ha
      rw [List.mem_singleton.mp ha]
      exact hab
  | cons first others =>
      have hsome : head ≠ none := by
        rw [hlist.head_eq]
        exact Option.some_ne_none _
      obtain ⟨passed, rest, tmp, hsplit, hrun, hpassed, hfound⟩ :=
        NodeHeap.scanUntil_spec
          (fun a => decide ((h.data a).startAddr > (h.data ab).startAddr))
          [] (by simp) hlist hlist (Nat.lt_succ_of_le (hlist.length_le hsize))
      rw [List.nil_append] at hsplit
      change h.scanUntil _ head (h.size + 1) head head = _ at hrun
      have hbefore : ∀ b ∈ passed.map h.data,
          b.startAddr ≤ (h.data ab).startAddr := by
        intro b hb
        obtain ⟨a, ha, rfl⟩ := List.mem_map.mp hb
        exact Int.not_lt.mp (of_decide_eq_false (hpassed a ha))
      have hnodup := hlist.nodup
      rw [hsplit] at hlist hsize hnot hnodup
      obtain ⟨mid, hfirst, hrest⟩ := segment_append.mp hlist
      have hpassed_ab : ab ∉ passed := fun hmem => hnot (List.mem_append_left _ hmem)
      have hrest_ab : ab ∉ rest := fun hmem => hnot (List.mem_append_right _ hmem)
      have hholds : ∀ (h' : NodeHeap AllocatedBlock) (head' : Option Nat),
          h'.data = h.data → h'.size = h.size →
          Segment h'.next head' (passed ++ ab :: rest) none →
          h'.Holds head' (passed.map h.data ++ h.data ab :: rest.map h.data) := by
        intro h' head' hdata' hsize' hseg
        refine ⟨_, hseg, by rw [hdata', List.map_append, List.map_cons], ?_⟩
        intro a ha
        rw [hsize']
        rcases List.mem_append.mp ha with ha | ha
        · exact hsize a (List.mem_append_left _ ha)
        rcases List.mem_cons.mp ha with rfl | ha
        · exact hab
        · exact hsize a (List.mem_append_right _ ha)
      simp only [if_neg hsome, hrun, Option.bind_eq_bind, Option.bind_some]
      rcases hfound with ⟨rfl, rfl⟩ | ⟨a, tail, rfl, rfl, hstop⟩
      · -- every block starts before the new one: it is put at the end
        rw [List.append_nil] at hsplit
        rcases List.eq_nil_or_concat' passed with rfl | ⟨init, last, rfl⟩
        · exact absurd hsplit (List.cons_ne_nil _ _)
        have hlast : NodeHeap.trailing head (init ++ [last]) = some last := by
          rw [NodeHeap.trailing, List.getLast?_concat]
          rfl
        have hne : last ≠ ab := by
          rintro rfl
          exact hpassed_ab (by simp)
        have hlast_init : last ∉ init := by
          rw [List.append_nil] at hnodup
          exact fun hmem =>
            (List.disjoint_of_nodup_append hnodup) hmem List.mem_cons_self
        rw [hlast]
        refine ⟨_, _, (init ++ [last]).map h.data, [], rfl,
          by rw [hsplit, List.append_nil], hholds _ head rfl rfl ?_, hbefore, by simp⟩
        rw [segment_append]
        refine ⟨some ab, segment_concat.mpr ⟨?_, ?_⟩, rfl, ?_⟩
        · rw [segment_concat] at hfirst
          exact (hfirst.1.update hlast_init).update fun hmem =>
            hpassed_ab (List.mem_append_left _ hmem)
        · rw [NodeHeap.setNext_next, Function.update_of_ne hne,
            NodeHeap.setNext_next, Function.update_self]
        · rw [NodeHeap.setNext_next, Function.update_self]
          rfl
      · obtain ⟨rfl, htail⟩ := hrest
        have hdisjoint := List.disjoint_of_nodup_append hnodup
        obtain ⟨h', head', hrelink, hseg, hdata, hsize', hnext⟩ :=
          NodeHeap.relink_spec (h := h.setNext ab (some a)) (some ab)
            (hfirst.update hpassed_ab) hnodup.of_append_left (by
              intro b hb heq
              rw [Option.some.inj heq] at hdisjoint
              exact hdisjoint hb List.mem_cons_self)
        refine ⟨h', head', passed.map h.data, (a :: tail).map h.data, hrelink,
          by rw [hsplit, List.map_append], hholds _ _ hdata hsize' ?_, hbefore, ?_⟩
        · rw [segment_append]
          refine ⟨some ab, hseg, rfl, ?_⟩
          rw [hnext ab hpassed_ab, NodeHeap.setNext_next, Function.update_self]
          refine Segment.congr (fun b hb => ?_)
            (Segment.update hrest_ab ⟨rfl, htail⟩ :
              Segment (Function.update h.next ab (some a)) (some a) (a :: tail) none)
          exact hnext b fun hmem => hdisjoint hmem hb
        · intro b hb
          rw [List.map_cons, List.head?_cons, Option.mem_some_iff] at hb
          rw [← hb]
          exact of_decide_eq_true hstop

theorem findProcess_spec (id : Int) {n : Nat}
    (hlist : Segment h.next head nodes none) (hn : nodes.length < n) :
    (findProcess h id n head = some none ∧ ∀ a ∈ nodes, (h.data a).pid ≠ id) ∨
      ∃ before a after, nodes = before ++ a :: after ∧
        findProcess h id n head = some (some a) ∧ (h.data a).pid = id := by
  induction nodes generalizing head n with
  | nil =>
      obtain ⟨n, rfl⟩ : ∃ k, n = k + 1 := ⟨n - 1, by simp at hn; omega⟩
      rw [show head = none from hlist]
      exact Or.inl ⟨rfl, by simp⟩
  | cons a rest ih =>
      obtain ⟨n, rfl⟩ : ∃ k, n = k + 1 := ⟨n - 1, by simp at hn; omega⟩
      obtain ⟨rfl, hrest⟩ := hlist
      rw [findProcess]
      by_cases hpid : (h.data a).pid = id
      · exact Or.inr ⟨[], a, rest, rfl, if_pos hpid, hpid⟩
      · rw [if_neg hpid]
        rcases ih (n := n) hrest (Nat.lt_of_succ_lt_succ hn) with
          ⟨hrun, hnone⟩ | ⟨before, b, after, rfl, hrun, hfound⟩
        · exact Or.inl ⟨hrun, List.forall_mem_cons.mpr ⟨hpid, hnone⟩⟩
        · exact Or.inr ⟨a :: before, b, after, rfl, hrun, hfound⟩

theorem disposeScan_spec {fab : Nat} (pre : Nat) {n : Nat} {tmp : Option Nat}
    {before after : List Nat} (hlist : Segment h.next tmp (before ++ fab :: after) none)
    (hnot : fab ∉ before) (hn : before.length < n) :
    ∃ last init, pre :: before = init ++ [last] ∧
      disposeScan h fab n pre tmp = some last := by
  induction before generalizing pre tmp n with
  | nil =>
      obtain ⟨n, rfl⟩ : ∃ k, n = k + 1 := ⟨n - 1, by simp at hn; omega⟩
      obtain ⟨rfl, -⟩ := hlist
      exact ⟨pre, [], rfl, if_pos rfl⟩
  | cons a before ih =>
      obtain ⟨n, rfl⟩ : ∃ k, n = k + 1 := ⟨n - 1, by simp at hn; omega⟩
      obtain ⟨rfl, hrest⟩ := hlist
      rw [List.mem_cons, not_or] at hnot
      obtain ⟨last, init, hsplit, hrun⟩ :=
        @ih a n (h.next a) hrest hnot.2 (Nat.lt_of_succ_lt_succ hn)
      refine ⟨last, pre :: init, by rw [hsplit]; rfl, ?_⟩
      rw [disposeScan, if_neg (Ne.symm hnot.1)]
      exact hrun

theorem dispose_spec {before after : List Nat} {fab : Nat}
    (hlist : Segment h.next head (before ++ fab :: after) none)
    (hsize : ∀ a ∈ before ++ fab :: after, a < h.size) :
    ∃ h' head', dispose h head fab = some (h', head') ∧
      h'.Holds head' (before.map h.data ++ after.map h.data) := by
  have hnodup := hlist.nodup
  have hkept : ∀ a ∈ before ++ after, a < h.size := by
    intro a ha
    refine hsize a ?_
    rcases List.mem_append.mp ha with ha | ha
    · exact List.mem_append_left _ ha
    · exact List.mem_append_right _ (List.mem_cons_of_mem _ ha)
  have hdisjoint := List.disjoint_of_nodup_append hnodup
  cases before with
  | nil =>
      obtain ⟨rfl, hafter⟩ := hlist
      refine ⟨h, h.next fab, ?_, after, hafter, rfl, hkept⟩
      simp only [dispose, Option.bind_eq_bind, Option.bind_some, ↓reduceIte]
  | cons first before =>
      have hne : fab ≠ first := by
        rintro rfl
        exact hdisjoint List.mem_cons_self List.mem_cons_self
      have hnot : fab ∉ before := fun hmem =>
        hdisjoint (List.mem_cons_of_mem _ hmem) List.mem_cons_self
      have hlength := hlist.length_le hsize
      rw [List.length_append, List.length_cons] at hlength
      obtain ⟨rfl, hrest⟩ := id hlist
      obtain ⟨last, init, hsplit, hrun⟩ := disposeScan_spec first
        (n := h.size + 1) hrest hnot (by omega)
      refine ⟨h.setNext last (h.next fab), some first, ?_,
        first :: before ++ after, ?_, by rw [List.map_append]; rfl, hkept⟩
      · simp only [dispose, Option.bind_eq_bind, Option.bind_some, if_neg hne, hrun]
      · rw [hsplit] at hlist hnodup hdisjoint ⊢
        have hlast_init : last ∉ init := fun hmem =>
          (List.disjoint_of_nodup_append hnodup.of_append_left) hmem
            List.mem_cons_self
        obtain ⟨mid, hfirst, rfl, hafter⟩ := segment_append.mp hlist
        rw [segment_append]
        refine ⟨h.next fab, segment_concat.mpr
          ⟨(segment_concat.mp hfirst).1.update hlast_init, ?_⟩, hafter.update ?_⟩
        · exact Function.update_self _ _ _
        · exact fun hmem => hdisjoint (by simp) (List.mem_cons_of_mem _ hmem)

end Held

section Join

/-- The loop joins blocks as the pass over the list of them does. -/
theorem mergeLoop_spec {n : Nat} (h : NodeHeap FreeBlock) {p : Option Nat}
    {nodes : List Nat} (hlist : Segment h.next p nodes none)
    (hn : nodes.length < n) :
    ∃ h' nodes', mergeLoop n h p = some h' ∧ nodes'.Sublist nodes ∧
      Segment h'.next p nodes' none ∧
      nodes'.map h'.data = mergePass (nodes.map h.data) ∧ h'.size = h.size ∧
      ∀ a, a ∉ nodes → h'.data a = h.data a ∧ h'.next a = h.next a := by
  induction n generalizing h p nodes with
  | zero => omega
  | succ n ih =>
      match nodes with
      | [] =>
          rw [show p = none from hlist]
          exact ⟨h, [], rfl, List.Sublist.refl _, rfl, rfl, rfl, fun _ _ => ⟨rfl, rfl⟩⟩
      | [a] =>
          obtain ⟨rfl, hend⟩ := hlist
          have hnone : h.next a = none := hend
          refine ⟨h, [a], ?_, List.Sublist.refl _, ⟨rfl, hend⟩, rfl, rfl,
            fun _ _ => ⟨rfl, rfl⟩⟩
          simp only [mergeLoop, hnone]
      | a :: b :: rest =>
          have hnodup := List.nodup_cons.mp hlist.nodup
          obtain ⟨rfl, hb, hrest⟩ := hlist
          rw [List.length_cons, List.length_cons] at hn
          have ha_rest : a ∉ rest := fun hmem =>
            hnodup.1 (List.mem_cons_of_mem _ hmem)
          rw [List.map_cons, List.map_cons, mergePass]
          by_cases hjoin : (h.data a).start + (h.data a).size = (h.data b).start
          · obtain ⟨h₁, hh₁⟩ : ∃ h₁, h₁ = (h.setData a { h.data a with
                size := (h.data a).size + (h.data b).size }).setNext a (h.next b) :=
              ⟨_, rfl⟩
            have hnext₁ : h₁.next a = h.next b := by
              rw [hh₁]
              exact Function.update_self _ _ _
            have hdata₁ : h₁.data a = (h.data a).join (h.data b) := by
              rw [hh₁]
              exact Function.update_self _ _ _
            have hother₁ : ∀ c, c ≠ a → h₁.data c = h.data c ∧
                h₁.next c = h.next c := by
              intro c hc
              rw [hh₁]
              exact ⟨Function.update_of_ne hc _ _, Function.update_of_ne hc _ _⟩
            have hne : ∀ c ∈ rest, c ≠ a := by
              rintro c hc rfl
              exact ha_rest hc
            obtain ⟨h', nodes', hrun, hsub, hseg, hitems, hsize, hframe⟩ := ih h₁
              (hrest.congr fun c hc => (hother₁ c (hne c hc)).2) (by omega)
            refine ⟨h', a :: nodes', ?_, (hsub.cons b).cons_cons a, ⟨rfl, ?_⟩, ?_, ?_, ?_⟩
            · simp only [mergeLoop, hb, if_pos hjoin]
              rw [← hh₁, hnext₁]
              exact hrun
            · rw [(hframe a ha_rest).2, hnext₁]
              exact hseg
            · rw [if_pos (show (h.data a).stop = _ from hjoin), List.map_cons, hitems,
                (hframe a ha_rest).1, hdata₁]
              congr 2
              exact List.map_congr_left fun c hc => (hother₁ c (hne c hc)).1
            · rw [hsize, hh₁]
              rfl
            · intro c hc
              simp only [List.mem_cons, not_or] at hc
              rw [(hframe c hc.2.2).1, (hframe c hc.2.2).2]
              exact hother₁ c hc.1
          · obtain ⟨h', nodes', hrun, hsub, hseg, hitems, hsize, hframe⟩ :=
              @ih h (h.next a) (b :: rest) ⟨hb, hrest⟩ (by rw [List.length_cons]; omega)
            have ha := hframe a hnodup.1
            refine ⟨h', a :: nodes', ?_, hsub.cons_cons a, ⟨rfl, ?_⟩, ?_, hsize, ?_⟩
            · simp only [mergeLoop, hb, if_neg hjoin]
              rw [← hb]
              exact hrun
            · rw [ha.2]
              exact hseg
            · rw [if_neg (show ¬ (h.data a).stop = _ from hjoin), List.map_cons, ha.1,
                hitems, List.map_cons]
            · intro c hc
              rw [List.mem_cons, not_or] at hc
              exact hframe c hc.2

/-- Sorting and joining leaves one pass over the blocks in order. -/
theorem ContiguousMemory.rearrange_spec {h : NodeHeap FreeBlock}
    {head : Option Nat} {free : List FreeBlock} (hholds : h.Holds head free) :
    ∃ h' sorted, ContiguousMemory.rearrange h head = some h' ∧
      sorted.Perm free ∧ (sorted.Pairwise fun s t => s.start ≤ t.start) ∧
      h'.Holds head (mergePass sorted) := by
  obtain ⟨h₁, sorted, hsort, ⟨nodes, hlist, rfl, hsize⟩, hsize₁, hperm, hsorted⟩ :=
    hholds.exchangeSort Span.start
  obtain ⟨h', nodes', hrun, hsub, hseg, hitems, hsize', -⟩ :=
    mergeLoop_spec h₁ hlist (Nat.lt_succ_of_le (hlist.length_le hsize))
  refine ⟨h', _, ?_, hperm, hsorted, nodes', hseg, hitems, fun a ha => ?_⟩
  · simp only [ContiguousMemory.rearrange, hsort, Option.bind_eq_bind,
      Option.bind_some]
    exact hrun
  · rw [hsize']
    exact hsize a (hsub.mem ha)

end Join

end PintosLabs
