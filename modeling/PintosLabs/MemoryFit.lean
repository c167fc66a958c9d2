/-
Which free block the contiguous allocator takes: each way to search goes by
the order of the list, and by the sizes of the blocks behind it.
-/
import PintosLabs.MemorySteps

namespace PintosLabs

/-- The block `b` of a list of free blocks is the one the policy stops at or
keeps. -/
def FitPolicy.Picks (size : Int) (before : List FreeBlock) (b : FreeBlock)
    (after : List FreeBlock) : FitPolicy → Prop
  | .firstFit => ∀ s ∈ before, s.size < size
  | .bestFit =>
      (∀ s ∈ before, size ≤ s.size → b.size < s.size) ∧
        ∀ s ∈ after, size ≤ s.size → b.size ≤ s.size
  | .worstFit =>
      (∀ s ∈ before, size ≤ s.size → s.size < b.size) ∧
        ∀ s ∈ after, s.size ≤ b.size

section Search

variable {h : NodeHeap FreeBlock} {head : Option Nat} {size init : Int}
  {better : Int → Int → Bool}

/-- What the search that keeps a block knows of the nodes behind it: none is
better than the best so far, which is that of the kept node, and the kept node
is better than those before it. -/
structure Kept (better : Int → Int → Bool) (h : NodeHeap FreeBlock)
    (size init : Int) (before : List Nat) (kept : Fit) (best : Int) : Prop where
  none_better : ∀ c ∈ before, better ((h.data c).size - size) best = false
  node : (kept.hasSpace = false ∧ best = init) ∨
    ∃ first a later, before = first ++ a :: later ∧ kept.tmp = some a ∧
      best = (h.data a).size - size ∧
      ∀ c ∈ first, size ≤ (h.data c).size →
        better best ((h.data c).size - size) = true

variable (hself : ∀ x, better x x = false)
  (hstay : ∀ x y best, better x best = false → better y best = true →
    better x y = false)
  (hmore : ∀ x y best, 0 ≤ x → better x best = false → better y best = true →
    better y x = true)

include hself hstay hmore in
theorem Kept.take {before : List Nat} {a : Nat} {kept : Fit} {best : Int}
    (hkept : Kept better h size init before kept best)
    (htake : better ((h.data a).size - size) best = true) {pre : Option Nat} :
    Kept better h size init (before ++ [a]) ⟨true, pre, some a, (h.data a).start⟩
      ((h.data a).size - size) := by
  refine ⟨fun c hc => ?_, Or.inr ⟨before, a, [], rfl, rfl, rfl, fun c hc hle => ?_⟩⟩
  · rcases List.mem_append.mp hc with hc | hc
    · exact hstay _ _ best (hkept.none_better c hc) htake
    · rw [List.mem_singleton.mp hc]
      exact hself _
  · exact hmore _ _ best (by omega) (hkept.none_better c hc) htake

theorem Kept.pass {before : List Nat} {a : Nat} {kept : Fit} {best : Int}
    (hkept : Kept better h size init before kept best)
    (hpass : better ((h.data a).size - size) best = false) :
    Kept better h size init (before ++ [a]) kept best := by
  refine ⟨fun c hc => ?_, hkept.node.imp_right ?_⟩
  · rcases List.mem_append.mp hc with hc | hc
    · exact hkept.none_better c hc
    · rw [List.mem_singleton.mp hc]
      exact hpass
  · rintro ⟨first, b, later, rfl, hnode⟩
    exact ⟨first, b, later ++ [a], by rw [List.append_assoc, List.cons_append],
      hnode⟩

include hself hstay hmore in
theorem keepScan_kept {n : Nat} (before : List Nat) {rest : List Nat}
    {kept fit : Fit} {best : Int} {pre tmp : Option Nat}
    (htmp : Segment h.next tmp rest none)
    (hkept : Kept better h size init before kept best)
    (hrun : keepScan better h head size n kept best pre tmp = some fit) :
    ∃ best', Kept better h size init (before ++ rest) fit best' := by
  induction rest generalizing n before kept best pre tmp with
  | nil =>
      rw [show tmp = none from htmp] at hrun
      cases n with
      | zero => cases hrun
      | succ n =>
          cases hrun
          rw [List.append_nil]
          exact ⟨best, hkept⟩
  | cons a rest ih =>
      obtain ⟨rfl, hrest⟩ := htmp
      cases n with
      | zero => cases hrun
      | succ n =>
          obtain ⟨pre', -, hrun⟩ := Option.bind_eq_some_iff.mp hrun
          rw [List.append_cons]
          by_cases htake : better ((h.data a).size - size) best = true
          · rw [if_pos htake, if_pos htake] at hrun
            exact ih _ hrest (hkept.take hself hstay hmore htake) hrun
          · rw [if_neg htake, if_neg htake] at hrun
            exact ih _ hrest (hkept.pass (Bool.eq_false_iff.mpr htake)) hrun

/-- The kept node, among the nodes of the list. -/
theorem Kept.split {nodes before after : List Nat} {a : Nat} {kept : Fit}
    {best : Int} (hkept : Kept better h size init nodes kept best)
    (hnodup : nodes.Nodup) (hspace : kept.hasSpace = true)
    (htmp : kept.tmp = some a) (hsplit : nodes = before ++ a :: after) :
    (∀ c ∈ before, size ≤ (h.data c).size →
      better ((h.data a).size - size) ((h.data c).size - size) = true) ∧
      ∀ c ∈ after, better ((h.data c).size - size) ((h.data a).size - size) =
        false := by
  rcases hkept.node with ⟨hnone, -⟩ | ⟨first, a', later, hsplit', htmp', hbest, hfirst⟩
  · rw [hspace] at hnone
    cases hnone
  have hsame : a' = a := Option.some.inj (htmp'.symm.trans htmp)
  rw [hsame] at hsplit' hbest
  have hnot : a ∉ before ∧ a ∉ after := by
    rw [hsplit] at hnodup
    exact ⟨fun hmem => List.disjoint_of_nodup_append hnodup hmem List.mem_cons_self,
      (List.nodup_cons.mp hnodup.of_append_right).1⟩
  have hfirstEq : before = first :=
    ((List.append_cons_inj_of_notMem hnot.1 hnot.2).mp
      (hsplit.symm.trans hsplit')).1
  rw [hfirstEq, ← hbest]
  refine ⟨hfirst, fun c hc => hkept.none_better c ?_⟩
  rw [hsplit]
  exact List.mem_append_right _ (List.mem_cons_of_mem a hc)

end Search

section Policies

variable {h : NodeHeap FreeBlock} {head : Option Nat} {size startAddr : Int}
  {before after : List Nat} {a : Nat} {fit : Fit}

theorem firstFit_picks (hlist : Segment h.next head (before ++ a :: after) none)
    (hsize : ∀ b ∈ before ++ a :: after, b < h.size)
    (hrun : firstFit h head size startAddr = some fit) (htmp : fit.tmp = some a) :
    ∀ c ∈ before, (h.data c).size < size := by
  obtain ⟨passed, rest, tmp, hsplit, hscan, hpassed, hend⟩ :=
    NodeHeap.scanUntil_spec (fun a => decide ((h.data a).size ≥ size)) []
      (by simp) hlist hlist (Nat.lt_succ_of_le (hlist.length_le hsize))
  rw [List.nil_append] at hsplit
  change h.scanUntil _ head (h.size + 1) head head = _ at hscan
  rw [firstFit, hscan] at hrun
  cases hrun
  rcases hend with ⟨rfl, rfl⟩ | ⟨b, tail, rfl, rfl, -⟩
  · cases htmp
  · cases htmp
    have hnodup := hlist.nodup
    have hnot := List.nodup_cons.mp hnodup.of_append_right
    have hpassedEq : before = passed :=
      ((List.append_cons_inj_of_notMem (fun hmem =>
        List.disjoint_of_nodup_append hnodup hmem List.mem_cons_self)
          hnot.1).mp hsplit).1
    intro c hc
    rw [hpassedEq] at hc
    exact Int.not_le.mp (of_decide_eq_false (hpassed c hc))

/-- A search that finds a block finds the one its policy picks. -/
theorem search_picks (policy : FitPolicy)
    (hlist : Segment h.next head (before ++ a :: after) none)
    (hsize : ∀ b ∈ before ++ a :: after, b < h.size)
    (hrun : policy.search h head size startAddr = some fit)
    (hspace : fit.hasSpace = true) (htmp : fit.tmp = some a) :
    policy.Picks size (before.map h.data) (h.data a) (after.map h.data) := by
  cases policy with
  | firstFit =>
      intro s hs
      obtain ⟨c, hc, rfl⟩ := List.mem_map.mp hs
      exact firstFit_picks hlist hsize hrun htmp c hc
  | bestFit =>
      have hstart : Kept (fun left best => decide (left < best) && decide (left ≥ 0)) h
          size intMax [] ⟨false, head, head, startAddr⟩ intMax :=
        ⟨by simp, Or.inl ⟨rfl, rfl⟩⟩
      obtain ⟨best, hkept⟩ := keepScan_kept (by simp) (by simp; omega)
        (by simp; omega) [] hlist hstart hrun
      obtain ⟨hbefore, hafter⟩ := hkept.split hlist.nodup hspace htmp rfl
      simp only [Bool.and_eq_true, Bool.and_eq_false_iff, decide_eq_true_eq,
        decide_eq_false_iff_not] at hbefore hafter
      constructor
      · intro s hs hsufficient
        obtain ⟨c, hc, rfl⟩ := List.mem_map.mp hs
        have hbetter := hbefore c hc hsufficient
        omega
      · intro s hs hsufficient
        obtain ⟨c, hc, rfl⟩ := List.mem_map.mp hs
        have hnone := hafter c hc
        omega
  | worstFit =>
      have hstart : Kept (fun left worst => decide (left > worst)) h
          size (-1) [] ⟨false, head, head, startAddr⟩ (-1) :=
        ⟨by simp, Or.inl ⟨rfl, rfl⟩⟩
      obtain ⟨worst, hkept⟩ := keepScan_kept (by simp) (by simp; omega)
        (by simp; omega) [] hlist hstart hrun
      obtain ⟨hbefore, hafter⟩ := hkept.split hlist.nodup hspace htmp rfl
      simp only [decide_eq_true_eq, decide_eq_false_iff_not] at hbefore hafter
      constructor
      · intro s hs hsufficient
        obtain ⟨c, hc, rfl⟩ := List.mem_map.mp hs
        have hbetter := hbefore c hc hsufficient
        omega
      · intro s hs
        obtain ⟨c, hc, rfl⟩ := List.mem_map.mp hs
        have hnone := hafter c hc
        omega

end Policies

namespace ContiguousMemory

/-- The two lists of the allocator. -/
def Holds (w : ContiguousMemory) (free : List FreeBlock)
    (allocated : List AllocatedBlock) : Prop :=
  w.freeHeap.Holds w.freeBlockHead free ∧
    w.allocHeap.Holds w.allocatedBlockHead allocated

/-- A request has been served: the free block `b` that the policy picks has
given its first bytes away. -/
structure Served (w w' : ContiguousMemory) (free : List FreeBlock)
    (allocated : List AllocatedBlock) (new : AllocatedBlock) (before : List FreeBlock)
    (b : FreeBlock) (after : List FreeBlock) (first rest : List AllocatedBlock) :
    Prop where
  free_eq : free = before ++ b :: after
  allocated_eq : allocated = first ++ rest
  size_le : new.size ≤ b.size
  picks : w.func.Picks new.size before b after
  holds : w'.Holds (before ++ leftOver b new.size ++ after)
    (first ++ { new with startAddr := b.start } :: rest)
  first_le : ∀ s ∈ first, s.startAddr ≤ b.start
  rest_gt : ∀ s ∈ rest.head?, b.start < s.startAddr

variable {w : ContiguousMemory} {free : List FreeBlock}
  {allocated : List AllocatedBlock}

/-- The list of the held blocks does not see the node of the new one. -/
theorem Holds.fresh (h : w.Holds free allocated) (new filled : AllocatedBlock) :
    ∃ nodes, Segment (w.allocHeap.alloc new).next w.allocatedBlockHead nodes none ∧
      nodes.map ((w.allocHeap.alloc new).setData w.allocHeap.size filled).data =
        allocated ∧ ∀ a ∈ nodes, a < w.allocHeap.size := by
  obtain ⟨-, nodes, hlist, halloc, hsize⟩ := h
  have hstay : ∀ a ∈ nodes, a ≠ w.allocHeap.size := fun a ha =>
    Nat.ne_of_lt (hsize a ha)
  refine ⟨nodes, hlist.congr fun a ha => Function.update_of_ne (hstay a ha) _ _,
    ?_, hsize⟩
  rw [← halloc]
  refine List.map_congr_left fun a ha => ?_
  rw [NodeHeap.setData_data, Function.update_of_ne (hstay a ha)]
  exact NodeHeap.alloc_data_of_lt (hsize a ha)

/-- A request of a positive size is served from the block the policy picks, or
no free block is large enough. -/
theorem Holds.allocateMem (h : w.Holds free allocated)
    (hmax : ∀ s ∈ free, s.size ≤ intMax) {new : AllocatedBlock}
    (hpos : 0 < new.size) (pid : Int) :
    ∃ w' answer, ContiguousMemory.allocateMem
        { w with pid := pid, allocHeap := w.allocHeap.alloc new }
        w.allocHeap.size = some (w', answer) ∧
      w'.pid = pid ∧ w'.memSize = w.memSize ∧
      ((answer = -1 ∧ (∀ s ∈ free, s.size < new.size) ∧
          ∃ allocHeap, w' = { w with pid := pid, allocHeap := allocHeap } ∧
            allocHeap.Holds w.allocatedBlockHead allocated) ∨
        answer = 1 ∧ ∃ before b after first rest,
          Served w w' free allocated new before b after first rest) := by
  obtain ⟨nodes, hlist, hfree, hsize⟩ := h.1
  simp only [ContiguousMemory.allocateMem]
  split
  case isTrue hnone =>
    have hnil : free = [] := by
      cases nodes with
      | nil => exact hfree.symm
      | cons a rest =>
          exact absurd (hlist.head_eq.symm.trans hnone) (Option.some_ne_none a)
    exact ⟨_, _, rfl, rfl, rfl, Or.inl ⟨rfl, by simp [hnil], _, rfl,
      h.2.alloc new⟩⟩
  case isFalse hsome =>
    have hmax' : ∀ a ∈ nodes, (w.freeHeap.data a).size ≤ intMax := by
      intro a ha
      refine hmax _ ?_
      rw [← hfree]
      exact List.mem_map_of_mem ha
    obtain ⟨fit, hfit, hcorrect⟩ := search_spec w.func new.startAddr hpos hlist
      hsize hmax'
    obtain ⟨filled, hfilled⟩ : ∃ filled : AllocatedBlock,
      filled = { new with startAddr := fit.startAddr } := ⟨_, rfl⟩
    obtain ⟨nodes', hchain, halloc, hsize'⟩ := h.fresh new filled
    simp only [NodeHeap.alloc_data_self, hfit, Option.bind_eq_bind,
      Option.bind_some, ← hfilled]
    rcases hcorrect with ⟨hspace, hsmall⟩ |
      ⟨hspace, before, a, after, rfl, hpre, htmp, hle, hstart⟩
    · simp only [hspace, Bool.false_eq_true, ↓reduceIte]
      refine ⟨_, _, rfl, rfl, rfl, Or.inl ⟨rfl, ?_, _, rfl, nodes', hchain, halloc,
        fun a ha => Nat.lt_succ_of_lt (hsize' a ha)⟩⟩
      rw [← hfree]
      intro s hs
      obtain ⟨a, ha, rfl⟩ := List.mem_map.mp hs
      exact hsmall a ha
    · obtain ⟨freeHeap, freeBlockHead, htake, hfree'⟩ := takeFrom_spec new.size
        hlist hsize
      have hat : ((w.allocHeap.alloc new).setData w.allocHeap.size filled).data
          w.allocHeap.size = filled := Function.update_self _ _ _
      obtain ⟨allocHeap, allocatedBlockHead, first, rest, hinsert, hsplit, halloc',
        hfirst, hrest⟩ := insertAllocated_spec
          (h := (w.allocHeap.alloc new).setData w.allocHeap.size filled) hchain
          (fun a ha => Nat.lt_succ_of_lt (hsize' a ha))
          (fun hmem => Nat.lt_irrefl _ (hsize' _ hmem)) (Nat.lt_succ_self _)
          (NodeHeap.alloc_next_self w.allocHeap new)
      rw [halloc] at hsplit
      rw [hat] at halloc' hfirst hrest
      rw [hfilled, hstart] at halloc' hfirst hrest
      simp only [hspace, ↓reduceIte, htmp, hpre, Option.bind_some, htake, hinsert]
      rw [List.map_append, List.map_cons] at hfree
      exact ⟨_, _, rfl, rfl, rfl, Or.inr ⟨rfl, _, _, _, first, rest, hfree.symm,
        hsplit, hle, search_picks w.func hlist hsize hfit hspace htmp,
        ⟨hfree', halloc'⟩, hfirst, hrest⟩⟩

end ContiguousMemory

end PintosLabs
