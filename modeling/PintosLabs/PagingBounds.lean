/-
Where the paging simulator stays inside memory: its frames inside of the memory
that it manages, and its pointers inside of the arrays `recoder` and `recorder`.
-/
import PintosLabs.PagingPartition

namespace PintosLabs

/-! The scan of `free_mem`, however far its trailing pointer lags behind. -/

section Scan

variable (id : Int) (room : Nat) {data : Nat → AllocatedFrame}

/-- A node that the pointers come to later on is not the head of the list. -/
theorem Segment.ne_head {next : Nat → Option Nat} {p : Option Nat} {before after : List Nat}
    {a : Nat} (h : Segment next p (before ++ a :: after) none) (hbefore : before ≠ []) :
    some a ≠ p := by
  obtain ⟨b, before, rfl⟩ := List.exists_cons_of_ne_nil hbefore
  have hnot : b ∉ before ++ a :: after := (List.nodup_cons.mp h.nodup).1
  rw [h.head_eq]
  intro heq
  refine hnot (List.mem_append_right _ ?_)
  rw [← Option.some.inj heq]
  exact List.mem_cons_self

/-- To let a node point behind the next ones takes these out. -/
theorem Segment.unlink {next : Nat → Option Nat} {p q : Option Nat} {before behind after : List Nat}
    {b : Nat} (h : Segment next p (before ++ b :: behind) none) (hafter : Segment next q after none)
    (hsub : after ⊆ behind) :
    Segment (Function.update next b q) p (before ++ b :: after) none := by
  have hnodup := h.nodup
  have hbefore : b ∉ before := fun hmem =>
    (List.disjoint_of_nodup_append hnodup) hmem List.mem_cons_self
  have hbehind : b ∉ behind := (List.nodup_cons.mp hnodup.of_append_right).1
  obtain ⟨mid, hfirst, hsecond⟩ := segment_append.mp h
  refine segment_append.mpr ⟨mid, hfirst.update hbefore, hsecond.head_eq, ?_⟩
  rw [Function.update_self]
  exact hafter.update fun hmem => hbehind (hsub hmem)

/-- If there is room for them all, each frame of the process is noted; the trailing
pointer always leads to where the scan is. -/
theorem freeScan_noted {n : Nat} (st : FreeScan) {tmp : Option Nat} (lag : List Nat)
    {rest : List Nat} (hdata : st.heap.data = data) (hlag : lag ≠ [] ∨ tmp = st.head)
    (hpre : Segment st.heap.next st.pre (lag ++ rest) none)
    (htmp : Segment st.heap.next tmp rest none) (hn : rest.length < n)
    (hroom : st.recorder.length + (rest.filter fun a => isOf id (data a)).length ≤ room) :
    ∃ st', freeScan id room n st tmp = some st' := by
  induction rest generalizing n st tmp lag with
  | nil =>
      obtain ⟨n, rfl⟩ : ∃ k, n = k + 1 := ⟨n - 1, by simp at hn; omega⟩
      rw [show tmp = none from htmp]
      exact ⟨st, rfl⟩
  | cons a rest ih =>
      obtain ⟨n, rfl⟩ : ∃ k, n = k + 1 := ⟨n - 1, by simp at hn; omega⟩
      obtain ⟨rfl, hrest⟩ := htmp
      rw [List.length_cons] at hn
      have hchain := hpre
      rw [List.append_cons] at hchain
      rw [freeScan, hdata]
      by_cases hpid : (data a).pid = id
      · have hof : isOf id (data a) = true := decide_eq_true hpid
        simp only [List.filter_cons, hof, ↓reduceIte, List.length_cons] at hroom
        rw [if_pos hpid, if_pos (by omega), NodeHeap.relink]
        split
        case isTrue hhead =>
          exact ih (n := n) ⟨st.heap, st.heap.next a, st.pre, st.recorder ++ [a]⟩ _ hdata
            (Or.inr rfl) hchain hrest (by omega)
            (by rw [List.length_append, List.length_singleton]; omega)
        case isFalse hhead =>
          obtain ⟨b, lag, rfl⟩ := List.exists_cons_of_ne_nil (hlag.resolve_right hhead)
          have hunlinked := @Segment.unlink _ _ _ [] _ _ _ hpre hrest
            fun x hx => List.mem_append_right _ (List.mem_cons_of_mem a hx)
          have hb : a ≠ b := by
            rintro rfl
            exact (List.nodup_cons.mp hpre.nodup).1
              (List.mem_append_right _ List.mem_cons_self)
          rw [hpre.head_eq]
          refine ih (n := n) ⟨st.heap.setNext b (st.heap.next a), st.head, some b,
            st.recorder ++ [a]⟩ [b] hdata (Or.inl (List.cons_ne_nil _ _)) ?_ ?_ (by omega)
            (by rw [List.length_append, List.length_singleton]; omega)
          · exact hpre.head_eq ▸ hunlinked
          · rw [NodeHeap.setNext_next, Function.update_of_ne hb]
            have hafter := hunlinked.2
            rwa [Function.update_self] at hafter
      · have hof : isOf id (data a) = false := decide_eq_false hpid
        simp only [List.filter_cons, hof, Bool.false_eq_true, ↓reduceIte] at hroom
        rw [if_neg hpid, NodeHeap.trail]
        split
        case isTrue hhead =>
          obtain ⟨b, lag, rfl⟩ := List.exists_cons_of_ne_nil (hlag.resolve_right hhead)
          rw [hpre.head_eq]
          refine ih (n := n) { st with pre := st.heap.next b } (lag ++ [a]) hdata
            (Or.inl (by simp)) ?_ hrest (by omega) hroom
          rw [← List.append_cons]
          exact hpre.2
        case isFalse =>
          exact ih (n := n) st _ hdata (Or.inl (by simp)) hchain hrest (by omega) hroom

/-- Once the trailing pointer has come to a frame that stays, every further frame of
the process is taken off, and with it the frames of others that lie between. -/
theorem freeScan_live {n : Nat} (st : FreeScan) {tmp : Option Nat} (passed behind : List Nat)
    {b : Nat} {rest : List Nat} (hdata : st.heap.data = data) (hpre : st.pre = some b)
    (hlist : Segment st.heap.next st.head (passed ++ b :: (behind ++ rest)) none)
    (htmp : Segment st.heap.next tmp rest none) (hn : rest.length < n)
    (hroom : st.recorder.length + (rest.filter fun a => isOf id (data a)).length ≤ room) :
    ∃ st' kept, freeScan id room n st tmp = some st' ∧ st'.heap.data = data ∧
      st'.heap.size = st.heap.size ∧ Segment st'.heap.next st'.head kept none ∧
      kept.Sublist (passed ++ b :: (behind ++ rest.filter fun a => !isOf id (data a))) ∧
      st'.recorder = st.recorder ++ rest.filter fun a => isOf id (data a) := by
  induction rest generalizing n st tmp passed behind b with
  | nil =>
      obtain ⟨n, rfl⟩ : ∃ k, n = k + 1 := ⟨n - 1, by simp at hn; omega⟩
      rw [show tmp = none from htmp]
      exact ⟨st, _, rfl, hdata, rfl, hlist, .refl _, (List.append_nil _).symm⟩
  | cons a rest ih =>
      obtain ⟨n, rfl⟩ : ∃ k, n = k + 1 := ⟨n - 1, by simp at hn; omega⟩
      obtain ⟨rfl, hrest⟩ := htmp
      rw [List.length_cons] at hn
      have hsplit : Segment st.heap.next st.head ((passed ++ b :: behind) ++ a :: rest)
          none := by
        rwa [List.append_assoc, List.cons_append]
      have hhead := hsplit.ne_head (by simp)
      rw [freeScan, hdata, hpre]
      by_cases hpid : (data a).pid = id
      · have hof : isOf id (data a) = true := decide_eq_true hpid
        simp only [List.filter_cons, hof, ↓reduceIte, List.length_cons, Bool.not_true,
          Bool.false_eq_true] at hroom ⊢
        have hunlinked := hlist.unlink hrest fun x hx =>
          List.mem_append_right _ (List.mem_cons_of_mem a hx)
        have hab : a ≠ b := by
          rintro rfl
          exact (List.nodup_cons.mp hlist.nodup.of_append_right).1
            (List.mem_append_right _ List.mem_cons_self)
        have hafter : Segment (Function.update st.heap.next b (st.heap.next a))
            (st.heap.next a) rest none := by
          obtain ⟨mid, -, hsecond⟩ := segment_append.mp hunlinked
          have hafter := hsecond.2
          rwa [Function.update_self] at hafter
        rw [if_pos hpid, if_pos (by omega), NodeHeap.relink, if_neg hhead]
        obtain ⟨st', kept, hrun, hdata', hsize, hkept, hsub, hrecorder⟩ :=
          @ih n ⟨st.heap.setNext b (st.heap.next a), st.head, some b, st.recorder ++ [a]⟩
            (st.heap.next a) passed [] b hdata rfl hunlinked hafter (by omega)
            (by rw [List.length_append, List.length_singleton]; omega)
        refine ⟨st', kept, ?_, hdata', hsize, hkept, hsub.trans ?_, ?_⟩
        · simp only [Option.map_some, Option.bind_eq_bind, Option.bind_some,
            NodeHeap.setNext_next, Function.update_of_ne hab]
          exact hrun
        · refine List.Sublist.append_left (List.Sublist.cons_cons b ?_) passed
          exact List.sublist_append_right _ _
        · rw [hrecorder, List.append_assoc, List.singleton_append]
      · have hof : isOf id (data a) = false := decide_eq_false hpid
        simp only [List.filter_cons, hof, Bool.false_eq_true, ↓reduceIte, Bool.not_false]
          at hroom ⊢
        obtain ⟨c, behind', hc⟩ : ∃ c cs, behind ++ [a] = c :: cs :=
          List.exists_cons_of_ne_nil (by simp)
        have hlist' : Segment st.heap.next st.head ((passed ++ [b]) ++ c :: (behind' ++ rest))
            none := by
          rwa [← List.append_cons, ← List.cons_append, ← hc, List.append_assoc,
            List.singleton_append]
        have hnext : st.heap.next b = some c := by
          obtain ⟨mid, hfirst, hsecond⟩ := segment_append.mp hlist'
          exact (segment_concat.mp hfirst).2.trans hsecond.head_eq
        rw [if_neg hpid, NodeHeap.trail, if_pos hhead, Option.map_some, hnext]
        obtain ⟨st', kept, hrun, hdata', hsize, hkept, hsub, hrecorder⟩ :=
          @ih n { st with pre := some c } (st.heap.next a) (passed ++ [b]) behind' c
            hdata rfl hlist' hrest (by omega) hroom
        refine ⟨st', kept, hrun, hdata', hsize, hkept, ?_, hrecorder⟩
        rwa [← List.append_cons, ← List.cons_append, ← hc, List.append_assoc,
          List.singleton_append] at hsub

/-- The trailing pointer is still among the frames `taken` that were at the start of
the list.  It has left them before the next frame of the process, if frames enough of
others are in between. -/
theorem freeScan_lagging {n : Nat} (st : FreeScan) {tmp : Option Nat} {taken : List Nat}
    (behind : List Nat) {rest : List Nat} (hdata : st.heap.data = data) (hbehind : behind ≠ [])
    (hpre : Segment st.heap.next st.pre (taken ++ (behind ++ rest)) none)
    (hlist : Segment st.heap.next st.head (behind ++ rest) none)
    (htmp : Segment st.heap.next tmp rest none) (hn : rest.length < n)
    (hothers : taken.length ≤ (rest.takeWhile fun a => !isOf id (data a)).length ∨
      ∀ a ∈ rest, isOf id (data a) = false)
    (hroom : st.recorder.length + (rest.filter fun a => isOf id (data a)).length ≤ room) :
    ∃ st' kept, freeScan id room n st tmp = some st' ∧ st'.heap.data = data ∧
      st'.heap.size = st.heap.size ∧ Segment st'.heap.next st'.head kept none ∧
      kept.Sublist (behind ++ rest.filter fun a => !isOf id (data a)) ∧
      st'.recorder = st.recorder ++ rest.filter fun a => isOf id (data a) := by
  induction taken generalizing n st tmp behind rest with
  | nil =>
      obtain ⟨b, behind, rfl⟩ := List.exists_cons_of_ne_nil hbehind
      exact freeScan_live id room st [] behind hdata hpre.head_eq hlist htmp hn hroom
  | cons r taken ih =>
      obtain ⟨n, rfl⟩ : ∃ k, n = k + 1 := ⟨n - 1, by omega⟩
      cases rest with
      | nil =>
          rw [show tmp = none from htmp]
          exact ⟨st, _, rfl, hdata, rfl, hlist, .refl _, (List.append_nil _).symm⟩
      | cons a rest =>
          have hof : isOf id (data a) = false := by
            rcases hothers with hmore | hnone
            · rw [← Bool.not_eq_true]
              intro hof
              simp [hof] at hmore
            · exact hnone a List.mem_cons_self
          obtain ⟨rfl, hrest⟩ := htmp
          have hhead := hlist.ne_head hbehind
          simp only [List.filter_cons, hof, Bool.false_eq_true, ↓reduceIte, Bool.not_false,
            List.length_cons, List.takeWhile_cons, Nat.add_le_add_iff_right,
            List.forall_mem_cons, true_and] at hroom hothers ⊢
          rw [List.length_cons] at hn
          rw [List.append_cons behind a rest] at hpre hlist
          rw [freeScan, hdata, if_neg (of_decide_eq_false hof), NodeHeap.trail, if_pos hhead,
            hpre.head_eq, Option.map_some]
          rw [List.append_cons behind a (rest.filter _)]
          exact ih (n := n) { st with pre := st.heap.next r } (behind ++ [a]) hdata (by simp)
            hpre.2 hlist hrest (by omega) hothers hroom

/-- Frames of the process at the start of the list: the head moves behind them. -/
theorem freeScan_head {n : Nat} (st : FreeScan) {first rest : List Nat}
    (hdata : st.heap.data = data) (hfirst : ∀ a ∈ first, isOf id (data a) = true)
    (hlist : Segment st.heap.next st.head (first ++ rest) none)
    (hroom : st.recorder.length + first.length ≤ room) :
    ∃ head, Segment st.heap.next head rest none ∧
      freeScan id room (n + first.length) st st.head =
        freeScan id room n { st with head := head, recorder := st.recorder ++ first } head := by
  induction first generalizing st with
  | nil => exact ⟨st.head, hlist, by rw [List.append_nil]; rfl⟩
  | cons a first ih =>
      obtain ⟨hhead, hrest⟩ := hlist
      rw [List.forall_mem_cons] at hfirst
      rw [List.length_cons] at hroom
      obtain ⟨head, hlist, hrun⟩ := ih ⟨st.heap, st.heap.next a, st.pre, st.recorder ++ [a]⟩
        hdata hfirst.2 hrest (by rw [List.length_append, List.length_singleton]; omega)
      refine ⟨head, hlist, ?_⟩
      rw [List.length_cons, ← Nat.add_assoc, hhead, freeScan, hdata,
        if_pos (of_decide_eq_true hfirst.1), if_pos (by omega), NodeHeap.relink,
        if_pos hhead.symm]
      simp only [Option.bind_eq_bind, Option.bind_some]
      rw [hrun, List.append_assoc, List.singleton_append]

/-- No frame of the process stays on the list when it becomes free: the frames that
the process has at the start of the list are fewer than the frames of others behind
them, or it has no further ones. -/
def Unlinkable (id : Int) (items : List AllocatedFrame) : Prop :=
  (items.takeWhile (isOf id)).length <
      ((items.dropWhile (isOf id)).takeWhile fun b => !isOf id b).length ∨
    ∀ b ∈ items.dropWhile (isOf id), b.pid ≠ id

theorem freeScan_unlinkable {heap : NodeHeap AllocatedFrame} {head : Option Nat}
    {items : List AllocatedFrame} (hholds : heap.Holds head items)
    (hunlinkable : Unlinkable id items) (hroom : (items.filter (isOf id)).length ≤ room) :
    ∃ st' kept, freeScan id room (heap.size + 1) ⟨heap, head, head, []⟩ head = some st' ∧
      st'.heap.Holds st'.head kept ∧ kept.Sublist (items.filter fun b => !isOf id b) ∧
      st'.recorder.map st'.heap.data = items.filter (isOf id) := by
  obtain ⟨nodes, hlist, rfl, hsize⟩ := hholds
  have hle := hlist.length_le hsize
  rw [List.filter_map, List.filter_map]
  rw [List.filter_map, List.length_map] at hroom
  rw [Unlinkable, List.takeWhile_map, List.dropWhile_map, List.takeWhile_map,
    List.length_map, List.length_map, List.forall_mem_map] at hunlinkable
  obtain ⟨first, hfirst⟩ : ∃ l, l = nodes.takeWhile (isOf id ∘ heap.data) := ⟨_, rfl⟩
  obtain ⟨rest, hrest⟩ : ∃ l, l = nodes.dropWhile (isOf id ∘ heap.data) := ⟨_, rfl⟩
  have hall : ∀ a ∈ first, isOf id (heap.data a) = true := by
    intro a ha
    rw [hfirst] at ha
    exact List.mem_takeWhile_imp (p := isOf id ∘ heap.data) ha
  have hsplit : first ++ rest = nodes := by
    rw [hfirst, hrest, List.takeWhile_append_dropWhile]
  rw [← hfirst, ← hrest] at hunlinkable
  rw [← hsplit, List.length_append] at hle
  have hof : nodes.filter (isOf id ∘ heap.data) =
      first ++ rest.filter (isOf id ∘ heap.data) := by
    rw [← hsplit, List.filter_append,
      (List.filter_eq_self (p := isOf id ∘ heap.data)).mpr hall]
  have hothers : nodes.filter ((fun b => !isOf id b) ∘ heap.data) =
      rest.filter ((fun b => !isOf id b) ∘ heap.data) := by
    rw [← hsplit, List.filter_append, List.filter_eq_nil_iff.mpr fun a ha => by simp [hall a ha],
      List.nil_append]
  rw [hof, List.length_append] at hroom
  have hstart := hlist
  rw [← hsplit] at hstart
  obtain ⟨head₁, hlist₁, hrun₁⟩ := freeScan_head id room (n := heap.size + 1 - first.length)
    ⟨heap, head, head, []⟩ rfl hall hstart (by rw [List.length_nil]; omega)
  rw [Nat.sub_add_cancel (by omega), List.nil_append] at hrun₁
  rw [hrun₁, hof, hothers]
  obtain ⟨n, hn⟩ : ∃ n, heap.size + 1 - first.length = n + 1 :=
    ⟨heap.size - first.length, by omega⟩
  rw [hn]
  cases rest with
  | nil =>
      rw [show head₁ = none from hlist₁]
      exact ⟨_, [], rfl, ⟨[], rfl, rfl, fun _ ha => (by cases ha)⟩, .refl _,
        by rw [List.filter_nil, List.append_nil]⟩
  | cons a rest =>
      have hstay : isOf id (heap.data a) = false := by
        have hnot := List.head?_dropWhile_not (isOf id ∘ heap.data) nodes
        rw [← hrest] at hnot
        exact hnot
      obtain ⟨hhead, hafter⟩ := hlist₁
      rw [List.length_cons] at hle
      rw [hhead, freeScan, if_neg (of_decide_eq_false hstay), NodeHeap.trail,
        if_neg (not_not.mpr rfl)]
      simp only [Option.bind_eq_bind, Option.bind_some]
      have hrest' : (a :: rest).filter (isOf id ∘ heap.data) =
          rest.filter fun b => isOf id (heap.data b) := by
        simp only [List.filter_cons, Function.comp_apply, hstay, Bool.false_eq_true,
          ↓reduceIte]
        rfl
      have hothers' : (a :: rest).filter ((fun b => !isOf id b) ∘ heap.data) =
          [a] ++ rest.filter fun b => !isOf id (heap.data b) := by
        simp only [List.filter_cons, Function.comp_apply, hstay, Bool.not_false, ↓reduceIte]
        rfl
      have hwhile : (a :: rest).takeWhile ((fun b => !isOf id b) ∘ heap.data) =
          a :: rest.takeWhile fun b => !isOf id (heap.data b) := by
        simp only [List.takeWhile_cons, Function.comp_apply, hstay, Bool.not_false, ↓reduceIte]
        rfl
      rw [hwhile, List.length_cons] at hunlinkable
      rw [hrest'] at hroom ⊢
      rw [hothers']
      obtain ⟨st', kept, hrun, hdata, hsize', hkept, hsub, hrecorder⟩ :=
        @freeScan_lagging id room heap.data n ⟨heap, some a, head, first⟩ _ first [a] rest rfl
          (by simp) hstart ⟨rfl, hafter⟩ hafter (by omega)
          (hunlinkable.imp Nat.le_of_lt_succ fun hnone b hb =>
            decide_eq_false (hnone b (List.mem_cons_of_mem a hb))) hroom
      refine ⟨st', kept.map heap.data, hrun, ⟨kept, hkept, by rw [hdata], fun b hb => ?_⟩,
        hsub.map heap.data, by rw [hrecorder, hdata]⟩
      rw [hsize']
      refine hsize b ?_
      rw [← hsplit]
      exact List.mem_append_right _ (List.mem_of_mem_filter (hothers' ▸ hsub.mem hb))

end Scan

/-! What there is room for. -/

/-- Every frame on the two lists lies inside of the memory. -/
def Paging.FramesInside (w : Paging) : Prop :=
  ∃ free allocated, w.Holds free allocated ∧
    ∀ a ∈ free ++ allocated.map AllocatedFrame.startAddr,
      0 ≤ a ∧ a + (pageSize : Int) ≤ w.memSize

/-- `recoder` and `recorder` are long enough for every process that may be created or
killed. -/
structure Paging.ArraysSuffice (w : Paging) : Prop where
  recoder : ∀ size : Int, 0 < size →
    ∃ recoder, recordFree w.freeHeap (recorderSize w.memSize) (pagesFor size.toNat)
      (w.freeHeap.size + 1) [] w.freeBlockHead = some recoder
  recorder : ∀ pid, ∃ st, freeScan pid (recorderSize w.memSize) (w.allocHeap.size + 1)
    ⟨w.allocHeap, w.allocatedBlockHead, w.allocatedBlockHead, []⟩ w.allocatedBlockHead =
      some st

/-- The frames on the lists are frames of the memory, none of them twice. -/
structure Paging.Within (memSize : Nat) (w : Paging) : Prop where
  memSize_eq : w.memSize = memSize
  lists : ∃ free allocated, w.Holds free allocated ∧
    (free ++ allocated.map AllocatedFrame.startAddr).Subperm (frames memSize)

/-- A kill leaves no frame of the process on the list. -/
def PagingOp.Unlinks (w : Paging) : PagingOp → Prop
  | .create _ => True
  | .kill pid => ∀ allocated,
      w.allocHeap.Holds w.allocatedBlockHead allocated → Unlinkable pid allocated

theorem pagesFor_pos {size : Nat} (hsize : 0 < size) : 0 < pagesFor size := by
  rw [pagesFor, pageSize]
  split <;> omega

section Within

variable {memSize : Nat} {w w' : Paging} (h : w.Within memSize)
include h

theorem Paging.Within.createNewProcess {size : Int}
    (hrun : PintosLabs.createNewProcess w size = some w') : w'.Within memSize := by
  rw [PintosLabs.createNewProcess] at hrun
  split at hrun
  case isTrue => exact Option.some.inj hrun ▸ h
  case isFalse hsize =>
    obtain ⟨hmem, free, allocated, hholds, hsub⟩ := h
    rcases @allocateMem_spec { w with pid := w.pid + 1 } _ _ hholds (pagesFor size.toNat)
        (pagesFor_pos (by omega)) _ with
      ⟨w'', free', allocated', hrun', hmem', -, hholds', hmoved⟩ | ⟨hnone, -⟩
    · obtain rfl := Option.some.inj (hrun'.symm.trans hrun)
      refine ⟨hmem'.trans hmem, free', allocated', hholds', ?_⟩
      rcases hmoved with ⟨-, hfree, halloc⟩ | ⟨-, rfl, rfl⟩
      · exact (taken_addresses hfree halloc).subperm.trans hsub
      · exact hsub
    · cases hnone.symm.trans hrun

theorem Paging.Within.room (hwhole : memSize % pageSize = 0) {free : List Int}
    {allocated : List AllocatedFrame} (hholds : w.Holds free allocated) :
    free.length + allocated.length ≤ recorderSize w.memSize := by
  obtain ⟨hmem, free', allocated', hholds', hsub⟩ := h
  obtain rfl := hholds.1.unique hholds'.1
  obtain rfl := hholds.2.unique hholds'.2
  have hle := hsub.length_le
  rwa [frames_length_le hwhole, List.length_append, List.length_map, ← hmem] at hle

theorem Paging.Within.killProcess (hwhole : memSize % pageSize = 0) {pid : Int}
    (hunlinks : PagingOp.Unlinks w (.kill pid))
    (hrun : PintosLabs.killProcess w pid = some w') : w'.Within memSize := by
  obtain ⟨free, allocated, hholds, hsub⟩ := h.lists
  have hfew : (allocated.filter (isOf pid)).length ≤ recorderSize w.memSize := by
    have hle := (List.filter_sublist (p := isOf pid) (l := allocated)).length_le
    have hroom := h.room hwhole hholds
    omega
  obtain ⟨hfree, hallocated⟩ := hholds
  obtain ⟨st, kept, hscan, hkept, hothers, hrecorder⟩ :=
    freeScan_unlinkable pid (recorderSize w.memSize) hallocated
      (hunlinks allocated hallocated) hfew
  obtain ⟨w'', free', allocated', hrun', hmem', -, hholds', hpermFree, hpermAlloc⟩ :=
    killProcess_spec hfree hscan hkept hrecorder
  obtain rfl := Option.some.inj (hrun'.symm.trans hrun)
  refine ⟨hmem'.trans h.memSize_eq, free', allocated', hholds', ?_⟩
  refine (hpermFree.append (hpermAlloc.map _)).subperm.trans (.trans ?_ hsub)
  rw [List.append_assoc, ← List.map_append]
  refine ((hothers.append_left _).map _).append_left free |>.subperm.trans ?_
  exact ((List.filter_append_perm (isOf pid) allocated).map _).append_left free |>.subperm

theorem Paging.Within.pagingStep (hwhole : memSize % pageSize = 0) {op : PagingOp}
    (hunlinks : op.Unlinks w) (hrun : PintosLabs.pagingStep w op = some w') :
    w'.Within memSize := by
  cases op with
  | create size => exact h.createNewProcess hrun
  | kill pid => exact h.killProcess hwhole hunlinks hrun

theorem Paging.Within.framesInside (hwhole : memSize % pageSize = 0) : w.FramesInside := by
  obtain ⟨hmem, free, allocated, hholds, hsub⟩ := h
  refine ⟨free, allocated, hholds, fun a ha => ?_⟩
  obtain ⟨i, hi, rfl⟩ := List.mem_map.mp (hsub.subset ha)
  rw [List.mem_range, pagesFor, if_neg (not_not.mpr hwhole)] at hi
  rw [hmem]
  rw [pageSize] at hi hwhole ⊢
  omega

theorem Paging.Within.arraysSuffice (hwhole : memSize % pageSize = 0) :
    w.ArraysSuffice := by
  obtain ⟨free, allocated, hholds, -⟩ := h.lists
  have hle := h.room hwhole hholds
  obtain ⟨⟨nodes, hlist, rfl, hsize⟩, nodes', hlist', rfl, hsize'⟩ := hholds
  rw [List.length_map, List.length_map] at hle
  constructor
  · intro size hpos
    rcases recordFree_spec (recorderSize w.memSize) [] hlist
        (pagesFor_pos (by omega : 0 < size.toNat))
        (Nat.lt_succ_of_le (hlist.length_le hsize)) with hsome | ⟨-, hlt⟩
    · exact ⟨_, hsome⟩
    · rw [List.length_nil] at hlt
      omega
  · intro pid
    have hfew : (nodes'.filter fun a => isOf pid (w.allocHeap.data a)).length ≤
        recorderSize w.memSize := by
      have hsub := (List.filter_sublist (p := fun a => isOf pid (w.allocHeap.data a))
        (l := nodes')).length_le
      omega
    exact freeScan_noted pid _ ⟨w.allocHeap, w.allocatedBlockHead, w.allocatedBlockHead, []⟩ []
      rfl (Or.inr rfl) hlist' hlist' (Nat.lt_succ_of_le (hlist'.length_le hsize'))
      ((Nat.zero_add _).trans_le hfew)

end Within

/-- The last frame of a memory that is no number of whole pages sticks out of it. -/
theorem pagingBoot_outside {memSize : Nat} (hpos : 0 < memSize)
    (hpart : memSize % pageSize ≠ 0) : ¬ (pagingBoot memSize).FramesInside := by
  rintro ⟨free, allocated, hholds, hinside⟩
  obtain ⟨-, free', allocated', hholds', hperm⟩ := pagingBoot_inv hpos
  obtain rfl := hholds.1.unique hholds'.1
  obtain rfl := hholds.2.unique hholds'.2
  have hlast : ((pageSize * (memSize / pageSize) : Nat) : Int) ∈ frames memSize := by
    refine List.mem_map_of_mem (f := fun i => ((pageSize * i : Nat) : Int)) ?_
    rw [List.mem_range, pagesFor, if_pos hpart]
    exact Nat.lt_succ_self _
  obtain ⟨-, hle⟩ := hinside _ (hperm.mem_iff.mpr hlast)
  change _ ≤ (memSize : Int) at hle
  rw [pageSize] at hle hpart
  omega

/-- The simulator stays inside of its memory, in every run in which no kill leaves a
frame of its process on the list, exactly if the memory is a number of whole pages. -/
theorem paging_inside_iff {memSize : Nat} (hpos : 0 < memSize) :
    (∀ ops w, Run pagingStep (fun w op => op.Unlinks w) (pagingBoot memSize) ops w →
      w.FramesInside ∧ w.ArraysSuffice) ↔ memSize % pageSize = 0 := by
  constructor
  · intro hall
    by_contra hpart
    exact pagingBoot_outside hpos hpart (hall [] _ (Run.nil _)).1
  · intro hwhole ops w hrun
    have hboot : (pagingBoot memSize).Within memSize := by
      obtain ⟨hmem, free, allocated, hholds, hperm⟩ := pagingBoot_inv hpos
      exact ⟨hmem, free, allocated, hholds, hperm.subperm⟩
    have hwithin := hrun.invariant (fun w => w.Within memSize)
      (fun h hunlinks hstep => h.pagingStep hwhole hunlinks hstep) hboot
    exact ⟨hwithin.framesInside hwhole, hwithin.arraysSuffice hwhole⟩

namespace PagingBoundsWitness

theorem paging_inside_iff_eight :
    (∀ ops w, Run pagingStep (fun w op => op.Unlinks w) (pagingBoot 8) ops w →
      w.FramesInside ∧ w.ArraysSuffice) ↔ 8 % pageSize = 0 :=
  paging_inside_iff (by decide)

/-- Five bytes are two frames, but only one pointer fits into `recoder`. -/
theorem second_frame_overflows :
    ¬ ∀ (memSize : Nat) (ops : List PagingOp) (w : Paging), 0 < memSize →
      Run pagingStep (fun _ _ => True) (pagingBoot memSize) ops w →
      w.FramesInside ∧ w.ArraysSuffice := by
  intro hclaim
  obtain ⟨recoder, hrun⟩ :=
    (hclaim 5 [] _ (by decide) (Run.nil _)).2.recoder 8 (by decide)
  have hnone : recordFree (pagingBoot 5).freeHeap (recorderSize 5) (pagesFor 8)
      ((pagingBoot 5).freeHeap.size + 1) [] (pagingBoot 5).freeBlockHead = none := by
    decide +kernel
  cases hnone.symm.trans hrun

end PagingBoundsWitness

end PintosLabs
