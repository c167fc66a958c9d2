/-
Every frame of the paging simulator is free or held, and never both, as long
as each killed process has its frames where `free_mem` can take them off the
list: behind a frame of another process, or all at the start.
-/
import Mathlib.Data.List.TakeWhile
import PintosLabs.PagingFrames

namespace PintosLabs

/-- The walk notes the first `cnt` nodes, or writes past its array. -/
theorem recordFree_spec {h : NodeHeap Int} (room : Nat) {cnt n : Nat} {p : Option Nat}
    {nodes : List Nat} (recoder : List Nat) (hlist : Segment h.next p nodes none)
    (hcnt : recoder.length < cnt) (hn : nodes.length < n) :
    recordFree h room cnt n recoder p = some ((recoder ++ nodes).take cnt) ∨
      recordFree h room cnt n recoder p = none ∧
        room < recoder.length + nodes.length := by
  induction nodes generalizing p recoder n with
  | nil =>
      obtain ⟨n, rfl⟩ : ∃ k, n = k + 1 := ⟨n - 1, by simp at hn; omega⟩
      rw [show p = none from hlist]
      rw [List.append_nil, List.take_of_length_le (Nat.le_of_lt hcnt)]
      exact Or.inl rfl
  | cons a rest ih =>
      obtain ⟨n, rfl⟩ : ∃ k, n = k + 1 := ⟨n - 1, by simp at hn; omega⟩
      obtain ⟨rfl, hrest⟩ := hlist
      rw [List.length_cons] at hn ⊢
      rw [recordFree]
      by_cases hroom : recoder.length < room
      · rw [if_pos hroom, List.length_append, List.length_singleton]
        by_cases hfull : recoder.length + 1 = cnt
        · rw [if_pos hfull]
          refine Or.inl (congrArg some ?_)
          have hlength : (recoder ++ [a]).length = cnt := by simpa using hfull
          rw [List.append_cons recoder a rest, ← hlength, List.take_left]
        · rw [if_neg hfull, List.append_cons recoder a rest]
          have hlength : (recoder ++ [a]).length = recoder.length + 1 := by simp
          refine (ih (n := n) (recoder ++ [a]) hrest (by omega) (by omega)).imp_right ?_
          rintro ⟨hnone, hlt⟩
          exact ⟨hnone, by omega⟩
      · rw [if_neg hroom]
        exact Or.inr ⟨rfl, by omega⟩

section Scan

variable (id : Int) (room : Nat) {data : Nat → AllocatedFrame}

/-- Whether a frame belongs to the process that is killed. -/
def isOf (id : Int) (b : AllocatedFrame) : Bool := decide (b.pid = id)

/-- Behind a frame that stays, the trailing pointer is where it should be, and
every frame of the process is taken off. -/
theorem freeScan_behind {n : Nat} (st : FreeScan) {tmp : Option Nat}
    (kept : List Nat) {rest : List Nat} (hdata : st.heap.data = data) (hkept : kept ≠ [])
    (hpre : st.pre = NodeHeap.trailing st.head kept)
    (hlist : Segment st.heap.next st.head (kept ++ rest) none)
    (htmp : Segment st.heap.next tmp rest none) (hn : rest.length < n) :
    (∃ st', freeScan id room n st tmp = some st' ∧ st'.heap.data = data ∧
      st'.heap.size = st.heap.size ∧
      Segment st'.heap.next st'.head
        (kept ++ rest.filter fun a => !isOf id (data a)) none ∧
      st'.recorder = st.recorder ++ rest.filter fun a => isOf id (data a)) ∨
    freeScan id room n st tmp = none ∧
      room < st.recorder.length + (rest.filter fun a => isOf id (data a)).length := by
  induction rest generalizing n st tmp kept with
  | nil =>
      obtain ⟨n, rfl⟩ : ∃ k, n = k + 1 := ⟨n - 1, by simp at hn; omega⟩
      rw [show tmp = none from htmp]
      exact Or.inl ⟨st, rfl, hdata, rfl, hlist, by simp⟩
  | cons a rest ih =>
      obtain ⟨n, rfl⟩ : ∃ k, n = k + 1 := ⟨n - 1, by simp at hn; omega⟩
      obtain ⟨rfl, hrest⟩ := htmp
      rw [List.length_cons] at hn
      have hnodup := hlist.nodup
      have ha_kept : a ∉ kept := fun hmem =>
        (List.disjoint_of_nodup_append hnodup) hmem List.mem_cons_self
      have hrest_kept : ∀ b ∈ rest, b ∉ kept := fun b hb hmem =>
        (List.disjoint_of_nodup_append hnodup) hmem (List.mem_cons_of_mem a hb)
      rw [freeScan, hdata]
      by_cases hpid : (data a).pid = id
      · have hof : isOf id (data a) = true := decide_eq_true hpid
        rw [if_pos hpid]
        simp only [List.filter_cons, hof, Bool.not_true, Bool.false_eq_true,
          ↓reduceIte, List.length_cons]
        by_cases hroom : st.recorder.length < room
        · rw [if_pos hroom]
          have hbefore : Segment st.heap.next st.head kept (some a) := by
            obtain ⟨mid, hfirst, hsecond⟩ := segment_append.mp hlist
            exact hsecond.head_eq ▸ hfirst
          obtain ⟨heap, head, hrelink, hseg, hdata', hsize', hnext'⟩ :=
            NodeHeap.relink_spec (st.heap.next a) hbefore hnodup.of_append_left
              (by
                intro b hb heq
                rw [Option.some.inj heq] at ha_kept
                exact ha_kept hb)
          have hrest' : Segment heap.next (heap.next a) rest none := by
            rw [hnext' a ha_kept]
            exact hrest.congr fun b hb => hnext' b (hrest_kept b hb)
          have htrailing : NodeHeap.trailing head kept =
              NodeHeap.trailing st.head kept := by
            rw [NodeHeap.trailing, NodeHeap.trailing,
              List.getLast?_eq_some_getLast hkept]
            rfl
          have hchain : Segment heap.next head (kept ++ rest) none := by
            rw [segment_append]
            exact ⟨_, hseg, hnext' a ha_kept ▸ hrest'⟩
          rw [hpre, hrelink]
          simp only [Option.bind_eq_bind, Option.bind_some]
          rcases ih (n := n) ⟨heap, head, NodeHeap.trailing st.head kept,
              st.recorder ++ [a]⟩ kept (hdata'.trans hdata) hkept htrailing.symm hchain
              hrest' (by omega) with
            ⟨st', hrun, hdata'', hsize'', hlist'', hrecorder⟩ | ⟨hnone, hlt⟩
          · refine Or.inl ⟨st', hrun, hdata'', hsize''.trans hsize', hlist'', ?_⟩
            rw [hrecorder, List.append_assoc, List.singleton_append]
          · refine Or.inr ⟨hnone, ?_⟩
            rw [List.length_append, List.length_singleton] at hlt
            omega
        · rw [if_neg hroom]
          exact Or.inr ⟨rfl, by omega⟩
      · have hof : isOf id (data a) = false := decide_eq_false hpid
        rw [if_neg hpid, hpre, NodeHeap.trail_spec hlist]
        simp only [List.filter_cons, hof, Bool.not_false, Bool.false_eq_true,
          ↓reduceIte, Option.bind_eq_bind, Option.bind_some]
        rw [List.append_cons] at hlist
        rw [List.append_cons kept a (rest.filter _)]
        exact ih (n := n) { st with pre := NodeHeap.trailing st.head (kept ++ [a]) } _ hdata
          (List.append_ne_nil_of_right_ne_nil _ (List.cons_ne_nil _ _)) rfl hlist
          hrest (by omega)

/-- Where no frame of the process is left, nothing is done, wherever the
trailing pointer lags behind. -/
theorem freeScan_without {n : Nat} (st : FreeScan) {tmp : Option Nat}
    {rest chain : List Nat} (hdata : st.heap.data = data)
    (hnone : ∀ a ∈ rest, isOf id (data a) = false)
    (hpre : Segment st.heap.next st.pre chain none)
    (hlength : rest.length ≤ chain.length)
    (htmp : Segment st.heap.next tmp rest none) (hn : rest.length < n) :
    ∃ pre, freeScan id room n st tmp = some { st with pre := pre } := by
  induction rest generalizing n st tmp chain with
  | nil =>
      obtain ⟨n, rfl⟩ : ∃ k, n = k + 1 := ⟨n - 1, by simp at hn; omega⟩
      rw [show tmp = none from htmp]
      exact ⟨st.pre, rfl⟩
  | cons a rest ih =>
      obtain ⟨n, rfl⟩ : ∃ k, n = k + 1 := ⟨n - 1, by simp at hn; omega⟩
      obtain ⟨rfl, hrest⟩ := htmp
      rw [List.length_cons] at hn hlength
      rw [List.forall_mem_cons] at hnone
      rw [freeScan, hdata, if_neg (of_decide_eq_false hnone.1), NodeHeap.trail]
      split
      case isTrue =>
        obtain ⟨b, chain, rfl⟩ := List.exists_cons_of_length_pos
          (Nat.lt_of_lt_of_le (Nat.succ_pos _) hlength)
        obtain ⟨hb, hchain⟩ := hpre
        rw [List.length_cons] at hlength
        obtain ⟨pre, hrun⟩ := @ih n { st with pre := st.heap.next b }
          (st.heap.next a) chain hdata hnone.2 hchain (by omega) hrest (by omega)
        refine ⟨pre, ?_⟩
        rw [hb]
        exact hrun
      case isFalse =>
        exact @ih n st (st.heap.next a) chain hdata hnone.2 hpre (by omega) hrest
          (by omega)

/-- Frames at the start of the list are taken off by moving its head. -/
theorem freeScan_first {n : Nat} (st : FreeScan) {first rest chain : List Nat}
    (hdata : st.heap.data = data)
    (hfirst : ∀ a ∈ first, isOf id (data a) = true)
    (hnone : ∀ a ∈ rest, isOf id (data a) = false)
    (hpre : Segment st.heap.next st.pre chain none)
    (hlength : (first ++ rest).length ≤ chain.length)
    (hlist : Segment st.heap.next st.head (first ++ rest) none)
    (hn : (first ++ rest).length < n) :
    (∃ st', freeScan id room n st st.head = some st' ∧ st'.heap = st.heap ∧
      Segment st.heap.next st'.head rest none ∧
      st'.recorder = st.recorder ++ first) ∨
    freeScan id room n st st.head = none ∧
      room < st.recorder.length + first.length := by
  induction first generalizing n st with
  | nil =>
      obtain ⟨pre, hrun⟩ :=
        freeScan_without id room st hdata hnone hpre hlength hlist hn
      exact Or.inl ⟨_, hrun, rfl, hlist, (List.append_nil _).symm⟩
  | cons a first ih =>
      obtain ⟨n, rfl⟩ : ∃ k, n = k + 1 := ⟨n - 1, by simp at hn; omega⟩
      obtain ⟨hhead, hrest⟩ := hlist
      rw [List.forall_mem_cons] at hfirst
      rw [List.cons_append, List.length_cons] at hn hlength
      rw [hhead, freeScan, hdata, if_pos (of_decide_eq_true hfirst.1)]
      by_cases hroom : st.recorder.length < room
      · rw [if_pos hroom, NodeHeap.relink, if_pos hhead.symm]
        simp only [Option.bind_eq_bind, Option.bind_some]
        rcases @ih n ⟨st.heap, st.heap.next a, st.pre, st.recorder ++ [a]⟩ hdata
          hfirst.2 hpre (by omega) hrest (by omega) with
          ⟨st', hrun, hheap, hlist', hrecorder⟩ | ⟨hstuck, hlt⟩
        · refine Or.inl ⟨st', hrun, hheap, hlist', ?_⟩
          rw [hrecorder, List.append_assoc, List.singleton_append]
        · refine Or.inr ⟨hstuck, ?_⟩
          rw [List.length_append, List.length_singleton] at hlt
          rw [List.length_cons]
          omega
      · rw [if_neg hroom]
        exact Or.inr ⟨rfl, by rw [List.length_cons]; omega⟩

/-- The frames of the process are where `free_mem` can take them off: not at
the start of the list, or nowhere but there. -/
def Removable (id : Int) (items : List AllocatedFrame) : Prop :=
  (∀ b ∈ items.head?, b.pid ≠ id) ∨
    ∀ b ∈ items.dropWhile (isOf id), b.pid ≠ id

theorem freeScan_spec {heap : NodeHeap AllocatedFrame} {head : Option Nat}
    {items : List AllocatedFrame} (hholds : heap.Holds head items)
    (hremovable : Removable id items) :
    (∃ st', freeScan id room (heap.size + 1) ⟨heap, head, head, []⟩ head =
        some st' ∧
      st'.heap.Holds st'.head (items.filter fun b => !isOf id b) ∧
      st'.recorder.map st'.heap.data = items.filter (isOf id)) ∨
    freeScan id room (heap.size + 1) ⟨heap, head, head, []⟩ head = none ∧
      room < (items.filter (isOf id)).length := by
  obtain ⟨nodes, hlist, rfl, hsize⟩ := hholds
  have hn := Nat.lt_succ_of_le (hlist.length_le hsize)
  rw [List.filter_map, List.filter_map, List.length_map]
  have hinside : ∀ l : List Nat, l.Sublist nodes → ∀ a ∈ l, a < heap.size :=
    fun l hl a ha => hsize a (hl.mem ha)
  rcases hremovable with hhead | hrest
  · cases nodes with
    | nil =>
        rw [show head = none from hlist]
        exact Or.inl ⟨_, rfl, ⟨[], rfl, rfl, by simp⟩, rfl⟩
    | cons a rest =>
        have hstay : isOf id (heap.data a) = false :=
          decide_eq_false (hhead _ rfl)
        have htrail := @NodeHeap.trail_spec _ _ _ [] _ _ hlist
        obtain ⟨rfl, hrest⟩ := hlist
        rw [List.length_cons] at hn
        rw [freeScan, if_neg (hhead _ rfl)]
        change heap.trail (some a) (some a) (some a) = _ at htrail
        simp only [htrail, Option.bind_eq_bind, Option.bind_some]
        have hbehind := freeScan_behind id room
          ⟨heap, some a, NodeHeap.trailing (some a) [a], []⟩ [a] rfl
          (List.cons_ne_nil _ _) rfl ⟨rfl, hrest⟩ hrest (Nat.lt_of_succ_lt_succ hn)
        simp only [List.filter_cons, Function.comp, hstay, Bool.not_false,
          Bool.false_eq_true, ↓reduceIte]
        rcases hbehind with
          ⟨st', hrun, hdata, hsize', hkept, hrecorder⟩ | ⟨hnone, hlt⟩
        · refine Or.inl ⟨st', hrun, ⟨_, hkept, ?_, ?_⟩, ?_⟩
          · rw [hdata]
            rfl
          · rw [hsize']
            exact hinside _ (List.filter_sublist.cons_cons a)
          · rw [hrecorder, hdata]
            rfl
        · refine Or.inr ⟨hnone, ?_⟩
          rwa [List.length_nil, Nat.zero_add] at hlt
  · rw [List.dropWhile_map] at hrest
    have hsplit := List.takeWhile_append_dropWhile
      (p := isOf id ∘ heap.data) (l := nodes)
    obtain ⟨first, hfirst⟩ : ∃ l, l = nodes.takeWhile (isOf id ∘ heap.data) :=
      ⟨_, rfl⟩
    obtain ⟨rest, hdrop⟩ : ∃ l, l = nodes.dropWhile (isOf id ∘ heap.data) :=
      ⟨_, rfl⟩
    rw [← hfirst, ← hdrop] at hsplit
    have hall : ∀ a ∈ first, isOf id (heap.data a) = true := by
      intro a ha
      rw [hfirst] at ha
      exact List.mem_takeWhile_imp (p := isOf id ∘ heap.data) ha
    have hnone : ∀ a ∈ rest, isOf id (heap.data a) = false := by
      intro a ha
      rw [hdrop] at ha
      exact decide_eq_false (hrest _ (List.mem_map_of_mem ha))
    have hof : nodes.filter (isOf id ∘ heap.data) = first := by
      rw [← hsplit, List.filter_append,
        (List.filter_eq_self (p := isOf id ∘ heap.data)).mpr hall,
        List.filter_eq_nil_iff.mpr fun a ha => by simp [hnone a ha],
        List.append_nil]
    have hothers : nodes.filter ((fun b => !isOf id b) ∘ heap.data) = rest := by
      rw [← hsplit, List.filter_append,
        List.filter_eq_nil_iff.mpr fun a ha => by simp [hall a ha],
        List.nil_append, List.filter_eq_self]
      intro a ha
      simp [hnone a ha]
    rw [hof, hothers]
    rw [← hsplit] at hlist hn hinside
    rcases freeScan_first id room ⟨heap, head, head, []⟩ rfl hall
      hnone hlist (Nat.le_refl _) hlist hn with
      ⟨st', hrun, hheap, hkept, hrecorder⟩ | ⟨hstuck, hlt⟩
    · refine Or.inl ⟨st', hrun, ⟨rest, ?_, ?_, ?_⟩, ?_⟩
      · rw [hheap]
        exact hkept
      · rw [hheap]
      · rw [hheap]
        exact hinside _ (List.sublist_append_right _ _)
      · rw [hrecorder, hheap]
        rfl
    · refine Or.inr ⟨hstuck, ?_⟩
      rwa [List.length_nil, Nat.zero_add] at hlt

end Scan

/-! Whole operations. -/

/-- The two lists of the simulator. -/
def Paging.Holds (w : Paging) (free : List Int)
    (allocated : List AllocatedFrame) : Prop :=
  w.freeHeap.Holds w.freeBlockHead free ∧
    w.allocHeap.Holds w.allocatedBlockHead allocated

/-- The start addresses of the frames of a memory. -/
def frames (memSize : Nat) : List Int :=
  (List.range (pagesFor memSize)).map fun i => ((pageSize * i : Nat) : Int)

/-- The free and the held frames are together the frames there are. -/
structure Paging.Inv (memSize : Nat) (w : Paging) : Prop where
  memSize_eq : w.memSize = memSize
  lists : ∃ free allocated, w.Holds free allocated ∧
    (free ++ allocated.map AllocatedFrame.startAddr).Perm (frames memSize)

/-- There is room for a pointer to each frame. -/
theorem frames_length_le {memSize : Nat} (hwhole : memSize % pageSize = 0) :
    (frames memSize).length = recorderSize memSize := by
  rw [frames, List.length_map, List.length_range, pagesFor,
    if_neg (not_not.mpr hwhole), recorderSize]

theorem rearrange_spec {w : Paging} {free : List Int}
    {allocated : List AllocatedFrame} (hholds : w.Holds free allocated) :
    ∃ w' free' allocated', rearrange w = some w' ∧ w'.memSize = w.memSize ∧
      w'.pid = w.pid ∧ w'.Holds free' allocated' ∧ free'.Perm free ∧
      allocated'.Perm allocated := by
  obtain ⟨freeHeap, free', hfree, hfree', -, hpermFree, -⟩ :=
    hholds.1.exchangeSort id
  obtain ⟨allocHeap, allocated', halloc, halloc', -, hpermAlloc, -⟩ :=
    hholds.2.exchangeSort AllocatedFrame.startAddr
  refine ⟨{ w with freeHeap := freeHeap, allocHeap := allocHeap }, free',
    allocated', ?_, rfl, rfl, ⟨hfree', halloc'⟩, hpermFree, hpermAlloc⟩
  simp only [rearrange, hfree, halloc, Option.bind_eq_bind, Option.bind_some]

/-- An allocation moves the first frames of the free list to the process, or
none if there are too few. -/
theorem allocateMem_spec {w : Paging} {free : List Int} {allocated : List AllocatedFrame}
    (hholds : w.Holds free allocated) {cnt : Nat} (hcnt : 0 < cnt) (ab : AllocatedFrame) :
    (∃ w' free' allocated', allocateMem w cnt ab = some w' ∧ w'.memSize = w.memSize ∧
      w'.pid = w.pid ∧ w'.Holds free' allocated' ∧
      (cnt ≤ free.length ∧ free'.Perm (free.drop cnt) ∧
          allocated'.Perm (allocated ++ (free.take cnt).map fun a =>
            { ab with startAddr := a }) ∨
        free.length < cnt ∧ free' = free ∧ allocated' = allocated)) ∨
    allocateMem w cnt ab = none ∧ recorderSize w.memSize < free.length := by
  obtain ⟨⟨nodes, hlist, rfl, hsize⟩, hallocated⟩ := hholds
  rw [List.length_map, allocateMem]
  split
  case isTrue hnone =>
    obtain rfl : [] = nodes := hlist.unique hnone
    exact Or.inl ⟨w, _, _, rfl, rfl, rfl, ⟨⟨[], hlist, rfl, hsize⟩, hallocated⟩,
      Or.inr ⟨hcnt, rfl, rfl⟩⟩
  case isFalse hsome =>
    rcases recordFree_spec (recorderSize w.memSize) [] hlist hcnt
      (Nat.lt_succ_of_le (hlist.length_le hsize)) with hrecord | ⟨hnone, hlt⟩
    · rw [List.nil_append] at hrecord
      simp only [hrecord, Option.bind_eq_bind, Option.bind_some, List.length_take]
      split
      case isFalse hfew =>
        exact Or.inl ⟨w, _, _, rfl, rfl, rfl, ⟨⟨nodes, hlist, rfl, hsize⟩, hallocated⟩,
          Or.inr ⟨by omega, rfl, rfl⟩⟩
      case isTrue hfull =>
        have hlength : (nodes.take cnt).length = cnt := by
          rw [List.length_take, hfull]
        have hadvance := hlist
        rw [← List.take_append_drop cnt nodes] at hadvance
        obtain ⟨q, hq, hrest⟩ := NodeHeap.advance_spec hadvance
        rw [hlength] at hq
        obtain ⟨allocated', hinsert, hperm'⟩ := hallocated.insertAll
          ((nodes.take cnt).map fun a =>
            { ab with startAddr := w.freeHeap.data a })
        obtain ⟨w', free'', allocated'', hrun, hmem', hpid', hholds, hfree, halloc⟩ :=
          rearrange_spec (w := { w with
            allocHeap := _, allocatedBlockHead := _, freeBlockHead := q })
            ⟨⟨nodes.drop cnt, hrest, rfl,
              fun a ha => hsize a (List.mem_of_mem_drop ha)⟩, hinsert⟩
        refine Or.inl ⟨w', free'', allocated'', ?_, hmem', hpid', hholds,
          Or.inl ⟨by omega, ?_, ?_⟩⟩
        · simp only [hq, Option.bind_some]
          exact hrun
        · rwa [← List.map_drop]
        · rw [← List.map_take, List.map_map]
          exact halloc.trans hperm'
    · refine Or.inr ⟨by simp only [hnone]; rfl, ?_⟩
      rwa [List.length_nil, Nat.zero_add] at hlt

/-- Frames that go from one list to the other stay frames of the memory. -/
theorem taken_addresses {free free' : List Int} {allocated allocated' : List AllocatedFrame}
    {cnt : Nat} {ab : AllocatedFrame} (hfree : free'.Perm (free.drop cnt))
    (halloc : allocated'.Perm (allocated ++ (free.take cnt).map fun a =>
      { ab with startAddr := a })) :
    (free' ++ allocated'.map AllocatedFrame.startAddr).Perm
      (free ++ allocated.map AllocatedFrame.startAddr) := by
  have hnew : ((free.take cnt).map fun a =>
      ({ ab with startAddr := a } : AllocatedFrame)).map AllocatedFrame.startAddr =
        free.take cnt := by
    rw [List.map_map]
    exact List.map_id _
  refine (hfree.append (halloc.map _)).trans ?_
  conv_rhs => rw [← List.take_append_drop cnt free, List.append_assoc]
  rw [List.map_append, hnew, ← List.append_assoc]
  exact List.perm_append_comm

/-- What a kill does once the frames of the process have been taken off the list:
they become free. -/
theorem killProcess_spec {w : Paging} {free : List Int} {pid : Int} {st : FreeScan}
    {kept gone : List AllocatedFrame}
    (hfree : w.freeHeap.Holds w.freeBlockHead free)
    (hscan : freeScan pid (recorderSize w.memSize) (w.allocHeap.size + 1)
      ⟨w.allocHeap, w.allocatedBlockHead, w.allocatedBlockHead, []⟩ w.allocatedBlockHead =
        some st)
    (hkept : st.heap.Holds st.head kept) (hgone : st.recorder.map st.heap.data = gone) :
    ∃ w' free' allocated', killProcess w pid = some w' ∧ w'.memSize = w.memSize ∧
      w'.pid = w.pid ∧ w'.Holds free' allocated' ∧
      free'.Perm (free ++ gone.map AllocatedFrame.startAddr) ∧ allocated'.Perm kept := by
  subst hgone
  by_cases hfound : st.recorder.length = 0
  · -- the process has no frame
    rw [List.length_eq_zero_iff.mp hfound, List.map_nil, List.map_nil, List.append_nil]
    refine ⟨{ w with allocHeap := st.heap, allocatedBlockHead := st.head }, free, kept, ?_,
      rfl, rfl, ⟨hfree, hkept⟩, .refl _, .refl _⟩
    simp only [killProcess, freeMem, hscan, hfound, ne_eq, not_true_eq_false, ↓reduceIte,
      Option.bind_eq_bind, Option.bind_some, Option.map_some]
  · obtain ⟨free', hinsert, hperm'⟩ := hfree.insertAll
      (st.recorder.map fun a => (st.heap.data a).startAddr)
    obtain ⟨w', free'', allocated'', hrun, hmem', hpid', hholds', hpermFree, hpermAlloc⟩ :=
      rearrange_spec (w := { w with
        allocHeap := st.heap, allocatedBlockHead := st.head, freeHeap := _,
        freeBlockHead := _ }) ⟨hinsert, hkept⟩
    refine ⟨w', free'', allocated'', ?_, hmem', hpid', hholds', ?_, hpermAlloc⟩
    · simp only [killProcess, freeMem, hscan, hfound, ne_eq, not_false_eq_true, ↓reduceIte,
        Option.bind_eq_bind, Option.bind_some, hrun, Option.map_some]
    · rw [List.map_map]
      exact hpermFree.trans hperm'

section Ops

variable {memSize : Nat} {w : Paging} (hinv : w.Inv memSize)
include hinv

theorem Paging.Inv.allocateMem {cnt : Nat} (hcnt : 0 < cnt)
    (ab : AllocatedFrame) :
    (∃ w', PintosLabs.allocateMem w cnt ab = some w' ∧ w'.Inv memSize) ∨
      PintosLabs.allocateMem w cnt ab = none ∧ memSize % pageSize ≠ 0 := by
  obtain ⟨hmem, free, allocated, hholds, hperm⟩ := hinv
  rcases allocateMem_spec hholds hcnt ab with
    ⟨w', free', allocated', hrun, hmem', -, hholds', hmoved⟩ | ⟨hnone, hlt⟩
  · refine Or.inl ⟨w', hrun, hmem'.trans hmem, free', allocated', hholds', ?_⟩
    rcases hmoved with ⟨-, hfree, halloc⟩ | ⟨-, rfl, rfl⟩
    · exact (taken_addresses hfree halloc).trans hperm
    · exact hperm
  · refine Or.inr ⟨hnone, fun hwhole => ?_⟩
    have hle := hperm.length_eq
    rw [frames_length_le hwhole, List.length_append, List.length_map] at hle
    rw [hmem] at hlt
    omega

/-- A kill moves the frames of the process to the free list. -/
theorem Paging.Inv.killProcess {pid : Int} {allocated : List AllocatedFrame}
    (hholds : w.allocHeap.Holds w.allocatedBlockHead allocated)
    (hremovable : Removable pid allocated) :
    (∃ w' allocated', PintosLabs.killProcess w pid = some w' ∧ w'.Inv memSize ∧
      w'.allocHeap.Holds w'.allocatedBlockHead allocated' ∧
      ∀ b ∈ allocated', b.pid ≠ pid) ∨
    PintosLabs.killProcess w pid = none ∧ memSize % pageSize ≠ 0 := by
  obtain ⟨hmem, free, allocated', ⟨hfree, hallocated⟩, hperm⟩ := hinv
  obtain rfl := hholds.unique hallocated
  have hgone : ∀ b ∈ allocated'.filter fun b => !isOf pid b, b.pid ≠ pid := by
    intro b hb
    have hnot := (List.mem_filter.mp hb).2
    rw [Bool.not_eq_true'] at hnot
    exact of_decide_eq_false hnot
  rcases freeScan_spec pid (recorderSize w.memSize) hallocated
    hremovable with ⟨st, hscan, hkept, hrecorder⟩ | ⟨hnone, hlt⟩
  · obtain ⟨w', free', allocated'', hrun, hmem', -, hholds', hpermFree, hpermAlloc⟩ :=
      killProcess_spec hfree hscan hkept hrecorder
    refine Or.inl ⟨w', allocated'', hrun,
      ⟨hmem'.trans hmem, free', allocated'', hholds', ?_⟩, hholds'.2,
      fun b hb => hgone b (hpermAlloc.mem_iff.mp hb)⟩
    refine ((hpermFree.append (hpermAlloc.map _)).trans ?_).trans hperm
    rw [List.append_assoc, ← List.map_append]
    exact ((List.filter_append_perm (isOf pid) allocated').map _).append_left _
  · refine Or.inr ⟨?_, fun hwhole => ?_⟩
    · simp only [PintosLabs.killProcess, freeMem, hnone]
      rfl
    · have hle := hperm.length_eq
      rw [frames_length_le hwhole, List.length_append, List.length_map] at hle
      have hsub := (List.filter_sublist (p := isOf pid) (l := allocated')).length_le
      rw [hmem] at hlt
      omega

/-- A new process takes frames from the free list. -/
theorem Paging.Inv.createNewProcess (size : Int) :
    (∃ w', PintosLabs.createNewProcess w size = some w' ∧ w'.Inv memSize) ∨
      PintosLabs.createNewProcess w size = none ∧ memSize % pageSize ≠ 0 := by
  rw [PintosLabs.createNewProcess]
  split
  case isTrue => exact Or.inl ⟨w, rfl, hinv⟩
  case isFalse hsize =>
    refine Paging.Inv.allocateMem (w := { w with pid := w.pid + 1 })
      ⟨hinv.memSize_eq, hinv.lists⟩ ?_ _
    rw [pagesFor, pageSize]
    split <;> omega

end Ops

/-! Runs. -/

theorem initLoop_spec (n : Nat) (h : NodeHeap Int) {tmp : Nat}
    (htmp : tmp < h.size) (hend : h.next tmp = none) :
    ∃ nodes, Segment (initLoop n h tmp).next (some tmp) (tmp :: nodes) none ∧
      (tmp :: nodes).map (initLoop n h tmp).data =
        (List.range (n + 1)).map (fun i => h.data tmp + ((pageSize * i : Nat) : Int)) ∧
      (∀ a ∈ nodes, h.size ≤ a ∧ a < (initLoop n h tmp).size) ∧
      h.size ≤ (initLoop n h tmp).size ∧
      ∀ a < h.size, (initLoop n h tmp).data a = h.data a ∧
        (a ≠ tmp → (initLoop n h tmp).next a = h.next a) := by
  induction n generalizing h tmp with
  | zero =>
      exact ⟨[], ⟨rfl, hend⟩, by simp [initLoop], by simp, Nat.le_refl _,
        fun _ _ => ⟨rfl, fun _ => rfl⟩⟩
  | succ n ih =>
      obtain ⟨h₁, hh₁⟩ : ∃ h₁, h₁ =
        (h.alloc (h.data tmp + pageSize)).setNext tmp (some h.size) := ⟨_, rfl⟩
      have hne : h.size ≠ tmp := Nat.ne_of_gt htmp
      have hsize₁ : h₁.size = h.size + 1 := by rw [hh₁]; rfl
      have hend₁ : h₁.next h.size = none := by
        rw [hh₁, NodeHeap.setNext_next, Function.update_of_ne hne,
          NodeHeap.alloc_next_self]
      have hdata₁ : h₁.data h.size = h.data tmp + pageSize := by
        rw [hh₁, NodeHeap.setNext_data, NodeHeap.alloc_data_self]
      obtain ⟨nodes, hseg, hitems, hnew, hle, hold⟩ :=
        @ih h₁ h.size (by omega) hend₁
      rw [initLoop, ← hh₁]
      have htmp₁ : h₁.data tmp = h.data tmp := by
        rw [hh₁, NodeHeap.setNext_data, NodeHeap.alloc_data_of_lt htmp]
      refine ⟨h.size :: nodes, ⟨rfl, ?_⟩, ?_, ?_, by omega, fun a ha => ⟨?_, fun hatmp => ?_⟩⟩
      · rw [(hold tmp (by omega)).2 (Ne.symm hne), hh₁, NodeHeap.setNext_next,
          Function.update_self, ← hh₁]
        exact hseg
      · rw [List.map_cons, hitems, (hold tmp (by omega)).1, htmp₁, hdata₁]
        conv_rhs => rw [List.range_succ_eq_map, List.map_cons, List.map_map]
        refine congrArg₂ _ (Int.add_zero _).symm (List.map_congr_left fun i _ => ?_)
        have hsucc : pageSize * (i + 1) = pageSize * i + pageSize := rfl
        change h.data tmp + _ + _ = h.data tmp + ((pageSize * (i + 1) : Nat) : Int)
        omega
      · intro a ha
        rcases List.mem_cons.mp ha with rfl | ha
        · omega
        · have := hnew a ha
          omega
      · rw [(hold a (by omega)).1, hh₁, NodeHeap.setNext_data,
          NodeHeap.alloc_data_of_lt ha]
      · rw [(hold a (by omega)).2 (Nat.ne_of_lt ha), hh₁, NodeHeap.setNext_next,
          Function.update_of_ne hatmp]
        exact Function.update_of_ne (Nat.ne_of_lt ha) _ _

theorem pagingBoot_inv {memSize : Nat} (hpos : 0 < memSize) :
    (pagingBoot memSize).Inv memSize := by
  obtain ⟨nodes, hseg, hitems, hnew, hle, -⟩ := initLoop_spec (pagesFor memSize - 1)
    ((NodeHeap.empty : NodeHeap Int).alloc 0) (show 0 < 1 from Nat.one_pos) rfl
  have hpages : pagesFor memSize - 1 + 1 = pagesFor memSize := by
    rw [pagesFor, pageSize]
    split <;> omega
  refine ⟨rfl, frames memSize, [], ⟨⟨0 :: nodes, hseg, ?_, ?_⟩, [], rfl, rfl, by simp⟩,
    by simp⟩
  · refine hitems.trans ?_
    rw [hpages, frames]
    refine List.map_congr_left fun i _ => ?_
    exact Int.zero_add _
  · intro a ha
    rcases List.mem_cons.mp ha with rfl | ha
    · exact Nat.lt_of_lt_of_le Nat.one_pos hle
    · exact (hnew a ha).2

/-- A kill finds the frames of the process where they can be taken off. -/
def PagingOp.Ok (w : Paging) : PagingOp → Prop
  | .create _ => True
  | .kill pid => ∀ allocated,
      w.allocHeap.Holds w.allocatedBlockHead allocated → Removable pid allocated

theorem Paging.Inv.pagingStep {memSize : Nat} {w : Paging} (hinv : w.Inv memSize)
    {op : PagingOp} (hok : op.Ok w) :
    (∃ w', PintosLabs.pagingStep w op = some w' ∧ w'.Inv memSize) ∨
      PintosLabs.pagingStep w op = none ∧ memSize % pageSize ≠ 0 := by
  cases op with
  | create size => exact hinv.createNewProcess size
  | kill pid =>
      obtain ⟨free, allocated, ⟨-, hallocated⟩, -⟩ := hinv.lists
      refine (hinv.killProcess hallocated (hok allocated hallocated)).imp_left ?_
      rintro ⟨w', allocated', hrun, hinv', -⟩
      exact ⟨w', hrun, hinv'⟩

theorem frames_nodup (memSize : Nat) : (frames memSize).Nodup := by
  refine List.nodup_range.map fun i j h => ?_
  simp only [pageSize] at h
  omega

/-- In every run in which each killed process has its frames where they can be
taken off the list: the free and the held frames are exactly the frames of
the memory, each of them once, and a further kill leaves no frame with the
process.  Where the memory is a number of whole pages, no step goes wrong. -/
theorem paging_frames_partition {memSize : Nat} (hpos : 0 < memSize)
    {ops : List PagingOp} {w : Paging}
    (hrun : Run pagingStep (fun w op => op.Ok w) (pagingBoot memSize) ops w) :
    (∃ free allocated, w.Holds free allocated ∧
      (free ++ allocated.map AllocatedFrame.startAddr).Perm (frames memSize) ∧
      (free ++ allocated.map AllocatedFrame.startAddr).Nodup) ∧
    (∀ pid w', PagingOp.Ok w (.kill pid) → pagingStep w (.kill pid) = some w' →
      ∃ allocated, w'.allocHeap.Holds w'.allocatedBlockHead allocated ∧
        ∀ b ∈ allocated, b.pid ≠ pid) ∧
    (memSize % pageSize = 0 → ∀ op : PagingOp, op.Ok w →
      ∃ w', pagingStep w op = some w') := by
  have hinv : w.Inv memSize := by
    refine hrun.invariant _ ?_ (pagingBoot_inv hpos)
    intro w w' op hinv hok hstep
    rcases hinv.pagingStep hok with ⟨w'', hrun, hinv'⟩ | ⟨hnone, -⟩
    · rw [hrun, Option.some.injEq] at hstep
      exact hstep ▸ hinv'
    · rw [hnone] at hstep
      contradiction
  obtain ⟨free, allocated, hholds, hperm⟩ := hinv.lists
  refine ⟨⟨free, allocated, hholds, hperm, hperm.nodup_iff.mpr (frames_nodup _)⟩,
    fun pid w' hok hstep => ?_, fun hwhole op hok => ?_⟩
  · rcases hinv.killProcess hholds.2 (hok allocated hholds.2) with
      ⟨w'', allocated', hkill, -, hholds', hgone⟩ | ⟨hnone, -⟩
    · rw [pagingStep, hkill, Option.some.injEq] at hstep
      exact ⟨allocated', hstep ▸ hholds', hgone⟩
    · rw [pagingStep, hnone] at hstep
      contradiction
  · rcases hinv.pagingStep hok with ⟨w', hstep, -⟩ | ⟨-, hpart⟩
    · exact ⟨w', hstep⟩
    · exact absurd hwhole hpart

namespace PagingWitness

/-- Three frames, of which two processes take one each. -/
def shared : Paging :=
  ((pagingStep (pagingBoot 12) (.create 4)).bind
    (pagingStep · (.create 4))).get (by decide +kernel)

/-- The first frame is free again, and the third process gets it and the last
one, with the frame of the second process between them. -/
def interleaved : Paging :=
  ((pagingStep shared (.kill 1)).bind
    (pagingStep · (.create 8))).get (by decide +kernel)

def killed : Paging := (pagingStep interleaved (.kill 3)).get (by decide +kernel)

theorem shared_reachable {ok : Paging → PagingOp → Prop}
    (hcreate : ∀ w size, ok w (.create size)) :
    Run pagingStep ok (pagingBoot 12) [.create 4, .create 4] shared := by
  obtain ⟨w, hfirst, hsecond⟩ :=
    Option.bind_eq_some_iff.mp (Option.some_get (by decide +kernel :
      ((pagingStep (pagingBoot 12) (.create 4)).bind
        (pagingStep · (.create 4))).isSome)).symm
  exact ((Run.nil _).snoc (hcreate _ _) hfirst).snoc (hcreate _ _) hsecond

theorem paging_frames_partition_shared :
    ∃ w', pagingStep shared (.kill 1) = some w' ∧
      ∃ allocated, w'.allocHeap.Holds w'.allocatedBlockHead allocated ∧
        ∀ b ∈ allocated, b.pid ≠ 1 := by
  have hholds : shared.allocHeap.Holds shared.allocatedBlockHead
      ([0, 1].map shared.allocHeap.data) :=
    ⟨[0, 1], by decide +kernel, rfl, by decide +kernel⟩
  have hok : PagingOp.Ok shared (.kill 1) := by
    intro allocated hallocated
    rw [hholds.unique hallocated]
    exact Or.inr (by decide +kernel)
  have hmain := paging_frames_partition (by decide)
    (shared_reachable fun _ _ => trivial)
  obtain ⟨w', hstep⟩ := hmain.2.2 rfl _ hok
  exact ⟨w', hstep, hmain.2.1 1 w' hok hstep⟩

/-- After the kill of the third process its last frame is free, and still on
the list of the held ones under its pid. -/
theorem paging_frame_free_and_allocated :
    Run pagingStep (fun _ _ => True) (pagingBoot 12)
        [.create 4, .create 4, .kill 1, .create 8, .kill 3] killed ∧
      ∃ free allocated, killed.Holds free allocated ∧ free = [0, 8] ∧
        allocated.map AllocatedFrame.startAddr = [4, 8] ∧
        allocated.map AllocatedFrame.pid = [2, 3] ∧
        ¬ (free ++ allocated.map AllocatedFrame.startAddr).Perm (frames 12) := by
  obtain ⟨w, hfirst, hsecond⟩ :=
    Option.bind_eq_some_iff.mp (Option.some_get (by decide +kernel :
      ((pagingStep shared (.kill 1)).bind
        (pagingStep · (.create 8))).isSome)).symm
  refine ⟨?_, [0, 8], [2, 3].map killed.allocHeap.data,
    ⟨⟨[4, 5], by decide +kernel, by decide +kernel, by decide +kernel⟩,
      ⟨[2, 3], by decide +kernel, rfl, by decide +kernel⟩⟩, rfl, by decide +kernel,
    by decide +kernel, by decide +kernel⟩
  exact ((((shared_reachable fun _ _ => trivial).snoc trivial hfirst).snoc trivial
    hsecond).snoc trivial (Option.some_get _).symm)

end PagingWitness

end PintosLabs
