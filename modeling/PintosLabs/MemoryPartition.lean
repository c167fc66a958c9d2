/-
The blocks of the contiguous allocator tile its memory, in every run and under
every policy; and the free blocks stay coalesced as long as no process is
killed whose block lies between two free ones.
-/
import PintosLabs.MemoryFit

namespace PintosLabs

namespace ContiguousMemory

/-- The blocks on the lists tile the memory, each list is in order, and every
process has one block. -/
structure Layout (w : ContiguousMemory) (free : List FreeBlock)
    (allocated : List AllocatedBlock) : Prop where
  holds : w.Holds free allocated
  tiles : Tiles w.memSize (free ++ allocated.map AllocatedBlock.span)
  freeSorted : free.Pairwise fun s t => s.start ≤ t.start
  allocSorted : allocated.Pairwise fun s t => s.startAddr ≤ t.startAddr
  pidsNodup : (allocated.map AllocatedBlock.pid).Nodup
  pid_le : ∀ b ∈ allocated, b.pid ≤ w.pid
  memSize_le : w.memSize ≤ intMax

/-- Nodes outside of the list, and the counter of pids, do not matter. -/
theorem Layout.setHeld {w : ContiguousMemory} {free : List FreeBlock}
    {allocated : List AllocatedBlock} (h : w.Layout free allocated) {pid : Int}
    {allocHeap : NodeHeap AllocatedBlock} (hle : w.pid ≤ pid)
    (hheld : allocHeap.Holds w.allocatedBlockHead allocated) :
    ({ w with pid := pid, allocHeap := allocHeap } : ContiguousMemory).Layout free
      allocated :=
  ⟨⟨h.holds.1, hheld⟩, h.tiles, h.freeSorted, h.allocSorted, h.pidsNodup,
    fun b hb => Int.le_trans (h.pid_le b hb) hle, h.memSize_le⟩

theorem Layout.setFunc {w : ContiguousMemory} {free : List FreeBlock}
    {allocated : List AllocatedBlock} (h : w.Layout free allocated)
    (func : FitPolicy) :
    ({ w with func := func } : ContiguousMemory).Layout free allocated :=
  ⟨h.holds, h.tiles, h.freeSorted, h.allocSorted, h.pidsNodup, h.pid_le,
    h.memSize_le⟩

/-- Choosing an algorithm sets what `func` points to, and nothing else. -/
theorem usemyAlgo_eq (w : ContiguousMemory) (id : Int) :
    ∃ func, usemyAlgo w id = { w with func := func } := by
  rw [usemyAlgo]
  split
  · exact ⟨_, rfl⟩
  split
  · exact ⟨_, rfl⟩
  split
  · exact ⟨_, rfl⟩
  · exact ⟨w.func, rfl⟩

theorem memoryBoot_layout {memSize : Int} (hpos : 0 < memSize)
    (hmax : memSize ≤ intMax) :
    (memoryBoot memSize).Layout [⟨memSize, 0⟩] [] := by
  refine ⟨⟨⟨[0], ⟨rfl, rfl⟩, rfl, by simp [memoryBoot]⟩, [], rfl, rfl, by simp⟩,
    ⟨by simpa using hpos, fun x => ?_⟩, List.pairwise_singleton _ _,
    List.Pairwise.nil, List.nodup_nil, by simp, hmax⟩
  rw [List.map_nil, List.append_nil, cover_cons, cover_nil, Nat.zero_add]
  refine if_congr ?_ rfl rfl
  rw [Span.Has, Span.stop]
  change (0 : Int) ≤ x ∧ x < 0 + memSize ↔ 0 ≤ x ∧ x < memSize
  rw [Int.zero_add]

section Blocks

variable {free : List FreeBlock} {allocated : List AllocatedBlock} {bound : Int}

/-- The bytes taken from a free block are the new block. -/
theorem tiles_take {before after : List FreeBlock} {b : FreeBlock} {size : Int}
    {held : List Span}
    (h : Tiles bound ((before ++ b :: after) ++ held)) (hpos : 0 < size)
    (hle : size ≤ b.size) :
    Tiles bound ((before ++ leftOver b size ++ after) ++ ⟨size, b.start⟩ :: held) := by
  rw [leftOver]
  by_cases hall : b.size = size
  · have hb : b = ⟨size, b.start⟩ := by rw [← hall]
    rw [if_pos hall, List.append_nil, ← hb]
    refine h.perm ?_
    refine List.perm_middle.trans ?_
    rw [List.append_assoc before (b :: after), List.cons_append]
    exact (List.perm_middle.trans (by rw [List.append_assoc])).symm
  · rw [if_neg hall]
    obtain ⟨taken, htaken⟩ : ∃ taken : Span, taken = ⟨size, b.start⟩ := ⟨_, rfl⟩
    obtain ⟨left, hleft⟩ : ∃ left : Span,
      left = ⟨b.size - size, b.start + size⟩ := ⟨_, rfl⟩
    rw [← htaken, ← hleft]
    have hjoin : taken.join left = b := by
      rw [htaken, hleft, Span.join]
      obtain ⟨total, start⟩ := b
      simp only [Span.mk.injEq, and_true]
      omega
    have hfront : Tiles bound (taken.join left :: (before ++ (after ++ held))) := by
      rw [hjoin]
      refine h.perm ?_
      rw [List.append_assoc]
      exact List.perm_middle.symm
    have hcut := hfront.split (by rw [htaken, hleft]; rfl) (by rw [htaken]; exact hpos)
      (by
        rw [hleft]
        change 0 < b.size - size
        omega)
    refine hcut.perm ?_
    refine List.perm_middle.trans (List.Perm.cons _ ?_)
    rw [List.append_assoc, List.append_assoc, List.singleton_append]
    exact List.perm_middle

theorem sorted_take {before after : List FreeBlock} {b : FreeBlock} {size : Int}
    (hsorted : (before ++ b :: after).Pairwise fun s t => s.start ≤ t.start)
    (hordered : (before ++ b :: after).Pairwise fun s t => s.stop ≤ t.start)
    (hpos : 0 < size) (hle : size ≤ b.size) :
    (before ++ leftOver b size ++ after).Pairwise fun s t => s.start ≤ t.start := by
  rw [leftOver]
  split
  case isTrue =>
    rw [List.append_nil]
    exact hsorted.sublist ((List.sublist_cons_self b after).append_left before)
  case isFalse =>
    rw [List.append_assoc, List.singleton_append]
    rw [List.pairwise_append, List.pairwise_cons] at hsorted hordered ⊢
    refine ⟨hsorted.1, ⟨fun t ht => ?_, hsorted.2.1.2⟩, fun s hs t ht => ?_⟩
    · have hstop := hordered.2.1.1 t ht
      rw [Span.stop] at hstop
      change b.start + size ≤ t.start
      omega
    · rcases List.mem_cons.mp ht with rfl | ht
      · have hstart := hsorted.2.2 s hs b List.mem_cons_self
        change s.start ≤ b.start + size
        omega
      · exact hsorted.2.2 s hs t (List.mem_cons_of_mem _ ht)

theorem sorted_insert {before after : List AllocatedBlock} {b : AllocatedBlock}
    (hsorted : (before ++ after).Pairwise fun s t => s.startAddr ≤ t.startAddr)
    (hbefore : ∀ s ∈ before, s.startAddr ≤ b.startAddr)
    (hafter : ∀ s ∈ after.head?, b.startAddr < s.startAddr) :
    (before ++ b :: after).Pairwise fun s t => s.startAddr ≤ t.startAddr := by
  rw [List.pairwise_append] at hsorted ⊢
  rw [List.pairwise_cons]
  have hrest : ∀ t ∈ after, b.startAddr ≤ t.startAddr := by
    cases after with
    | nil => simp
    | cons first rest =>
        have hfirst := hafter first rfl
        intro t ht
        rcases List.mem_cons.mp ht with rfl | ht
        · exact Int.le_of_lt hfirst
        · exact Int.le_trans (Int.le_of_lt hfirst)
            (List.rel_of_pairwise_cons hsorted.2.1 ht)
  refine ⟨hsorted.1, ⟨hrest, hsorted.2.1⟩, fun s hs t ht => ?_⟩
  rcases List.mem_cons.mp ht with rfl | ht
  · exact hbefore s hs
  · exact hsorted.2.2 s hs t ht

end Blocks

section Steps

variable {w : ContiguousMemory} {free : List FreeBlock}
  {allocated : List AllocatedBlock}

theorem createNewProcess_eq {size : Int} (hpos : 0 < size) (hpid : w.pid < intMax) :
    ContiguousMemory.createNewProcess w size =
      (ContiguousMemory.allocateMem
        { w with
          pid := w.pid + 1
          allocHeap := w.allocHeap.alloc
            ⟨w.pid + 1, size, 0, toString (w.pid + 1)⟩ } w.allocHeap.size).map
        Prod.fst := by
  rw [ContiguousMemory.createNewProcess, if_neg (Int.not_le.mpr hpos), if_pos hpid]

theorem Layout.size_le_intMax (h : w.Layout free allocated) :
    ∀ s ∈ free, s.size ≤ intMax := by
  intro s hs
  exact Int.le_trans (h.tiles.size_le (List.mem_append_left _ hs)) h.memSize_le

/-- What has been served keeps the blocks in their places, if the process is a
new one. -/
theorem Layout.served (h : w.Layout free allocated) {w' : ContiguousMemory}
    {new : AllocatedBlock} {before after : List FreeBlock} {b : FreeBlock}
    {first rest : List AllocatedBlock} (hpos : 0 < new.size)
    (hserved : Served w w' free allocated new before b after first rest)
    (hnew : w.pid < new.pid) (hpid : w'.pid = new.pid)
    (hmem : w'.memSize = w.memSize) :
    w'.Layout (before ++ leftOver b new.size ++ after)
      (first ++ { new with startAddr := b.start } :: rest) := by
  obtain ⟨rfl, rfl, hle, -, hholds, hfirst, hrest⟩ := hserved
  have hold : ∀ s ∈ first ++ rest, s.pid < new.pid := fun s hs =>
    Int.lt_of_le_of_lt (h.pid_le s hs) hnew
  refine ⟨hholds, ?_, sorted_take h.freeSorted (h.tiles.ordered h.freeSorted) hpos hle,
    sorted_insert h.allocSorted hfirst hrest, ?_, fun s hs => ?_, hmem ▸ h.memSize_le⟩
  · rw [hmem]
    refine (tiles_take h.tiles hpos hle).perm (List.Perm.append_left _ ?_)
    rw [List.map_append, List.map_append, List.map_cons]
    exact List.perm_middle
  · rw [List.map_append, List.map_cons]
    refine List.perm_middle.nodup_iff.mpr (List.nodup_cons.mpr ⟨fun hmem => ?_, ?_⟩)
    · rw [← List.map_append] at hmem
      obtain ⟨s, hs, heq⟩ := List.mem_map.mp hmem
      exact Int.ne_of_lt (hold s hs) heq
    · rw [← List.map_append]
      exact h.pidsNodup
  · rw [hpid]
    rcases List.mem_append.mp hs with hs | hs
    · exact Int.le_of_lt (hold s (List.mem_append_left _ hs))
    rcases List.mem_cons.mp hs with rfl | hs
    · exact Int.le_refl _
    · exact Int.le_of_lt (hold s (List.mem_append_right _ hs))

/-- A process of a positive size gets the first bytes of some free block that
is large enough, or there is none. -/
theorem Layout.createNewProcess (h : w.Layout free allocated) {size : Int}
    (hpos : 0 < size) (hpid : w.pid < intMax) :
    ∃ w', ContiguousMemory.createNewProcess w size = some w' ∧
      w'.pid = w.pid + 1 ∧ w'.memSize = w.memSize ∧
      ((w'.Layout free allocated ∧ ∀ s ∈ free, s.size < size) ∨
        ∃ before b after allocated', free = before ++ b :: after ∧
          size ≤ b.size ∧
          w'.Layout (before ++ leftOver b size ++ after) allocated' ∧
          ∃ p ∈ allocated', p.pid = w.pid + 1) := by
  obtain ⟨w', answer, hrun, hpid', hmem, hanswer⟩ := h.holds.allocateMem
    h.size_le_intMax
    (show 0 < (⟨w.pid + 1, size, 0, toString (w.pid + 1)⟩ : AllocatedBlock).size
      from hpos) (w.pid + 1)
  refine ⟨w', by rw [createNewProcess_eq hpos hpid, hrun]; rfl, hpid', hmem, ?_⟩
  rcases hanswer with ⟨-, hsmall, allocHeap, rfl, hheld⟩ |
    ⟨-, before, b, after, first, rest, hserved⟩
  · exact Or.inl ⟨h.setHeld (Int.le_of_lt (Int.lt_succ _)) hheld, hsmall⟩
  · exact Or.inr ⟨before, b, after, _, hserved.free_eq, hserved.size_le,
      h.served hpos hserved (Int.lt_succ _) hpid' hmem, _,
      List.mem_append_right _ List.mem_cons_self, rfl⟩

/-- A freed block is put among the free ones, in order, and one joining pass is
made over them. -/
theorem freeMem_spec (ab : Nat) (h : w.Holds free allocated) :
    ∃ w' sorted, ContiguousMemory.freeMem w ab = some w' ∧
      w'.pid = w.pid ∧ w'.memSize = w.memSize ∧ w'.allocHeap = w.allocHeap ∧
      w'.allocatedBlockHead = w.allocatedBlockHead ∧
      sorted.Perm ((w.allocHeap.data ab).span :: free) ∧
      (sorted.Pairwise fun s t => s.start ≤ t.start) ∧
      w'.freeHeap.Holds w'.freeBlockHead (mergePass sorted) := by
  obtain ⟨hfree, nodes', hlist', -, hsize'⟩ := h
  obtain ⟨free', hinsert, hperm⟩ :=
    hfree.insertAll [(w.allocHeap.data ab).span]
  obtain ⟨nodes, hlist, hitems, hsize⟩ := hfree
  obtain ⟨passed, rest, tmp, -, hscan, -⟩ := NodeHeap.scanUntil_spec
    (fun a => decide ((w.freeHeap.data a).start >
      (w.allocHeap.data ab).startAddr)) [] (by simp) hlist hlist
    (Nat.lt_succ_of_le (hlist.length_le hsize))
  obtain ⟨passed', rest', tmp', -, hscan', -⟩ := NodeHeap.scanUntil_spec
    (fun a => decide (a = ab)) [] (by simp) hlist' hlist'
    (Nat.lt_succ_of_le (hlist'.length_le hsize'))
  change w.freeHeap.scanUntil _ _ (w.freeHeap.size + 1) w.freeBlockHead _ = _ at hscan
  change w.allocHeap.scanUntil _ _ (w.allocHeap.size + 1) w.allocatedBlockHead _ = _
    at hscan'
  have hcons : free'.Perm ((w.allocHeap.data ab).span :: free) :=
    hperm.trans (List.perm_append_singleton _ _)
  simp only [freeMem, hscan, hscan', Option.bind_eq_bind, Option.bind_some]
  split
  case isTrue hnone =>
    -- the new block is the only one
    have hnil : free = [] := by
      cases nodes with
      | nil => exact hitems.symm
      | cons a rest =>
          exact absurd (hlist.head_eq.symm.trans hnone) (Option.some_ne_none a)
    rw [hnil] at hcons
    have hone := List.perm_singleton.mp hcons
    refine ⟨_, free', rfl, rfl, rfl, rfl, rfl, hnil ▸ hcons, ?_, ?_⟩
    · rw [hone]
      exact List.pairwise_singleton _ _
    · rw [hone] at hinsert ⊢
      exact hinsert
  case isFalse =>
    obtain ⟨h', sorted, hrun, hsorted, hpairwise, hholds⟩ :=
      ContiguousMemory.rearrange_spec hinsert
    simp only [hrun, Option.bind_some]
    exact ⟨_, sorted, rfl, rfl, rfl, rfl, rfl, hsorted.trans hcons, hpairwise, hholds⟩

/-- The block of a killed process is freed, or no process has that pid. -/
theorem Layout.killProcess (h : w.Layout free allocated) (pid : Int) :
    ∃ w', ContiguousMemory.killProcess w pid = some w' ∧ w'.pid = w.pid ∧
      w'.memSize = w.memSize ∧
      ((w'.Layout free allocated ∧ ∀ b ∈ allocated, b.pid ≠ pid) ∨
        ∃ before b after sorted, allocated = before ++ b :: after ∧ b.pid = pid ∧
          sorted.Perm (b.span :: free) ∧
          (sorted.Pairwise fun s t => s.start ≤ t.start) ∧
          w'.Layout (mergePass sorted) (before ++ after)) := by
  obtain ⟨nodes, hlist, halloc, hsize⟩ := h.holds.2
  rw [ContiguousMemory.killProcess]
  rcases findProcess_spec pid hlist
    (Nat.lt_succ_of_le (hlist.length_le hsize)) with
    ⟨hfind, hnone⟩ | ⟨before, a, after, rfl, hfind, hpid⟩
  · simp only [Nat.succ_eq_add_one] at hfind
    simp only [hfind, Option.bind_eq_bind, Option.bind_some]
    refine ⟨w, rfl, rfl, rfl, Or.inl ⟨h, ?_⟩⟩
    rw [← halloc]
    intro b hb
    obtain ⟨a, ha, rfl⟩ := List.mem_map.mp hb
    exact hnone a ha
  · obtain ⟨w₁, sorted, hrun, hpid₁, hmem₁, hheap₁, hhead₁, hperm, hsorted, hfree₁⟩ :=
      freeMem_spec a h.holds
    obtain ⟨h', head', hdispose, hheld⟩ := dispose_spec hlist hsize
    simp only [Nat.succ_eq_add_one] at hfind
    simp only [hfind, hrun, hheap₁, hhead₁, hdispose, Option.bind_eq_bind,
      Option.bind_some]
    rw [List.map_append, List.map_cons] at halloc
    refine ⟨_, rfl, hpid₁, hmem₁, Or.inr ⟨_, _, _, sorted, halloc.symm, hpid, hperm,
      hsorted, ⟨⟨hfree₁, hheld⟩, ?_, mergePass_sorted hsorted, ?_, ?_, ?_, ?_⟩⟩⟩
    · refine Tiles.mergePass ?_
      change Tiles w₁.memSize _
      rw [hmem₁]
      refine h.tiles.perm ((hperm.append_right _).trans ?_)
      rw [← halloc, List.map_append, List.map_append, List.map_cons,
        List.cons_append, ← List.append_assoc, ← List.append_assoc]
      exact List.perm_middle.symm
    · have hpairwise := h.allocSorted
      rw [← halloc] at hpairwise
      exact hpairwise.sublist ((List.sublist_cons_self _ _).append_left _)
    · have hpids := h.pidsNodup
      rw [← halloc] at hpids
      exact hpids.sublist (((List.sublist_cons_self _ _).append_left _).map _)
    · intro b hb
      change b.pid ≤ w₁.pid
      rw [hpid₁]
      refine h.pid_le b ?_
      rw [← halloc]
      exact ((List.sublist_cons_self _ _).append_left _).mem hb
    · change w₁.memSize ≤ intMax
      rw [hmem₁]
      exact h.memSize_le

/-- Whatever is done next, the blocks tile the memory again; only a counter of
pids at its end stops a process from being created. -/
theorem Layout.memoryStep (h : w.Layout free allocated) (op : MemoryOp) :
    (∃ w' free' allocated', PintosLabs.memoryStep w op = some w' ∧
      w'.memSize = w.memSize ∧ w'.Layout free' allocated') ∨
    PintosLabs.memoryStep w op = none ∧ ¬ w.pid < intMax := by
  cases op with
  | create size =>
      by_cases hpos : 0 < size
      · by_cases hpid : w.pid < intMax
        · obtain ⟨w', hrun, -, hmem, ⟨hlayout, -⟩ |
            ⟨before, b, after, allocated', -, -, hlayout, -⟩⟩ :=
            h.createNewProcess hpos hpid
          · exact Or.inl ⟨w', _, _, hrun, hmem, hlayout⟩
          · exact Or.inl ⟨w', _, _, hrun, hmem, hlayout⟩
        · refine Or.inr ⟨?_, hpid⟩
          rw [PintosLabs.memoryStep, ContiguousMemory.createNewProcess,
            if_neg (Int.not_le.mpr hpos), if_neg hpid]
      · refine Or.inl ⟨w, free, allocated, ?_, rfl, h⟩
        rw [PintosLabs.memoryStep, ContiguousMemory.createNewProcess,
          if_pos (Int.not_lt.mp hpos)]
  | kill pid =>
      obtain ⟨w', hrun, -, hmem, ⟨hlayout, -⟩ |
        ⟨before, b, after, sorted, -, -, -, -, hlayout⟩⟩ := h.killProcess pid
      · exact Or.inl ⟨w', _, _, hrun, hmem, hlayout⟩
      · exact Or.inl ⟨w', _, _, hrun, hmem, hlayout⟩
  | useAlgo id =>
      obtain ⟨func, hfunc⟩ := usemyAlgo_eq w id
      exact Or.inl ⟨_, free, allocated, congrArg some hfunc, rfl, h.setFunc func⟩

end Steps

/-- In every run, under every policy, the blocks tile the memory. -/
theorem layout_of_run {memSize : Int} (hpos : 0 < memSize)
    (hmax : memSize ≤ intMax) {ok : ContiguousMemory → MemoryOp → Prop}
    {ops : List MemoryOp} {w : ContiguousMemory}
    (hrun : Run PintosLabs.memoryStep ok (memoryBoot memSize) ops w) :
    w.memSize = memSize ∧ ∃ free allocated, w.Layout free allocated := by
  refine hrun.invariant (fun w => w.memSize = memSize ∧
    ∃ free allocated, w.Layout free allocated) ?_
    ⟨rfl, _, _, memoryBoot_layout hpos hmax⟩
  rintro w w' op ⟨hmem, free, allocated, hlayout⟩ - hstep
  rcases hlayout.memoryStep op with
    ⟨w'', free', allocated', hrun, hmem', hlayout'⟩ | ⟨hnone, -⟩
  · rw [hrun, Option.some.injEq] at hstep
    subst hstep
    exact ⟨hmem'.trans hmem, free', allocated', hlayout'⟩
  · rw [hnone] at hstep
    contradiction

/-- A kill finds the block of the process without a free block on one of its
sides. -/
def KillOk (w : ContiguousMemory) (pid : Int) : Prop :=
  ∀ free allocated, w.Holds free allocated → ∀ b ∈ allocated, b.pid = pid →
    (∀ s ∈ free, s.stop ≠ b.span.start) ∨ ∀ s ∈ free, b.span.stop ≠ s.start

end ContiguousMemory

open ContiguousMemory

def MemoryOp.Ok (w : ContiguousMemory) : MemoryOp → Prop
  | .kill pid => w.KillOk pid
  | _ => True

/-- In every state the allocator can reach, for every memory size and under
every policy: the free and the held blocks are non-empty, disjoint and cover
exactly the memory, both lists are in order, and each process has at most one
block. -/
theorem memory_partitioned {memSize : Int} (hpos : 0 < memSize)
    (hmax : memSize ≤ intMax) {ops : List MemoryOp} {w : ContiguousMemory}
    (hrun : Run memoryStep (fun _ _ => True) (memoryBoot memSize) ops w) :
    ∃ free allocated, w.Holds free allocated ∧
      (∀ s ∈ free ++ allocated.map AllocatedBlock.span, 0 < s.size) ∧
      (free ++ allocated.map AllocatedBlock.span).Pairwise Span.Disjoint ∧
      (∀ x, (∃ s ∈ free ++ allocated.map AllocatedBlock.span, s.Has x) ↔
        0 ≤ x ∧ x < memSize) ∧
      (free.Pairwise fun s t => s.start ≤ t.start) ∧
      (allocated.Pairwise fun s t => s.startAddr ≤ t.startAddr) ∧
      (allocated.map AllocatedBlock.pid).Nodup ∧
      (w.pid < intMax → ∀ op, ∃ w', memoryStep w op = some w') := by
  obtain ⟨hmem, free, allocated, h⟩ := layout_of_run hpos hmax hrun
  refine ⟨free, allocated, h.holds, h.tiles.nonempty, h.tiles.pairwise_disjoint,
    fun x => ?_, h.freeSorted, h.allocSorted, h.pidsNodup, fun hpid op => ?_⟩
  · rw [h.tiles.has_iff, hmem]
  · rcases h.memoryStep op with ⟨w', -, -, hstep, -⟩ | ⟨-, hend⟩
    · exact ⟨w', hstep⟩
    · exact absurd hpid hend

/-- The pass after a kill joins the freed block to its neighbours, if it has a
free one on one side only. -/
theorem Coalesced.freed {bound : Int} {free sorted held held' : List Span} {s : Span}
    (htiles : Tiles bound (free ++ held)) (hcoalesced : Coalesced free)
    (hsorted : sorted.Pairwise fun s t => s.start ≤ t.start)
    (hperm : sorted.Perm (s :: free)) (htiles' : Tiles bound (sorted ++ held'))
    (hone : (∀ t ∈ free, t.stop ≠ s.start) ∨ ∀ t ∈ free, s.stop ≠ t.start) :
    Coalesced (mergePass sorted) := by
  obtain ⟨before, after, rfl⟩ :=
    List.append_of_mem (hperm.mem_iff.mpr List.mem_cons_self)
  have hrest : (before ++ after).Perm free :=
    (List.perm_cons s).mp (List.perm_middle.symm.trans hperm)
  have hpos : ∀ t ∈ before ++ s :: after, 0 < t.size := fun t ht =>
    htiles'.nonempty t (List.mem_append_left _ ht)
  have hothers : Coalesced (before ++ after) := fun t ht u hu =>
    hcoalesced t (hrest.mem_iff.mp ht) u (hrest.mem_iff.mp hu)
  have hapart : Apart (before ++ after) :=
    (htiles.perm (hrest.append_right _)).apart_of_coalesced
      (hsorted.sublist ((List.sublist_cons_self _ _).append_left _)) hothers
  refine Tiles.coalesced_of_apart (mergePass_size_pos hpos)
    (mergePass_apart hpos (htiles'.ordered hsorted) hapart ?_)
  exact hone.imp
    (fun h t ht => h t (hrest.mem_iff.mp (List.mem_append_left _ ht)))
    (fun h t ht => h t (hrest.mem_iff.mp (List.mem_append_right _ ht)))

/-- Taking the first bytes of a free block puts no two free blocks next to
each other. -/
theorem Coalesced.taken {bound : Int} {before after : List FreeBlock}
    {b : FreeBlock} {held : List Span} {size : Int}
    (htiles : Tiles bound ((before ++ b :: after) ++ held))
    (hcoalesced : Coalesced (before ++ b :: after)) (hpos : 0 < size)
    (hle : size ≤ b.size) : Coalesced (before ++ leftOver b size ++ after) := by
  have hsub : ∀ s ∈ before ++ after, s ∈ before ++ b :: after :=
    fun s hs => ((List.sublist_cons_self b after).append_left before).mem hs
  have hb : b ∈ before ++ b :: after := by simp
  rw [leftOver]
  split
  case isTrue =>
    rw [List.append_nil]
    exact fun s hs t ht => hcoalesced s (hsub s hs) t (hsub t ht)
  case isFalse hne =>
    have hmem : ∀ s ∈ before ++ [⟨b.size - size, b.start + size⟩] ++ after,
        s ∈ before ++ after ∨ s = ⟨b.size - size, b.start + size⟩ := by
      intro s hs
      simp only [List.mem_append, List.mem_singleton] at hs ⊢
      tauto
    have hstop : (⟨b.size - size, b.start + size⟩ : Span).stop = b.stop := by
      rw [Span.stop, Span.stop]
      change b.start + size + (b.size - size) = _
      omega
    -- a block that stopped within the old one would overlap it
    have hinside : ∀ s ∈ before ++ b :: after, s.stop ≠ b.start + size := by
      intro s hs heq
      have hspos := htiles.nonempty s (List.mem_append_left _ hs)
      have hbstop : b.stop = b.start + b.size := rfl
      have hsame : s = b := htiles.eq_of_has (List.mem_append_left _ hs)
        (List.mem_append_left _ hb) (Span.has_last hspos)
        ⟨by omega, by omega⟩
      rw [hsame] at heq
      omega
    intro s hs t ht
    rcases hmem s hs with hs | rfl
    · rcases hmem t ht with ht | rfl
      · exact hcoalesced s (hsub s hs) t (hsub t ht)
      · exact hinside s (hsub s hs)
    · rw [hstop]
      rcases hmem t ht with ht | rfl
      · exact hcoalesced b hb t (hsub t ht)
      · exact hinside b hb

namespace MemoryWitness

/-- The memory after some operations. -/
def after (w : ContiguousMemory) : List MemoryOp → Option ContiguousMemory
  | [] => some w
  | op :: rest => (memoryStep w op).bind (after · rest)

theorem run_of_after {ok : ContiguousMemory → MemoryOp → Prop}
    (hok : ∀ w op, ok w op) {ops : List MemoryOp} {w w' : ContiguousMemory}
    {done : List MemoryOp} {start : ContiguousMemory}
    (hrun : Run memoryStep ok start done w) (hafter : after w ops = some w') :
    Run memoryStep ok start (done ++ ops) w' := by
  induction ops generalizing w done with
  | nil =>
      rw [after, Option.some.injEq] at hafter
      rw [List.append_nil, ← hafter]
      exact hrun
  | cons op rest ih =>
      obtain ⟨w₁, hstep, hrest⟩ := Option.bind_eq_some_iff.mp hafter
      rw [List.append_cons]
      exact ih (hrun.snoc (hok _ _) hstep) hrest

/-- Three bytes, held by three processes, which are killed in such an order that
the last one lies between two free blocks. -/
def between : List MemoryOp :=
  [.create 1, .create 1, .create 1, .kill 1, .kill 3, .kill 2]

def freed : ContiguousMemory := (after (memoryBoot 3) between).get (by decide +kernel)

theorem freed_reachable : Run memoryStep (fun _ _ => True) (memoryBoot 3) between
    freed :=
  run_of_after (fun _ _ => trivial) (Run.nil _) (Option.some_get _).symm

theorem memory_partitioned_freed : ∃ free allocated, freed.Holds free allocated ∧
    (∀ s ∈ free ++ allocated.map AllocatedBlock.span, 0 < s.size) := by
  obtain ⟨free, allocated, hholds, hpos, -⟩ :=
    memory_partitioned (by decide) (by decide) freed_reachable
  exact ⟨free, allocated, hholds, hpos⟩

end MemoryWitness

end PintosLabs
