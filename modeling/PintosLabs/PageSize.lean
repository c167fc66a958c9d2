/-
The menu of the paging simulator (mm_paging.cpp), and what becomes of the page size
that is set there: `set_page_size` prints the size that is in use and keeps it.
-/
import PintosLabs.PagingPartition

namespace PintosLabs

def defaultMemSize : Nat := 1024

/-- The simulator with the flags that lock its two sizes. -/
structure Simulator where
  paging : Paging
  flag : Bool
  pageFlag : Bool

inductive MenuOp where
  | setMemSize (memory : Int)
  | setPageSize (size : Int)
  | create (size : Int)
  | kill (pid : Int)
  | display

namespace Simulator

def boot : Simulator := ⟨pagingBoot defaultMemSize, false, false⟩

def setMemSize (s : Simulator) (memory : Int) : Simulator :=
  if s.flag then s
  else if memory ≤ 0 then s
  else
    { flag := true
      pageFlag := true
      paging := { s.paging with
        memSize := memory.toNat
        freeHeap := (initFreeBlock memory.toNat).1
        freeBlockHead := (initFreeBlock memory.toNat).2 } }

/-- No variable gets the size that has been read. -/
def setPageSize (s : Simulator) (size : Int) : Simulator :=
  if s.pageFlag then s
  else if size ≤ 0 then s
  else { s with pageFlag := true }

/-- One turn of the loop in `main`. -/
def step (s : Simulator) : MenuOp → Option Simulator
  | .setMemSize memory => some (s.setMemSize memory)
  | .setPageSize size => some ({ s with flag := true }.setPageSize size)
  | .create size => do
      let w ← createNewProcess s.paging size
      some { s with flag := true, paging := w }
  | .kill pid => do
      let w ← killProcess s.paging pid
      some { s with flag := true, paging := w }
  | .display => some { s with flag := true }

end Simulator

/-- The pages of some size for `n` bytes, rounded up. -/
def pagesOf (size n : Nat) : Nat := if n % size ≠ 0 then n / size + 1 else n / size

/-- So many frames on the list of the held ones are those of the process. -/
def Paging.Owns (w : Paging) (pid : Int) (count : Nat) : Prop :=
  ∃ allocated, w.allocHeap.Holds w.allocatedBlockHead allocated ∧
    allocated.countP (isOf pid) = count

/-- A kill finds the frames of the process where they can be taken off. -/
def MenuOp.Ok (s : Simulator) : MenuOp → Prop
  | .kill pid => PagingOp.Ok s.paging (.kill pid)
  | _ => True

/-- The page size is `size` in all that happens from `s` to `t`. -/
structure PageSizeTaken (size : Nat) (s : Simulator) (later : List MenuOp) (t : Simulator) :
    Prop where
  frames : ∃ free allocated, t.paging.Holds free allocated ∧
    free.length + allocated.length = pagesOf size t.paging.memSize ∧
    ∀ a ∈ free ++ allocated.map AllocatedFrame.startAddr, (size : Int) ∣ a
  owned : ∀ before n after s₁ s₂, later = before ++ .create n :: after →
    Run Simulator.step MenuOp.Ok s before s₁ → s₁.step (.create n) = some s₂ →
    Run Simulator.step MenuOp.Ok s₂ after t → 0 < n → ¬ s₂.paging.Owns s₂.paging.pid 0 →
    .kill s₂.paging.pid ∉ after → t.paging.Owns s₂.paging.pid (pagesOf size n.toNat)

/-! What each operation does to the frames of the processes. -/

/-- Each frame of the memory is free or held, and no process has a pid that is still
to be given out. -/
structure Paging.Booked (w : Paging) (free : List Int) (allocated : List AllocatedFrame) :
    Prop where
  holds : w.Holds free allocated
  perm : (free ++ allocated.map AllocatedFrame.startAddr).Perm (frames w.memSize)
  pids : ∀ b ∈ allocated, b.pid ≤ w.pid

section Booked

variable {w w' : Paging} {free : List Int} {allocated : List AllocatedFrame}
  (h : w.Booked free allocated)
include h

theorem Paging.Booked.owns_iff {pid : Int} {count : Nat} :
    w.Owns pid count ↔ allocated.countP (isOf pid) = count := by
  refine ⟨?_, fun hcount => ⟨allocated, h.holds.2, hcount⟩⟩
  rintro ⟨allocated', hholds, hcount⟩
  rwa [h.holds.2.unique hholds] at hcount

theorem Paging.Booked.countP_new {pid : Int} (hpid : w.pid < pid) :
    allocated.countP (isOf pid) = 0 := by
  refine List.countP_eq_zero.mpr fun b hb hof => ?_
  have hle := h.pids b hb
  have heq := of_decide_eq_true hof
  omega

theorem Paging.Booked.createNewProcess {n : Int}
    (hrun : PintosLabs.createNewProcess w n = some w') :
    ∃ free' allocated', w'.Booked free' allocated' ∧ w'.memSize = w.memSize ∧
      w.pid ≤ w'.pid ∧
      (∀ pid ≤ w.pid, allocated'.countP (isOf pid) = allocated.countP (isOf pid)) ∧
      (0 < n → w'.pid = w.pid + 1 ∧ (allocated'.countP (isOf w'.pid) = 0 ∨
        allocated'.countP (isOf w'.pid) = pagesFor n.toNat)) := by
  rw [PintosLabs.createNewProcess] at hrun
  split at hrun
  case isTrue hsize =>
    obtain rfl := Option.some.inj hrun
    exact ⟨free, allocated, h, rfl, Int.le_refl _, fun _ _ => rfl, fun hpos => by omega⟩
  case isFalse hsize =>
    have hcnt : 0 < pagesFor n.toNat := by
      rw [pagesFor, pageSize]
      split <;> omega
    rcases @allocateMem_spec { w with pid := w.pid + 1 } _ _ h.holds _ hcnt
        ⟨w.pid + 1, 0, toString (w.pid + 1)⟩ with
      ⟨w'', free', allocated', hrun', hmem, hpid, hholds, hmoved⟩ | ⟨hnone, -⟩
    case inr => cases hnone.symm.trans hrun
    obtain rfl := Option.some.inj (hrun.symm.trans hrun')
    change w'.memSize = w.memSize at hmem
    change w'.pid = w.pid + 1 at hpid
    have hnew : allocated.countP (isOf w'.pid) = 0 := h.countP_new (by omega)
    rcases hmoved with ⟨hle, hfree, halloc⟩ | ⟨-, rfl, rfl⟩
    · have hcount : ∀ pid, allocated'.countP (isOf pid) = allocated.countP (isOf pid) +
          if w.pid + 1 = pid then pagesFor n.toNat else 0 := by
        intro pid
        rw [halloc.countP_eq, List.countP_append, List.countP_map]
        refine congrArg _ ?_
        split
        case isTrue hpid =>
          refine (List.countP_eq_length.mpr fun a _ => decide_eq_true hpid).trans ?_
          rw [List.length_take, Nat.min_eq_left hle]
        case isFalse hpid =>
          exact List.countP_eq_zero.mpr fun a _ hof => hpid (of_decide_eq_true hof)
      refine ⟨free', allocated', ⟨hholds, ?_, fun b hb => ?_⟩, hmem, by omega, ?_, ?_⟩
      · rw [hmem]
        exact (taken_addresses hfree halloc).trans h.perm
      · rcases List.mem_append.mp (halloc.mem_iff.mp hb) with hb | hb
        · have hle := h.pids b hb
          omega
        · obtain ⟨a, -, rfl⟩ := List.mem_map.mp hb
          exact Int.le_of_eq hpid.symm
      · intro pid hold
        rw [hcount, if_neg (by omega), Nat.add_zero]
      · intro hpos
        refine ⟨hpid, Or.inr ?_⟩
        rw [hcount, hnew, hpid, if_pos rfl, Nat.zero_add]
    · refine ⟨free', allocated', ⟨hholds, hmem ▸ h.perm, fun b hb => ?_⟩, hmem, by omega,
        fun _ _ => rfl, fun _ => ⟨hpid, Or.inl hnew⟩⟩
      have hle := h.pids b hb
      omega

theorem Paging.Booked.killProcess {pid : Int} (hok : PagingOp.Ok w (.kill pid))
    (hrun : PintosLabs.killProcess w pid = some w') :
    ∃ free' allocated', w'.Booked free' allocated' ∧ w'.memSize = w.memSize ∧
      w'.pid = w.pid ∧
      ∀ other, other ≠ pid → allocated'.countP (isOf other) = allocated.countP (isOf other) := by
  obtain ⟨hfree, hallocated⟩ := h.holds
  rcases freeScan_spec pid (recorderSize w.memSize) hallocated (hok allocated hallocated) with
    ⟨st, hscan, hkept, hrecorder⟩ | ⟨hnone, -⟩
  case inr =>
    simp only [PintosLabs.killProcess, freeMem, hnone] at hrun
    cases hrun
  obtain ⟨w'', free', allocated', hrun', hmem, hpid, hholds, hpermFree, hpermAlloc⟩ :=
    killProcess_spec hfree hscan hkept hrecorder
  obtain rfl := Option.some.inj (hrun.symm.trans hrun')
  refine ⟨free', allocated', ⟨hholds, ?_, fun b hb => ?_⟩, hmem, hpid, fun other hother => ?_⟩
  · rw [hmem]
    refine ((hpermFree.append (hpermAlloc.map _)).trans ?_).trans h.perm
    rw [List.append_assoc, ← List.map_append]
    exact ((List.filter_append_perm (isOf pid) allocated).map _).append_left _
  · rw [hpid]
    exact h.pids b (List.mem_of_mem_filter (hpermAlloc.mem_iff.mp hb))
  · rw [hpermAlloc.countP_eq, List.countP_filter]
    refine List.countP_congr fun b _ => ?_
    rw [Bool.and_eq_true]
    refine and_iff_left_of_imp fun hof => ?_
    rw [Bool.not_eq_true', isOf, of_decide_eq_true hof]
    exact decide_eq_false hother

end Booked

/-! What the menu keeps. -/

/-- Until the flags are set nothing has happened to the sizes. -/
structure Simulator.Inv (s : Simulator) : Prop where
  booked : ∃ free allocated, s.paging.Booked free allocated
  memSize : s.pageFlag = false → s.paging.memSize = defaultMemSize
  boot : s.flag = false → s = Simulator.boot

theorem pagingBoot_booked {memSize : Nat} (hpos : 0 < memSize) :
    ∃ free allocated, (pagingBoot memSize).Booked free allocated := by
  obtain ⟨-, free, allocated, hholds, hperm⟩ := pagingBoot_inv hpos
  refine ⟨free, allocated, hholds, hperm, fun b hb => ?_⟩
  have hnil : (pagingBoot memSize).allocHeap.Holds (pagingBoot memSize).allocatedBlockHead [] :=
    ⟨[], rfl, rfl, fun _ ha => (by cases ha)⟩
  rw [hnil.unique hholds.2] at hb
  cases hb

theorem Simulator.boot_inv : Simulator.boot.Inv :=
  ⟨pagingBoot_booked (by decide), fun _ => rfl, fun _ => rfl⟩

/-- What a step does to the frames of the processes that there are already. -/
structure Simulator.Keeps (s s' : Simulator) (op : MenuOp) : Prop where
  memSize : s'.paging.memSize = s.paging.memSize
  pid : s.paging.pid ≤ s'.paging.pid
  owns : ∀ pid count, pid ≤ s.paging.pid → op ≠ .kill pid → s.paging.Owns pid count →
    s'.paging.Owns pid count

theorem Simulator.Keeps.of_paging {s s' : Simulator} {op : MenuOp}
    (hpaging : s'.paging = s.paging) : s.Keeps s' op := by
  refine ⟨by rw [hpaging], Int.le_of_eq (by rw [hpaging]), fun pid count _ _ howns => ?_⟩
  rwa [hpaging]

section Menu

variable {s s' : Simulator} {op : MenuOp}

theorem Simulator.Inv.setMemSize (h : s.Inv) (memory : Int) :
    (s.setMemSize memory).Inv ∧
      (s.flag = true → s.setMemSize memory = s) := by
  rw [Simulator.setMemSize]
  split
  case isTrue => exact ⟨h, fun _ => rfl⟩
  case isFalse hflag =>
    refine ⟨?_, fun hset => absurd hset hflag⟩
    rw [Bool.not_eq_true] at hflag
    obtain rfl := h.boot hflag
    split
    case isTrue => exact h
    case isFalse hpos =>
      refine ⟨?_, fun hopen => (by cases hopen), fun hopen => (by cases hopen)⟩
      exact @pagingBoot_booked memory.toNat (by omega)

theorem Simulator.setPageSize_paging (s : Simulator) (size : Int) :
    (s.setPageSize size).paging = s.paging ∧ (s.setPageSize size).flag = s.flag ∧
      ((s.setPageSize size).pageFlag = false → s.pageFlag = false) := by
  rw [Simulator.setPageSize]
  split
  case isTrue => exact ⟨rfl, rfl, id⟩
  case isFalse hopen =>
    rw [Bool.not_eq_true] at hopen
    split <;> exact ⟨rfl, rfl, fun _ => hopen⟩

theorem Simulator.Inv.step (h : s.Inv) (hok : op.Ok s) (hstep : s.step op = some s') :
    s'.Inv ∧ (s.flag = true → s'.flag = true ∧ s.Keeps s' op) := by
  obtain ⟨free, allocated, hbooked⟩ := h.booked
  cases op with
  | setMemSize memory =>
      obtain rfl := Option.some.inj hstep
      obtain ⟨hinv, hsame⟩ := h.setMemSize memory
      refine ⟨hinv, fun hflag => ?_⟩
      rw [hsame hflag]
      exact ⟨hflag, .of_paging rfl⟩
  | setPageSize size =>
      obtain rfl := Option.some.inj hstep
      obtain ⟨hpaging, hflag, hopen⟩ := { s with flag := true }.setPageSize_paging size
      refine ⟨⟨?_, fun hset => ?_, fun hset => ?_⟩, fun _ => ⟨hflag, .of_paging hpaging⟩⟩
      · rw [hpaging]
        exact h.booked
      · rw [hpaging]
        exact h.memSize (hopen hset)
      · cases hset.symm.trans hflag
  | create n =>
      obtain ⟨w, hrun, hw⟩ := Option.bind_eq_some_iff.mp hstep
      obtain rfl := Option.some.inj hw
      obtain ⟨free', allocated', hbooked', hmem, hpid, hcount, -⟩ :=
        hbooked.createNewProcess hrun
      refine ⟨⟨⟨free', allocated', hbooked'⟩, fun hopen => hmem.trans (h.memSize hopen),
        fun hset => (by cases hset)⟩, fun _ => ⟨rfl, hmem, hpid, fun pid count hle _ howns => ?_⟩⟩
      rw [hbooked.owns_iff] at howns
      exact hbooked'.owns_iff.mpr ((hcount pid hle).trans howns)
  | kill killed =>
      obtain ⟨w, hrun, hw⟩ := Option.bind_eq_some_iff.mp hstep
      obtain rfl := Option.some.inj hw
      obtain ⟨free', allocated', hbooked', hmem, hpid, hcount⟩ := hbooked.killProcess hok hrun
      refine ⟨⟨⟨free', allocated', hbooked'⟩, fun hopen => hmem.trans (h.memSize hopen),
        fun hset => (by cases hset)⟩,
        fun _ => ⟨rfl, hmem, Int.le_of_eq hpid.symm, fun pid count _ hother howns => ?_⟩⟩
      rw [hbooked.owns_iff] at howns
      refine hbooked'.owns_iff.mpr ((hcount pid ?_).trans howns)
      rintro rfl
      exact hother rfl
  | display =>
      obtain rfl := Option.some.inj hstep
      exact ⟨⟨h.booked, h.memSize, fun hset => (by cases hset)⟩,
        fun _ => ⟨rfl, .of_paging rfl⟩⟩

theorem Simulator.Inv.run (h : s.Inv) {ops : List MenuOp}
    (hrun : Run Simulator.step MenuOp.Ok s ops s') : s'.Inv :=
  hrun.invariant _ (fun h hok hstep => (Simulator.Inv.step h hok hstep).1) h

/-- A process keeps its frames until it is killed. -/
theorem Simulator.Inv.run_owns (h : s.Inv) {ops : List MenuOp} {pid : Int} {count : Nat}
    (hrun : Run Simulator.step MenuOp.Ok s ops s') (hflag : s.flag = true)
    (hpid : pid ≤ s.paging.pid) (hkill : .kill pid ∉ ops) (howns : s.paging.Owns pid count) :
    s'.flag = true ∧ pid ≤ s'.paging.pid ∧ s'.paging.Owns pid count := by
  induction hrun with
  | nil => exact ⟨hflag, hpid, howns⟩
  | @snoc t t' actions op run allowed taken ih =>
      rw [List.mem_append, List.mem_singleton, not_or] at hkill
      obtain ⟨hflag', hpid', howns'⟩ := ih hkill.1
      obtain ⟨-, hkeeps⟩ := (h.run run).step allowed taken
      obtain ⟨hset, hkeeps⟩ := hkeeps hflag'
      exact ⟨hset, Int.le_trans hpid' hkeeps.pid, hkeeps.owns pid count hpid' (Ne.symm hkill.2) howns'⟩

end Menu

/-! The size that is set, and the one that is in use. -/

theorem pagesFor_eq (n : Nat) : pagesOf 4 n = pagesFor n := rfl

theorem length_frames (memSize : Nat) : (frames memSize).length = pagesFor memSize := by
  rw [frames, List.length_map, List.length_range]

theorem pagesOf_default {size : Nat} (hsize : 0 < size)
    (h : pagesOf size defaultMemSize = pagesFor defaultMemSize) : size = 4 := by
  have hdiv := Nat.div_add_mod defaultMemSize size
  have hmod := Nat.mod_lt defaultMemSize hsize
  have hpages : pagesFor defaultMemSize = 256 := by decide
  rw [hpages, pagesOf] at h
  split at h
  case isTrue hpart =>
    have hquot : defaultMemSize / size = 255 := by omega
    rw [hquot] at hdiv
    rw [defaultMemSize] at hdiv hmod hpart
    omega
  case isFalse hwhole =>
    rw [h] at hdiv
    rw [defaultMemSize] at hdiv hmod hwhole
    omega

theorem Simulator.Inv.pageSizeTaken {s t : Simulator} {later : List MenuOp} (h : s.Inv)
    (hrun : Run Simulator.step MenuOp.Ok s later t) : PageSizeTaken 4 s later t := by
  obtain ⟨free, allocated, hbooked⟩ := (h.run hrun).booked
  constructor
  · refine ⟨free, allocated, hbooked.holds, ?_, fun a ha => ?_⟩
    · rw [pagesFor_eq, ← length_frames, ← hbooked.perm.length_eq, List.length_append,
        List.length_map]
    · obtain ⟨i, -, rfl⟩ := List.mem_map.mp (hbooked.perm.subset ha)
      exact Int.natCast_dvd_natCast.mpr ⟨i, rfl⟩
  · intro before n after s₁ s₂ _ hbefore hcreate hafter hpos howns hkill
    have hinv := h.run hbefore
    obtain ⟨w, hnew, hw⟩ := Option.bind_eq_some_iff.mp hcreate
    obtain rfl := Option.some.inj hw
    obtain ⟨free₁, allocated₁, hbooked₁⟩ := hinv.booked
    obtain ⟨free₂, allocated₂, hbooked₂, -, -, -, hcount⟩ := hbooked₁.createNewProcess hnew
    obtain ⟨-, hnone | hcount⟩ := hcount hpos
    · exact absurd (hbooked₂.owns_iff.mpr hnone) howns
    · exact ((@Simulator.Inv.step _ _ (.create n) hinv trivial hcreate).1.run_owns hafter rfl (Int.le_refl _) hkill
        (hbooked₂.owns_iff.mpr hcount)).2.2

/-- A page size that is accepted is taken in everything that follows, in which each
killed process has its frames where they can be taken off, exactly if it is the one
that was in use before. -/
theorem page_size_taken_iff {ops : List MenuOp} {s : Simulator}
    (hrun : Run Simulator.step MenuOp.Ok Simulator.boot ops s) (hopen : s.pageFlag = false)
    {size : Int} (hsize : 0 < size) :
    (∀ s₁ later t, s.step (.setPageSize size) = some s₁ →
      Run Simulator.step MenuOp.Ok s₁ later t → PageSizeTaken size.toNat s₁ later t) ↔
        size = pageSize := by
  have hinv := Simulator.boot_inv.run hrun
  constructor
  · intro hall
    obtain ⟨hpaging, -, -⟩ := { s with flag := true }.setPageSize_paging size
    obtain ⟨free, allocated, hholds, hlength, -⟩ :=
      (hall _ [] _ rfl (Run.nil _)).frames
    rw [hpaging] at hholds hlength
    obtain ⟨free', allocated', hbooked⟩ := hinv.booked
    obtain rfl := hholds.1.unique hbooked.holds.1
    obtain rfl := hholds.2.unique hbooked.holds.2
    have hframes := hbooked.perm.length_eq
    rw [length_frames, List.length_append, List.length_map] at hframes
    have hmem : s.paging.memSize = defaultMemSize := hinv.memSize hopen
    rw [hmem] at hframes
    change _ = pagesOf size.toNat s.paging.memSize at hlength
    rw [hmem] at hlength
    have heq := pagesOf_default (by omega) (hlength.symm.trans hframes)
    rw [pageSize]
    omega
  · rintro rfl s₁ later t hset hlater
    exact (@Simulator.Inv.step _ _ (.setPageSize _) hinv trivial hset).1.pageSizeTaken hlater

namespace PageSizeWitness

theorem page_size_taken_iff_eight :
    (∀ s₁ later t, Simulator.boot.step (.setPageSize 8) = some s₁ →
      Run Simulator.step MenuOp.Ok s₁ later t →
        PageSizeTaken (8 : Int).toNat s₁ later t) ↔ (8 : Int) = pageSize :=
  page_size_taken_iff (Run.nil _) rfl (by decide)

/-- With pages of eight bytes there should be half as many frames. -/
theorem page_size_ignored :
    ¬ ∀ (ops : List MenuOp) (s s₁ t : Simulator) (size : Int) (later : List MenuOp),
      Run Simulator.step (fun _ _ => True) Simulator.boot ops s → s.pageFlag = false →
      0 < size → s.step (.setPageSize size) = some s₁ →
      Run Simulator.step (fun _ _ => True) s₁ later t →
      PageSizeTaken size.toNat s₁ later t := by
  intro hclaim
  obtain ⟨free, allocated, hholds, hlength, -⟩ :=
    (hclaim [] _ _ _ 8 [] (Run.nil _) rfl (by decide) rfl (Run.nil _)).frames
  obtain ⟨free', allocated', hbooked⟩ := Simulator.boot_inv.booked
  obtain rfl := hholds.1.unique hbooked.holds.1
  obtain rfl := hholds.2.unique hbooked.holds.2
  have hframes := hbooked.perm.length_eq
  rw [length_frames, List.length_append, List.length_map] at hframes
  have hpages : pagesFor Simulator.boot.paging.memSize = 256 := by decide
  have hhalf : pagesOf (8 : Int).toNat Simulator.boot.paging.memSize = 128 := by decide
  have hsame := (hlength.trans hhalf).symm.trans (hframes.trans hpages)
  omega

end PageSizeWitness

end PintosLabs
