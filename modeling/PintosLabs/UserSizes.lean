/-
Which sizes and positions that a user hands to the kernel pass its assertions.
What a call asserts about them is arithmetic; the kernel goes on exactly while
no size or end of a write is beyond what an inode can hold.
-/
import PintosLabs.SystemCalls

namespace PintosLabs.SystemCalls

open Directory

/-! The assertions of the inode layer. -/

/-- All of the conditions hold. -/
def AllTrue (conditions : List Bool) : Prop := ∀ b ∈ conditions, b = true

theorem allTrue_nil : AllTrue [] := by simp [AllTrue]

theorem allTrue_cons {b : Bool} {rest : List Bool} :
    AllTrue (b :: rest) ↔ b = true ∧ AllTrue rest :=
  List.forall_mem_cons

theorem allTrue_append {first second : List Bool} :
    AllTrue (first ++ second) ↔ AllTrue first ∧ AllTrue second :=
  List.forall_mem_append

theorem allTrue_afterwards {α : Type} {run : Option α}
    {asserts : α → List Bool} :
    AllTrue (afterwards run asserts) ↔
      ∀ a, run = some a → AllTrue (asserts a) := by
  cases run with
  | none => simp [afterwards, allTrue_nil]
  | some a => simp [afterwards]

theorem allTrue_ite {c : Prop} [Decidable c] {conditions : List Bool} :
    AllTrue (if c then conditions else []) ↔ (c → AllTrue conditions) := by
  split
  case isTrue h => simp [h]
  case isFalse h => simp [h, allTrue_nil]

theorem allTrue_ite_not {c : Prop} [Decidable c] {conditions : List Bool} :
    AllTrue (if c then [] else conditions) ↔ (¬ c → AllTrue conditions) := by
  split
  case isTrue h => simp [h, allTrue_nil]
  case isFalse h => simp [h]

/-- Nothing is left over when the entries cover all that is needed. -/
theorem entriesAsserts_true {asserts : Nat → List Bool} {unit : Nat}
    (hasserts : ∀ n, AllTrue (asserts n)) {l n : Nat} (hle : n ≤ l * unit) :
    AllTrue (entriesAsserts asserts unit l n) := by
  induction l generalizing n with
  | zero =>
      rw [Nat.zero_mul, Nat.le_zero] at hle
      rw [entriesAsserts, hle]
      simp [AllTrue]
  | succ l ih =>
      rw [entriesAsserts, allTrue_append]
      refine ⟨hasserts _, ih ?_⟩
      rw [Nat.succ_mul] at hle
      omega

/-- No assertion of `inode_allocate_indirect` fails at the levels it is called
with. -/
theorem indirectAsserts_true {level : Nat} (hlevel : level ≤ 2) (n : Nat) :
    AllTrue (indirectAsserts level n) := by
  induction level generalizing n with
  | zero => simp [indirectAsserts, AllTrue]
  | succ level ih =>
      have hunit : 0 < if level = 0 then 1 else 128 := by split <;> decide
      rw [indirectAsserts, allTrue_cons]
      exact ⟨decide_eq_true hlevel, entriesAsserts_true (fun m => ih (by omega) m)
        ((bytesToSectors_le_iff hunit).mp (Nat.le_refl _))⟩

/-- The one that fails is the last of `inode_allocate`, for what no index
reaches. -/
theorem allocateAsserts_true_iff {length : Int32} :
    AllTrue (allocateAsserts length) ↔
      length.toInt ≤ maxBlocks * blockSectorSize := by
  unfold allocateAsserts
  split
  case isTrue hneg =>
    rw [Int32.lt_iff_toInt_lt, Int32.toInt_zero] at hneg
    rw [maxBlocks_mul]
    exact iff_of_true allTrue_nil (by omega)
  case isFalse hneg =>
    rw [Int32.lt_iff_toInt_lt, Int32.toInt_zero, Int.not_lt] at hneg
    have hmax : length.toInt ≤ maxBlocks * blockSectorSize ↔
        bytesToSectors length.toInt.toNat blockSectorSize ≤ maxBlocks := by
      rw [bytesToSectors_le_iff (by decide)]
      omega
    rw [hmax]
    generalize bytesToSectors length.toInt.toNat blockSectorSize = n
    rw [maxBlocks]
    dsimp only
    split
    case isTrue hdirect => exact iff_of_true allTrue_nil (by omega)
    rw [allTrue_append]
    split
    case isTrue hindirect =>
      exact iff_of_true ⟨indirectAsserts_true (by decide) _, allTrue_nil⟩
        (by omega)
    rw [allTrue_append]
    split
    case isTrue hdoubly =>
      exact iff_of_true ⟨indirectAsserts_true (by decide) _,
        indirectAsserts_true (by decide) _, allTrue_nil⟩ (by omega)
    case isFalse hdoubly =>
      refine iff_of_false (fun hall => ?_) (by omega)
      have hlast := (allTrue_cons.mp hall.2.2).1
      exact hdoubly (beq_iff_eq.mp hlast)

/-- The size of a new file passes the assertions of `inode_create`. -/
def CreateFits (length : Int32) (memory : Bool) : Prop :=
  0 ≤ length.toInt ∧
    (memory = true → length.toInt ≤ maxBlocks * blockSectorSize)

theorem createAsserts_true_iff {length : Int32} {memory : Bool} :
    AllTrue (createAsserts length memory) ↔ CreateFits length memory := by
  have hsize : (4 + 4 * 124 + 4 + 4 + 4 == blockSectorSize) = true := rfl
  have hnonneg : 0 ≤ length ↔ 0 ≤ length.toInt := by
    rw [Int32.le_iff_toInt_le, Int32.toInt_zero]
  unfold createAsserts CreateFits
  rw [← hnonneg]
  split
  case isTrue h =>
    rw [allTrue_cons, allTrue_cons, hsize]
    cases memory with
    | true => simp only [h, ↓reduceIte, true_and, true_imp_iff,
        allocateAsserts_true_iff]
    | false => simp [h, allTrue_nil]
  case isFalse h => simp [h, AllTrue]

variable {σ : Type} [SectorStore σ BlockSector Block]

/-- A write to a file ends, as a number of thirty-two bits, within what an
inode can hold, unless writes to its inode are denied. -/
def WriteFits (sector : BlockSector) (size offset : Int32) (fs : FileSys σ) :
    Prop :=
  ∀ inode, fs.openInodes sector = some inode → inode.denyWriteCnt = 0 →
    (offset + size).toInt ≤ maxBlocks * blockSectorSize

/-- Where the last byte has a block, the end is within reach. -/
theorem end_le_of_last {x : Int32} (hlow : 0 ≤ (x - 1).toInt)
    (hlt : (x - 1).toInt.toNat < maxBlocks * blockSectorSize) :
    x.toInt ≤ maxBlocks * blockSectorSize := by
  have hmax : maxBlocks * blockSectorSize = 8517632 := rfl
  have hone : (1 : Int32).toInt = 1 := rfl
  have hx := x.toInt_lt
  have hx' := x.le_toInt
  rw [hmax] at hlt
  rw [maxBlocks_mul]
  rw [Int32.toInt_sub, hone, Int.bmod_def] at hlow hlt
  omega

theorem writeAsserts_true_iff {sector : BlockSector} {size offset : Int32}
    {fs : FileSys σ} :
    AllTrue (writeAsserts sector size offset fs) ↔
      WriteFits sector size offset fs := by
  unfold writeAsserts WriteFits
  simp only [allTrue_afterwards, allTrue_ite_not, allTrue_ite, ne_eq,
    Decidable.not_not, allocateAsserts_true_iff]
  refine forall_congr' fun inode => imp_congr_right fun _ =>
    imp_congr_right fun _ => ⟨fun h => ?_, fun h _ => h⟩
  by_cases hprobe : (byteToSector fs.store inode.data (offset + size - 1)).1 =
      noSector
  · exact h hprobe
  · have hholds := Classical.not_not.mp
      (mt (byteToSector_spec fs.store inode.data (offset + size - 1)).2.2 hprobe)
    exact end_le_of_last hholds.1
      ((Nat.div_lt_iff_lt_mul (by decide)).mp hholds.2.2)

/-! The assertions of the calls. -/

/-- The entry of a name that can be entered ends within what the inode of the
directory can hold. -/
def SlotFits (dir : BlockSector) (name : List UInt8) (e : DirEntry)
    (bounce : List Bool) (fs : FileSys σ) : Prop :=
  ¬ (name = [] ∨ nameMax < name.length) → ∀ found ofs₁ e₁ bounce₁ fs₁,
    searchEntries dir (isNamed name) e bounce fs =
        some (found, ofs₁, e₁, bounce₁, fs₁) → ¬ found = true →
      ∀ free ofs₂ e₂ bounce₂ fs₂, searchEntries dir isFree e bounce₁ fs₁ =
          some (free, ofs₂, e₂, bounce₂, fs₂) → WriteFits dir 20 ofs₂ fs₂

theorem addAsserts_true_iff {dir : BlockSector} {name : List UInt8}
    {e : DirEntry} {bounce : List Bool} {fs : FileSys σ} :
    AllTrue (addAsserts dir name e bounce fs) ↔
      SlotFits dir name e bounce fs := by
  simp only [addAsserts, SlotFits, allTrue_ite_not, allTrue_afterwards,
    Prod.forall, writeAsserts_true_iff]

/-- What a call must be given: a size that an inode can hold, for a file that
comes to be built and whose entry the directory can hold; a position that is no
negative number; a write that does not end beyond what an inode can hold. -/
def Safe (s : System σ) : Call → Prop
  | .create file initialSize e answers =>
      ∀ opened fs₁, dirOpenRoot answers s.fs = some (opened, fs₁) →
        opened = true → ∀ allocated sector fs₂,
          freeMapAllocate bitmapWrite 1 0 fs₁ = some (allocated, sector, fs₂) →
            allocated = true →
              CreateFits initialSize.toInt32 answers.diskInode ∧
              ∀ created fs₃, inodeCreate sector initialSize.toInt32
                  answers.diskInode fs₂ = some (created, fs₃) →
                created = true →
                  SlotFits rootDirSector file e answers.bounce fs₃
  | .seek fd position => (s.files fd).isSome → position.toNat < 2 ^ 31
  | .write fd _ size _ =>
      ¬ (fd = 1 ∨ fd = 0) → ∀ f, s.files fd = some f → ¬ f.denyWrite = true →
        WriteFits f.sector size.toInt32 f.pos s.fs
  | .openFile _ _ _ | .tell _ | .read _ _ _ => True

/-- Each call of a sequence is safe where it is made. -/
def SafeRun : System σ → List Call → Prop
  | _, [] => True
  | s, call :: rest =>
      Safe s call ∧ ∀ result s', s.step call = some (result, s') →
        SafeRun s' rest

/-- A position of thirty-two bits is negative from the middle on. -/
theorem position_nonneg_iff {position : UInt32} :
    0 ≤ position.toInt32 ↔ position.toNat < 2 ^ 31 := by
  rw [Int32.le_iff_toInt_le, Int32.toInt_zero]
  change 0 ≤ position.toBitVec.toInt ↔ _
  rw [BitVec.toInt_eq_toNat_cond]
  have hlt := position.toNat_lt
  change 0 ≤ (if 2 * position.toNat < 2 ^ 32 then (position.toNat : Int)
    else position.toNat - 2 ^ 32) ↔ _
  split <;> omega

/-- The conditions that a call asserts hold exactly if it is safe. -/
theorem asserts_true_iff (s : System σ) (call : Call) :
    AllTrue (s.asserts call) ↔ Safe s call := by
  cases call with
  | create file initialSize e answers =>
      simp only [System.asserts, filesysCreateAsserts, Safe, allTrue_afterwards,
        allTrue_ite, allTrue_append, Prod.forall, createAsserts_true_iff,
        addAsserts_true_iff]
  | openFile name file answers => exact iff_of_true allTrue_nil trivial
  | tell fd => exact iff_of_true allTrue_nil trivial
  | read fd length memory => exact iff_of_true allTrue_nil trivial
  | seek fd position =>
      simp only [System.asserts, Safe, allTrue_afterwards, allTrue_cons,
        allTrue_nil, decide_eq_true_eq, position_nonneg_iff, and_true,
        Option.isSome_iff_exists, forall_exists_index]
  | write fd buffer size memory =>
      simp only [System.asserts, Safe, allTrue_ite_not, allTrue_afterwards,
        writeAsserts_true_iff]

/-- Whatever calls are made, in whatever state: no assertion about a size or a
position fails, up to where the kernel stops if it does, exactly if each call is
safe where it is made. -/
theorem user_sizes_pass_iff (s : System σ) (calls : List Call) :
    (∀ b ∈ s.runAsserts calls, b = true) ↔ SafeRun s calls := by
  induction calls generalizing s with
  | nil => simp [System.runAsserts, SafeRun]
  | cons call rest ih =>
      have hrest : AllTrue (afterwards (s.step call) fun next =>
          next.2.runAsserts rest) ↔
          ∀ result s', s.step call = some (result, s') → SafeRun s' rest := by
        simp only [allTrue_afterwards, Prod.forall, ← ih]
        rfl
      exact allTrue_append.trans (and_congr (asserts_true_iff s call) hrest)

/-! The kernel stops where an assertion fails, and `inode_allocate` nowhere
else. -/

section Total

variable {write : FileSys σ → Option (Bool × FileSys σ)}
  (hwrite : ∀ fs, (write fs).isSome)
include hwrite

theorem allocateEntry_isSome (entry : BlockSector) (fs : FileSys σ) :
    (allocateEntry write entry fs).isSome := by
  unfold allocateEntry
  split
  case isFalse => rfl
  case isTrue =>
    unfold freeMapAllocate
    cases bitmapScan fs.freeMap 0 1 false with
    | none => rfl
    | some i =>
        obtain ⟨⟨written, fs₁⟩, hflush⟩ : ∃ r, flushFreeMap write
            { fs with freeMap := bitmapSetMultiple fs.freeMap i 1 true } =
              some r := by
          unfold flushFreeMap
          split
          · exact Option.isSome_iff_exists.mp (hwrite _)
          · exact ⟨_, rfl⟩
        simp only [hflush, Option.bind_eq_bind, Option.bind_some]
        cases written <;> rfl

omit [SectorStore σ BlockSector Block] hwrite in
theorem allocateEntries_isSome {m unit : Nat}
    {allocate : BlockSector → Nat → FileSys σ → Option (BlockSector × FileSys σ)}
    (hallocate : ∀ entry n fs, n ≤ unit → (allocate entry n fs).isSome)
    {indices : List (Fin m)} {n : Nat} (hle : n ≤ indices.length * unit)
    (entries : Fin m → BlockSector) (fs : FileSys σ) :
    (allocateEntries allocate unit indices n entries fs).isSome := by
  induction indices generalizing n entries fs with
  | nil =>
      rw [List.length_nil, Nat.zero_mul, Nat.le_zero] at hle
      rw [allocateEntries, if_pos hle]
      rfl
  | cons i rest ih =>
      obtain ⟨⟨entry, fs₁⟩, hfirst⟩ := Option.isSome_iff_exists.mp
        (hallocate (entries i) (min n unit) fs (Nat.min_le_right _ _))
      simp only [allocateEntries, hfirst, Option.bind_eq_bind, Option.bind_some]
      rw [List.length_cons, Nat.succ_mul] at hle
      exact ih (by omega) _ _

theorem inodeAllocateIndirect_isSome {level n : Nat} (hlevel : level ≤ 2)
    (hn : n ≤ 128 ^ level) (entry : BlockSector) (fs : FileSys σ) :
    (inodeAllocateIndirect write level entry n fs).isSome := by
  induction level generalizing n entry fs with
  | zero => exact allocateEntry_isSome hwrite entry fs
  | succ level ih =>
      obtain ⟨⟨entry', fs₁⟩, hfirst⟩ := Option.isSome_iff_exists.mp
        (allocateEntry_isSome hwrite entry fs)
      obtain ⟨unit, hunit⟩ : ∃ unit, unit = if level = 0 then 1 else 128 :=
        ⟨_, rfl⟩
      have hpow : unit = 128 ^ level := by
        obtain rfl | rfl : level = 0 ∨ level = 1 := by omega
        · exact hunit
        · exact hunit
      have hcover := (bytesToSectors_le_iff (hpow ▸ Nat.pow_pos (by decide) :
        0 < unit)).mp (Nat.le_refl (bytesToSectors n unit))
      have hle : n ≤ ((List.finRange 128).take
          (bytesToSectors n unit)).length * unit := by
        rw [List.length_take, List.length_finRange, Nat.min_def]
        split
        · exact hcover
        · rw [hpow, ← Nat.pow_succ']
          exact hn
      obtain ⟨⟨blocks, fs₂⟩, hentries⟩ := Option.isSome_iff_exists.mp
        (allocateEntries_isSome (fun e m fs hm =>
          ih (by omega) (hpow ▸ hm) e fs) hle
          (wordsOf (fs₁.cacheRead entry').1) (fs₁.cacheRead entry').2)
      simp only [inodeAllocateIndirect, hfirst, ← hunit, hentries,
        Option.bind_eq_bind, Option.bind_some]
      rfl

/-- `inode_allocate` returns exactly if its assertions hold, given that writing
the free map does. -/
theorem inodeAllocate_isSome_iff (id : InodeDisk) (fs : FileSys σ) :
    (inodeAllocate write id fs).isSome ↔ AllTrue (allocateAsserts id.length) := by
  rw [allocateAsserts_true_iff]
  by_cases hneg : id.length < 0
  · rw [inodeAllocate, if_pos hneg, maxBlocks_mul]
    rw [Int32.lt_iff_toInt_lt, Int32.toInt_zero] at hneg
    exact iff_of_true rfl (by omega)
  have hnonneg : 0 ≤ id.length.toInt := by
    rw [Int32.lt_iff_toInt_lt, Int32.toInt_zero] at hneg
    omega
  have hmax : id.length.toInt ≤ maxBlocks * blockSectorSize ↔
      id.blocks ≤ maxBlocks := by
    rw [InodeDisk.blocks_le_iff]
    omega
  rw [hmax]
  constructor
  · intro hsome
    by_contra hblocks
    rw [inodeAllocate_none (Int32.le_iff_toInt_le.mpr hnonneg)
      (Nat.lt_of_not_le hblocks)] at hsome
    contradiction
  · intro hblocks
    rw [InodeDisk.blocks] at hblocks
    rw [inodeAllocate, if_neg hneg]
    dsimp only
    generalize bytesToSectors id.length.toInt.toNat blockSectorSize = n
      at hblocks ⊢
    rw [maxBlocks] at hblocks
    obtain ⟨⟨directIndex, fs₁⟩, hdirect⟩ := Option.isSome_iff_exists.mp
      (allocateEntries_isSome (fun entry _ fs _ =>
        allocateEntry_isSome hwrite entry fs)
        (by simp : min n 124 ≤ ((List.finRange 124).take (min n 124)).length * 1)
        id.directIndex fs)
    simp only [hdirect, Option.bind_eq_bind, Option.bind_some, allocateIndirect]
    split
    case isTrue => rfl
    obtain ⟨⟨indirectIndex, fs₂⟩, hindirect⟩ := Option.isSome_iff_exists.mp
      (inodeAllocateIndirect_isSome hwrite (by decide)
        (by omega : min (n - min n 124) 128 ≤ 128 ^ 1) id.indirectIndex fs₁)
    simp only [hindirect, Option.bind_some, allocateDoublyIndirect]
    split
    case isTrue => rfl
    obtain ⟨⟨doublyIndirectIndex, fs₃⟩, hdoubly⟩ := Option.isSome_iff_exists.mp
      (inodeAllocateIndirect_isSome hwrite (by decide)
        (by omega : min (n - min n 124 - min (n - min n 124) 128) (128 * 128) ≤
          128 ^ 2) id.doublyIndirectIndex fs₂)
    simp only [hdoubly, Option.bind_eq_bind, Option.bind_some]
    rw [if_pos (by omega)]
    rfl

end Total

theorem writeFits_of_run {sector : BlockSector} {buffer : Nat → UInt8}
    {size offset written : Int32} {memory : Bool} {fs fs' : FileSys σ}
    (hrun : inodeWriteAt sector buffer size offset memory fs =
      some (written, fs')) : WriteFits sector size offset fs := by
  intro inode hopen hdeny
  by_contra hmax
  have hprobe : (byteToSector fs.store inode.data (offset + size - 1)).1 =
      noSector := by
    by_contra hprobe
    have hholds := Classical.not_not.mp
      (mt (byteToSector_spec fs.store inode.data (offset + size - 1)).2.2 hprobe)
    exact hmax (end_le_of_last hholds.1
      ((Nat.div_lt_iff_lt_mul (by decide)).mp hholds.2.2))
  rw [Int.not_le, maxBlocks_mul] at hmax
  have hnonneg : 0 ≤ ({ inode.data with length := offset + size } :
      InodeDisk).length := by
    rw [Int32.le_iff_toInt_le, Int32.toInt_zero]
    change 0 ≤ (offset + size).toInt
    omega
  have hblocks : maxBlocks < ({ inode.data with length := offset + size } :
      InodeDisk).blocks := by
    refine Nat.lt_of_not_le fun hle => ?_
    have hfits := InodeDisk.fits_of_blocks_le hle
    rw [InodeDisk.Fits, maxBlocks_mul] at hfits
    exact absurd hfits (Int.not_le.mpr hmax)
  rw [inodeWriteAt, inodeWriteAtWith_grow hopen hdeny hprobe,
    inodeAllocate_none hnonneg hblocks] at hrun
  contradiction

theorem createFits_of_run {sector : BlockSector} {length : Int32}
    {memory created : Bool} {fs fs' : FileSys σ}
    (hrun : inodeCreate sector length memory fs = some (created, fs')) :
    CreateFits length memory := by
  have hnonneg : 0 ≤ length.toInt := by
    by_contra hneg
    rw [Int.not_le, ← Int32.toInt_zero, ← Int32.lt_iff_toInt_lt] at hneg
    rw [inodeCreate, if_pos hneg] at hrun
    contradiction
  refine ⟨hnonneg, ?_⟩
  rintro rfl
  by_contra hmax
  have hblocks : maxBlocks <
      bytesToSectors length.toInt.toNat blockSectorSize := by
    rw [← Nat.not_le, bytesToSectors_le_iff (by decide)]
    omega
  rw [inodeCreate_none hnonneg hblocks] at hrun
  contradiction

theorem slotFits_of_run {dir s : BlockSector} {name : List UInt8} {e : DirEntry}
    {bounce : List Bool} {added : Bool} {fs fs' : FileSys σ}
    (hrun : dirAdd dir name s e bounce fs = some (added, fs')) :
    SlotFits dir name e bounce fs := by
  intro hname found ofs₁ e₁ bounce₁ fs₁ hlookup hfound free ofs₂ e₂ bounce₂ fs₂
    hslot
  simp only [dirAdd, if_neg hname, hlookup, if_neg hfound, hslot,
    Option.bind_eq_bind, Option.bind_some, Option.bind_eq_some_iff] at hrun
  obtain ⟨⟨written, fs₃⟩, hwrite, -⟩ := hrun
  exact writeFits_of_run hwrite

/-- A call that returns was safe: the kernel stops at every assertion that
fails. -/
theorem safe_of_step {s s' : System σ} {call : Call} {result : Int32}
    (hstep : s.step call = some (result, s')) : Safe s call := by
  cases call with
  | create file initialSize e answers =>
      intro opened fs₁ hopen hopened allocated sector fs₂ halloc hallocated
      subst hopened hallocated
      simp only [System.step, Directory.filesysCreate, hopen, halloc,
        Option.bind_eq_bind, Option.bind_some, ↓reduceIte,
        Option.bind_eq_some_iff] at hstep
      obtain ⟨-, ⟨⟨created, fs₃⟩, hcreate, ⟨success, fs₄⟩, hadd, -⟩, -⟩ := hstep
      refine ⟨createFits_of_run hcreate, fun created' fs₃' hcreate' htrue => ?_⟩
      rw [hcreate, Option.some.injEq, Prod.mk.injEq] at hcreate'
      obtain ⟨rfl, rfl⟩ := hcreate'
      rw [if_pos htrue] at hadd
      exact slotFits_of_run hadd
  | openFile name file answers => trivial
  | tell fd => trivial
  | read fd length memory => trivial
  | seek fd position =>
      intro hfile
      obtain ⟨f, hf⟩ := Option.isSome_iff_exists.mp hfile
      rw [System.step, hf] at hstep
      dsimp only at hstep
      split at hstep
      case isTrue hpos => exact position_nonneg_iff.mp hpos
      case isFalse => contradiction
  | write fd buffer size memory =>
      intro hfd f hf hdeny
      rw [not_or] at hfd
      simp only [System.step, hfd, hf, hdeny, Bool.false_eq_true, ↓reduceIte,
        Option.bind_eq_bind, Option.bind_eq_some_iff] at hstep
      obtain ⟨⟨written, fs'⟩, hwrite, -⟩ := hstep
      exact writeFits_of_run hwrite

namespace UserSizesWitness

/-- No file is open yet, and the first descriptor is two. -/
def start (fs : FileSys σ) : System σ := ⟨fs, fun _ => none, 2⟩

/-- A size with the sign bit set. -/
def negative : Call :=
  .create [97] 0x80000000 (fun _ => 0) ⟨true, true, true, []⟩

/-- The inode of the root directory is there once it has been asked for. -/
theorem inodeOpen_root (fs : FileSys σ) : ∃ st inode,
    inodeOpen rootDirSector true fs =
      (true, ({ fs with store := st } : FileSys σ).setInode rootDirSector
        (some inode)) ∧ SectorStore.view st = fs.view := by
  unfold inodeOpen
  cases fs.openInodes rootDirSector with
  | some inode => exact ⟨fs.store, _, rfl, rfl⟩
  | none => exact ⟨_, _, rfl, SectorStore.view_read fs.store _⟩

/-- A create with a negative size on a freshly formatted disk fails the
assertion of `inode_create`. -/
theorem negative_size_fails :
    ¬ ∀ (cnt : BlockSector) (store : BlockSector → Block) (memory : List Bool)
      (fs : FileSys (BlockSector → Block)),
      filesysInit true cnt store memory = some fs → fs.allocFailures = 0 →
        ∀ calls, ∀ b ∈ (start fs).runAsserts calls, b = true := by
  intro hclaim
  obtain ⟨file, fs, hformat, hinv, hnofail, hcount, hmemory⟩ := formatted_disk
  have hall := hclaim _ _ _ fs hformat hnofail [negative]
  have hsafe := (asserts_true_iff _ _).mp (allTrue_append.mp hall).1
  obtain ⟨st, inode, hopen, hview⟩ := inodeOpen_root fs
  have hroot : dirOpenRoot ⟨true, true, true, []⟩ fs = some (true,
      ({ fs with store := st } : FileSys (BlockSector → Block)).setInode
        rootDirSector (some inode)) := by
    rw [dirOpenRoot, hopen]
    rfl
  have hready := (reread hinv.ready hview).ready.setInode
    (by decide : rootDirSector ≠ freeMapSector) (some inode)
  rcases file.flushSpec.freeMapAllocate_spec hready 0 with
    ⟨sector, fs₂, halloc, -⟩ | ⟨_, -, -, hfull⟩
  · have hfits := (hsafe _ _ hroot rfl _ _ _ halloc rfl).1
    exact absurd hfits.1 (by decide)
  · refine hfull ⟨?_, hmemory⟩
    change 0 < fs.freeCount
    omega

end UserSizesWitness

end PintosLabs.SystemCalls
