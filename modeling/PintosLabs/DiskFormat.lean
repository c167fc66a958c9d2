/-
A freshly formatted disk: the free map file holds the free map, the root
directory has its sectors, and these are all the sectors in use.
-/
import PintosLabs.FileRuns

namespace PintosLabs

variable {σ : Type} [SectorStore σ BlockSector Block]

/-! The bytes of a bitmap and back. -/

section Bits

variable (c : Nat → Bool)

theorem sum_bits_lt (n : Nat) :
    ((List.range n).map fun i => if c i then 2 ^ i else 0).sum < 2 ^ n := by
  induction n with
  | zero => exact Nat.one_pos
  | succ n ih =>
      rw [List.range_succ, List.map_append, List.sum_append, List.map_singleton,
        List.sum_singleton, Nat.pow_succ]
      split <;> omega

theorem testBit_sum_bits {n i : Nat} (hi : i < n) :
    ((List.range n).map fun i => if c i then 2 ^ i else 0).sum.testBit i =
      c i := by
  induction n with
  | zero => exact absurd hi (Nat.not_lt_zero i)
  | succ n ih =>
      have hlt := sum_bits_lt c n
      rw [List.range_succ, List.map_append, List.sum_append, List.map_singleton,
        List.sum_singleton, Nat.add_comm]
      generalize ((List.range n).map fun i => if c i then 2 ^ i else 0).sum = x
        at ih hlt ⊢
      rcases Nat.lt_succ_iff_lt_or_eq.mp hi with hlow | rfl
      · rw [← ih hlow]
        split
        · exact Nat.testBit_two_pow_add_gt hlow x
        · rw [Nat.zero_add]
      · split
        case isTrue hc =>
          rw [Nat.testBit_two_pow_add_eq, Nat.testBit_lt_two_pow hlt, hc]
          rfl
        case isFalse hc =>
          rw [Nat.zero_add, Nat.testBit_lt_two_pow hlt]
          exact (Bool.eq_false_of_not_eq_true hc).symm

end Bits

theorem testBit_bitmapByte (b : List Bool) (j : Nat) {i : Nat} (hi : i < 8) :
    (bitmapByte b j).toNat.testBit i = b[8 * j + i]?.getD false := by
  have hlt := sum_bits_lt (fun i => b[8 * j + i]?.getD false) 8
  rw [bitmapByte, UInt8.toNat_ofNat', Nat.mod_eq_of_lt hlt]
  exact testBit_sum_bits (fun i => b[8 * j + i]?.getD false) hi

/-- A bitmap read back from its file is the one that was written. -/
theorem bitmapOfBytes_bitmapByte (b : List Bool) :
    bitmapOfBytes b.length ((List.range (bitmapFileSize b)).map (bitmapByte b)) =
      b := by
  apply List.ext_getElem
  · simp [bitmapOfBytes]
  · intro k hk hk'
    have hbyte : k / 8 < bitmapFileSize b := by
      rw [bitmapFileSize]
      omega
    simp only [bitmapOfBytes, List.getElem_map, List.getElem_range]
    rw [List.getD_eq_getElem?_getD, List.getElem?_map,
      List.getElem?_range hbyte, Option.map_some, Option.getD_some,
      testBit_bitmapByte b _ (Nat.mod_lt k (by decide)), Nat.div_add_mod,
      List.getElem?_eq_getElem hk', Option.getD_some]

/-! The free map of an unformatted disk. -/

theorem freeMapInit_spec {cnt : Nat} {b : List Bool}
    (hinit : freeMapInit cnt = some b) :
    b.length = cnt ∧ b.count false = cnt - 2 ∧
      (∀ i, b[i]? = some true ↔ i < cnt ∧ (i = 0 ∨ i = 1)) := by
  unfold freeMapInit at hinit
  split at hinit
  · contradiction
  · have hzero : freeMapSector.toNat = 0 := rfl
    have hone : rootDirSector.toNat = 1 := rfl
    rw [Option.some.injEq, hzero, hone] at hinit
    subst hinit
    refine ⟨by simp, ?_, fun i => ?_⟩
    · rcases Nat.lt_or_ge 1 cnt with hlt | hge
      · rw [List.count_set (by simpa using hlt), List.count_set (by simp; omega)]
        simp
        omega
      · obtain rfl : cnt = 1 := by omega
        rfl
    rw [List.getElem?_set, List.getElem?_set, List.length_set,
      List.length_replicate, List.getElem?_replicate]
    by_cases hi : 1 = i
    · simp [← hi]
    · by_cases hi' : 0 = i
      · simp [← hi', Nat.pos_of_ne_zero ‹¬ cnt = 0›]
      · simp only [hi, hi', if_false]
        split <;> simp <;> omega

/-! Creation of the free map file. -/

/-- The inode in memory just after it has been opened. -/
def openedInode (sector : BlockSector) (id : InodeDisk) : Inode where
  sector := sector
  openCnt := 1
  removed := false
  denyWriteCnt := 0
  data := id

theorem inodeOpen_closed {fs : FileSys σ} {sector : BlockSector}
    (hclosed : fs.openInodes sector = none) :
    inodeOpen sector true fs = (true, (fs.cacheRead sector).2.setInode sector
      (some (openedInode sector (fs.inodeAt sector)))) := by
  unfold inodeOpen
  rw [hclosed]
  simp only [↓reduceIte]
  change (true, (fs.cacheRead sector).2.setInode sector (some
    (openedInode sector (InodeDisk.ofBlock (fs.cacheRead sector).1)))) = _
  rw [FileSys.cacheRead_fst]
  rfl

theorem inodeOpen_allocFailures (fs : FileSys σ) (sector : BlockSector)
    (memory : Bool) :
    (inodeOpen sector memory fs).2.allocFailures = fs.allocFailures := by
  unfold inodeOpen
  split
  · rfl
  · split <;> rfl

/-- A file in order on the sector of the free map, opened once. -/
def FreeMapFile.ofFile (fs : FileSys σ) (id : InodeDisk)
    (hfile : FileReady [] fs freeMapSector id)
    (hlength : fs.freeMap.length < 2 ^ 32) : FreeMapFile where
  inode := openedInode freeMapSector id
  sectors := id.sectors fs.kids id.blocks
  block := id.block fs.kids
  blocks_le := hfile.blocks_le
  writable := rfl
  nodup := hfile.nodup
  apart := hfile.apart
  block_mem _ hk := InodeDisk.block_mem hfile.blocks_le hk
  valid s hs := (hfile.parts.used s hs).ne_noSector hlength

/-- What `free_map_create` leaves behind. -/
structure FreeMapCreated (file : FreeMapFile) (fs fs' : FileSys σ) : Prop where
  inode : file.inode = openedInode freeMapSector file.inode.data
  ready : AllocReady file.Ready file.own fs'
  synced : file.Synced fs'
  view : fs'.view freeMapSector = file.inode.data.toBlock
  used : ∀ s, fs'.Used s ↔ fs.Used s ∨ s ∈ file.sectors
  free : ∀ s ∈ file.sectors, ¬ fs.Used s
  openInodes : fs'.openInodes =
    Function.update fs.openInodes freeMapSector (some file.inode)
  length_eq : fs'.freeMap.length = fs.freeMap.length
  count : fs'.freeCount + sectorsFor (bytesToSectors
    (bitmapFileSize fs.freeMap) blockSectorSize) = fs.freeCount
  allocFailures : fs'.allocFailures = fs.allocFailures
  memory : fs.MemoryOk → fs'.MemoryOk

/-- `free_map_create` makes the free map file, or an allocation fails for want
of room. -/
theorem freeMapCreate_spec {fs : FileSys σ}
    (hnone : fs.freeMapFile = none) (hclosed : ∀ s, fs.openInodes s = none)
    (hlength : fs.freeMap.length < 2 ^ 32) (hzero : fs.Used freeMapSector)
    (hnonempty : 0 < fs.freeMap.length)
    (hmax : bytesToSectors (bitmapFileSize fs.freeMap) blockSectorSize ≤
      maxBlocks) :
    (∃ (file : FreeMapFile) (fs' : FileSys σ), freeMapCreate fs = some fs' ∧
      FreeMapCreated file fs fs') ∨
    (¬ fs.Room 0 (sectorsFor
        (bytesToSectors (bitmapFileSize fs.freeMap) blockSectorSize)) ∧
      ∀ fs', freeMapCreate fs = some fs' →
        fs.allocFailures < fs'.allocFailures) := by
  have hsize : (Int32.ofNat (bitmapFileSize fs.freeMap)).toInt =
      bitmapFileSize fs.freeMap := by
    refine Int32.toInt_ofNat_of_lt ?_
    rw [bitmapFileSize]
    omega
  have hready : AllocReady (fun fs : FileSys σ => fs.freeMapFile = none) [] fs :=
    ⟨hnone, hlength, by simp, hzero⟩
  have hnonneg : 0 ≤ (Int32.ofNat (bitmapFileSize fs.freeMap)).toInt := by
    rw [hsize]
    exact Int.natCast_nonneg _
  have hcreate := flushSpec_none.inodeCreate_spec hready hzero List.not_mem_nil
    hnonneg (by rwa [hsize, Int.toNat_natCast]) (fun _ => 0)
  rw [hsize, Int.toNat_natCast] at hcreate
  rcases hcreate with
    ⟨id, fs₁, new, hcreate, hid, hcount, hview, hfile⟩ | ⟨hfull, hfail⟩
  case inr =>
    refine Or.inr ⟨hfull, fun fs' hrun => ?_⟩
    simp only [freeMapCreate, Option.bind_eq_bind,
      Option.bind_eq_some_iff] at hrun
    obtain ⟨⟨created, fs₁⟩, hcreate, hrun⟩ := hrun
    refine (hfail _ _ hcreate).trans_le ?_
    split at hrun
    case isFalse => contradiction
    case isTrue =>
      simp only [Option.bind_eq_some_iff] at hrun
      obtain ⟨⟨written, fs₃⟩, hwrite, hrun⟩ := hrun
      split at hrun
      case isFalse => contradiction
      case isTrue =>
        have hle := bitmapWrite_mono hwrite
        simp only [inodeOpen_allocFailures] at hle
        exact Option.some.inj hrun ▸ hle
  have halloc := hfile.alloc
  have hperm := hfile.perm
  rw [emptyInode_sectors, List.nil_append] at hperm
  have hlength₁ : fs₁.freeMap.length < 2 ^ 32 := halloc.ready.length_lt
  have hsize₁ : bitmapFileSize fs₁.freeMap = bitmapFileSize fs.freeMap := by
    rw [bitmapFileSize, halloc.length_eq, bitmapFileSize]
  let file := FreeMapFile.ofFile fs₁ id hfile.file hlength₁
  have hdata : fs₁.inodeAt freeMapSector = id := by
    rw [FileSys.inodeAt, hview, InodeDisk.ofBlock_toBlock]
  have hopen := @inodeOpen_closed _ _ fs₁ freeMapSector
    (by rw [halloc.openInodes, hclosed])
  rw [hdata] at hopen
  generalize hfs₂ : ({ ((fs₁.cacheRead freeMapSector).2.setInode freeMapSector
    (some (openedInode freeMapSector id))) with
      freeMapFile := some freeMapSector } : FileSys σ) = fs₂
  have hview₂ : fs₂.view = fs₁.view := by
    rw [← hfs₂]
    exact FileSys.cacheRead_view _ _
  have hkids₂ : fs₂.kids = fs₁.kids := by
    funext s
    rw [FileSys.kids, hview₂, FileSys.kids]
  have hmap₂ : fs₂.freeMap = fs₁.freeMap := by rw [← hfs₂]; rfl
  have hready₂ : file.Ready fs₂ := by
    refine ⟨?_, ?_, ?_, ?_, ?_, fun k _ => ?_⟩
    · rw [← hfs₂]
    · rw [← hfs₂]
      change Function.update fs₁.openInodes freeMapSector _ freeMapSector = _
      rw [Function.update_self]
      rfl
    · rw [hmap₂, hsize₁, bitmapFileSize]
      omega
    · rw [hmap₂, hsize₁]
      change _ ≤ id.length.toInt
      rw [hid, hsize]
    · rw [hkids₂]
      rfl
    · rw [hkids₂]
      rfl
  obtain ⟨written, fs₃, hwrite, hready₃, hsame, hframe, hsynced, hmemory⟩ :=
    hready₂.bitmapWrite_spec
  have hrun : freeMapCreate fs = if written then some fs₃ else none := by
    have hflush : bitmapWrite { (inodeOpen freeMapSector true fs₁).2 with
        freeMapFile := some freeMapSector } = some (written, fs₃) := by
      rw [hopen]
      exact (congrArg bitmapWrite hfs₂).trans hwrite
    have hcreate : inodeCreate freeMapSector
        (Int32.ofNat (bitmapFileSize fs.freeMap)) true fs = some (true, fs₁) :=
      hcreate
    simp only [freeMapCreate, hcreate, Option.bind_eq_bind, Option.bind_some,
      ↓reduceIte, hflush]
  have hmemory₂ : fs.MemoryOk → fs₂.MemoryOk := fun h => by
    have hmemory₁ := halloc.memory h
    rw [← hfs₂]
    exact hmemory₁
  cases written with
  | false =>
      refine Or.inr ⟨fun hroom => ?_, fun fs' h => ?_⟩
      · exact Bool.false_ne_true (hmemory (hmemory₂ hroom.2)).1
      · rw [hrun, if_neg Bool.false_ne_true] at h
        exact absurd h.symm (Option.some_ne_none fs')
  | true =>
      have hused : ∀ s, fs₃.Used s ↔ fs.Used s ∨ s ∈ file.sectors := by
        intro s
        rw [FileSys.Used, hsame.freeMap, hmap₂]
        exact (halloc.used s).trans (or_congr_right hperm.mem_iff.symm)
      have hblocks : id.blocks =
          bytesToSectors (bitmapFileSize fs.freeMap) blockSectorSize := by
        rw [InodeDisk.blocks, hid, hsize, Int.toNat_natCast]
      have hown : ∀ s ∈ file.own, fs₃.Used s := fun s hs => by
        rcases List.mem_cons.mp hs with rfl | hs
        · exact (hused _).mpr (Or.inl hzero)
        · exact (hused s).mpr (Or.inr hs)
      refine Or.inl ⟨file, fs₃, by rw [hrun, if_pos rfl], ?_⟩
      exact
        { inode := rfl
          ready := ⟨hready₃, by rw [hsame.freeMap, hmap₂]; exact hlength₁, hown,
            hown _ List.mem_cons_self⟩
          synced := hsynced rfl
          view := by
            rw [hframe _ file.apart_data, hview₂]
            exact hview
          used := hused
          free := fun s hs => halloc.free s (hperm.mem_iff.mp hs)
          openInodes := by
            rw [hsame.openInodes, ← halloc.openInodes, ← hfs₂]
            rfl
          length_eq := by rw [hsame.freeMap, hmap₂, halloc.length_eq]
          count := by
            rw [FileSys.freeCount, hsame.freeMap, hmap₂, ← hblocks, hcount]
            exact halloc.count
          allocFailures := by
            rw [hsame.allocFailures, ← halloc.allocFailures, ← hfs₂]
            rfl
          memory := fun h => (hmemory (hmemory₂ h)).2 }

/-- A free map file that is made fits in a file. -/
theorem freeMapCreate_max {fs fs' : FileSys σ}
    (hlength : fs.freeMap.length < 2 ^ 32) (hcreate : freeMapCreate fs = some fs') :
    bytesToSectors (bitmapFileSize fs.freeMap) blockSectorSize ≤ maxBlocks := by
  refine Nat.le_of_not_lt fun hlt => ?_
  have hsize : (Int32.ofNat (bitmapFileSize fs.freeMap)).toInt =
      bitmapFileSize fs.freeMap := by
    refine Int32.toInt_ofNat_of_lt ?_
    rw [bitmapFileSize]
    omega
  have hblocks : maxBlocks < bytesToSectors
      (Int32.ofNat (bitmapFileSize fs.freeMap)).toInt.toNat blockSectorSize := by
    rwa [hsize, Int.toNat_natCast]
  simp only [freeMapCreate, Option.bind_eq_bind, Option.bind_eq_some_iff] at hcreate
  obtain ⟨⟨created, fs₁⟩, hinode, -⟩ := hcreate
  rw [inodeCreate_none (hsize ▸ Int.natCast_nonneg _) hblocks] at hinode
  contradiction

/-- The free map file has a block, and its sector was free: there are sectors
beyond the first. -/
theorem FreeMapCreated.rootDir_used {file : FreeMapFile} {fs fs' : FileSys σ}
    (hmade : FreeMapCreated file fs fs')
    (hused : ∀ t : BlockSector, fs.Used t ↔
      t.toNat < fs.freeMap.length ∧ (t = freeMapSector ∨ t = rootDirSector)) :
    fs.Used rootDirSector := by
  have hblock := file.block_mem 0 (by
    have hlt := hmade.ready.ready.div_lt hmade.ready.ready.nonempty
    rwa [Nat.zero_div] at hlt)
  have hblock_used := hmade.ready.own_used _ (List.mem_cons_of_mem _ hblock)
  have hblock_free := hmade.free _ hblock
  obtain ⟨hbound, -⟩ := List.getElem?_eq_some_iff.mp hblock_used
  rw [hmade.length_eq] at hbound
  refine (hused _).mpr ⟨Nat.lt_of_not_le fun hle => ?_, Or.inr rfl⟩
  have hone : rootDirSector.toNat = 1 := rfl
  refine hblock_free ((hused _).mpr ⟨hbound, Or.inl ?_⟩)
  rw [← UInt32.toNat_inj]
  change _ = 0
  omega

theorem FreeMapCreated.rootDir_not_own {file : FreeMapFile} {fs fs' : FileSys σ}
    (hmade : FreeMapCreated file fs fs') (hused : fs.Used rootDirSector) :
    rootDirSector ∉ file.own := by
  intro hown
  rcases List.mem_cons.mp hown with heq | hmem
  · exact absurd heq (by decide)
  · exact hmade.free _ hmem hused

/-- Closing the free map file takes it from the table of open inodes. -/
theorem freeMapClose_spec {file : FreeMapFile} {fs : FileSys σ}
    (hready : file.Ready fs)
    (hinode : file.inode = openedInode freeMapSector file.inode.data) :
    freeMapClose fs = some (fs.setInode freeMapSector none) := by
  have hopened := hready.opened
  rw [hinode] at hopened
  simp only [freeMapClose, hready.freeMapFile, inodeClose, hopened, openedInode,
    Option.bind_eq_bind, Option.bind_some, Nat.sub_self, ↓reduceIte,
    Bool.false_eq_true]

/-- Opening the free map file reads the free map that its bytes are those of. -/
theorem freeMapOpen_spec {file : FreeMapFile} {fs : FileSys σ} {freeMap : List Bool}
    (hinode : file.inode = openedInode freeMapSector file.inode.data)
    (hclosed : fs.openInodes freeMapSector = none)
    (hdata : fs.inodeAt freeMapSector = file.inode.data)
    (hlength : freeMap.length = fs.freeMap.length)
    (hbound : freeMap.length < 2 ^ 32)
    (hroom : (bitmapFileSize freeMap : Int) ≤ file.inode.data.length.toInt)
    (hbytes : ∀ j < bitmapFileSize freeMap,
      fileByte fs.view file.inode.data j = bitmapByte freeMap j) :
    ∃ fs', freeMapOpen fs = some fs' ∧ fs'.view = fs.view ∧
      fs'.freeMap = freeMap ∧ fs'.freeMapFile = some freeMapSector ∧
      fs'.openInodes =
        Function.update fs.openInodes freeMapSector (some file.inode) ∧
      fs'.memory = fs.memory ∧ fs'.allocFailures = fs.allocFailures := by
  have hsize : (Int32.ofNat (bitmapFileSize freeMap)).toInt =
      bitmapFileSize freeMap := by
    refine Int32.toInt_ofNat_of_lt ?_
    rw [bitmapFileSize]
    omega
  have hopen := inodeOpen_closed hclosed
  rw [hdata, ← hinode] at hopen
  generalize hfs : ({ ((fs.cacheRead freeMapSector).2.setInode freeMapSector
    (some file.inode)) with freeMapFile := some freeMapSector } : FileSys σ) = fs₁
  have hmap₁ : fs₁.freeMap = fs.freeMap := by rw [← hfs]; rfl
  have hsame : bitmapFileSize fs₁.freeMap = bitmapFileSize freeMap := by
    rw [hmap₁, bitmapFileSize, ← hlength, bitmapFileSize]
  have hrun : freeMapOpen fs =
      (inodeReadAt freeMapSector
        (Int32.ofNat (bitmapFileSize fs₁.freeMap)) 0 true fs₁).bind
        fun read =>
          if Int32.ofNat read.1.length =
              Int32.ofNat (bitmapFileSize fs₁.freeMap) then
            some { read.2 with freeMap := bitmapOfBytes read.2.freeMap.length read.1 }
          else none := by
    rw [freeMapOpen, hopen, ← hfs]
    rfl
  have hview₁ : fs₁.view = fs.view := by
    rw [← hfs]
    exact SectorStore.view_read _ _
  have hopened₁ : fs₁.openInodes =
      Function.update fs.openInodes freeMapSector (some file.inode) := by
    rw [← hfs]
    rfl
  have hinode₁ : fs₁.openInodes freeMapSector = some file.inode := by
    rw [hopened₁, Function.update_self]
  obtain ⟨hread, hview₂⟩ := readLoop_spec fs₁.store file.inode.data
    (Int32.ofNat (bitmapFileSize freeMap)) 0 [] (by omega) file.fits
    (Int.le_refl 0)
  have hcount : (min (Int32.ofNat (bitmapFileSize freeMap)).toInt
      (file.inode.data.length.toInt - (0 : Int32).toInt)).toNat =
        bitmapFileSize freeMap := by
    rw [Int32.toInt_zero, hsize]
    omega
  have hbits : (readLoop fs₁.store file.inode.data true
      (Int32.ofNat (bitmapFileSize freeMap)) 0 []).1 =
        (List.range (bitmapFileSize freeMap)).map (bitmapByte freeMap) := by
    rw [hread, hcount, List.nil_append]
    apply List.map_congr_left
    intro j hj
    rw [Int32.toInt_zero, Int.toNat_zero, Nat.zero_add]
    change fileByte fs₁.view _ j = _
    rw [hview₁, hbytes j (List.mem_range.mp hj)]
  rw [hsame, inodeReadAt, hinode₁] at hrun
  simp only [Option.bind_eq_bind, Option.bind_some, hbits, List.length_map,
    List.length_range, ↓reduceIte, hmap₁, ← hlength,
    bitmapOfBytes_bitmapByte] at hrun
  refine ⟨_, hrun, hview₂.trans hview₁, rfl, ?_, hopened₁, ?_, ?_⟩ <;> rw [← hfs]
  · rfl
  · rfl

/-- Closing the free map file and opening it again makes no difference: the
free map that is read is the one that was written. -/
theorem freeMapReopen_spec {file : FreeMapFile} {fs : FileSys σ}
    (hready : AllocReady file.Ready file.own fs) (hsynced : file.Synced fs)
    (hinode : file.inode = openedInode freeMapSector file.inode.data)
    (hview : fs.view freeMapSector = file.inode.data.toBlock) :
    ∃ fs₁ fs₂, freeMapClose fs = some fs₁ ∧ freeMapOpen fs₁ = some fs₂ ∧
      fs₂.view = fs.view ∧ fs₂.SameMaps fs ∧ (fs.MemoryOk → fs₂.MemoryOk) := by
  have hclosed : (fs.setInode freeMapSector none).openInodes freeMapSector =
      none := by
    rw [FileSys.setInode_openInodes, Function.update_self]
  have hdata : (fs.setInode freeMapSector none).inodeAt freeMapSector =
      file.inode.data := by
    change InodeDisk.ofBlock (fs.view freeMapSector) = _
    rw [hview, InodeDisk.ofBlock_toBlock]
  obtain ⟨fs₂, hopen, hview₂, hmap, hfile, hopened, hmemory, hcount⟩ :=
    freeMapOpen_spec hinode hclosed hdata rfl hready.length_lt hready.ready.room
      hsynced
  refine ⟨_, fs₂, freeMapClose_spec hready.ready hinode, hopen, hview₂,
    ⟨hmap.symm, ?_, ?_, hcount.symm⟩, fun h => ?_⟩
  · rw [hready.ready.freeMapFile, hfile]
  · rw [hopened, FileSys.setInode_openInodes, Function.update_idem,
      ← hready.ready.opened, Function.update_eq_self]
  · rw [FileSys.MemoryOk, hmemory]
    exact h

theorem freeMapReopen_mono {fs fs₁ fs₂ : FileSys σ}
    (hclose : freeMapClose fs = some fs₁) (hopen : freeMapOpen fs₁ = some fs₂) :
    fs.allocFailures ≤ fs₂.allocFailures := by
  simp only [freeMapClose, Option.bind_eq_bind, Option.bind_eq_some_iff] at hclose
  obtain ⟨sector, -, hclose⟩ := hclose
  have hle := stepRel_allocFailures.inodeClose_run
    (freeMapRelease_mono fun _ _ _ => bitmapWrite_mono) hclose
  refine hle.trans ?_
  simp only [freeMapOpen, inodeReadAt, Option.bind_eq_bind,
    Option.bind_eq_some_iff, Option.some.injEq] at hopen
  obtain ⟨⟨bytes, fs₃⟩, ⟨inode, -, hread⟩, hopen⟩ := hopen
  rw [Prod.mk.injEq] at hread
  split at hopen
  · rw [← Option.some.inj hopen, ← hread.2]
    exact (inodeOpen_allocFailures fs₁ _ _).ge
  · contradiction

/-- A new file leaves the inode of the free map alone. -/
theorem mapFile_view_of_created {file : FreeMapFile} {fs₁ fs₂ : FileSys σ}
    {s : BlockSector} {id : InodeDisk} {new : List BlockSector}
    {bytes : Nat → UInt8} (hready : AllocReady file.Ready file.own fs₁)
    (hown : s ∉ file.own)
    (hwritten : FileWritten file.Ready file.Synced file.own file.data fs₁ fs₂ s
      emptyInode id 0 0 bytes new) :
    fs₂.view freeMapSector = fs₁.view freeMapSector := by
  have hperm := hwritten.perm
  rw [emptyInode_sectors, List.nil_append] at hperm
  refine hwritten.alloc.frame _ (fun hmem => ?_) file.apart_data
  rcases List.mem_cons.mp hmem with heq | hmem
  · exact hown (heq ▸ List.mem_cons_self)
  · exact hwritten.alloc.free _ (hperm.mem_iff.mp hmem) hready.zero_used

/-- Two files share out the sectors of a disk: that of the free map, and one
that has just been created. -/
theorem formatted_inv {file : FreeMapFile} {fs₁ fs₂ fs : FileSys σ}
    {s : BlockSector} {id : InodeDisk} {new : List BlockSector}
    (hinode : file.inode = openedInode freeMapSector file.inode.data)
    (hready : AllocReady file.Ready file.own fs₁)
    (hview₁ : fs₁.view freeMapSector = file.inode.data.toBlock)
    (hopen₁ : fs₁.openInodes =
      Function.update (fun _ => none) freeMapSector (some file.inode))
    (hused₁ : ∀ t, fs₁.Used t ↔ t = s ∨ t ∈ file.own) (hown : s ∉ file.own)
    (hview₂ : fs₂.view s = id.toBlock)
    (hwritten : FileWritten file.Ready file.Synced file.own file.data fs₁ fs₂ s
      emptyInode id 0 0 (fun _ => 0) new)
    (hview : fs.view = fs₂.view) (hmap : fs.freeMap = fs₂.freeMap)
    (hopen : fs.openInodes = fs₂.openInodes)
    (hfile : fs.freeMapFile = fs₂.freeMapFile) :
    ({ fs := fs, live := [freeMapSector, s], acquired := fs.sectorsOf } :
      World σ).Inv file := by
  have halloc := hwritten.alloc
  have hperm := hwritten.perm
  rw [emptyInode_sectors, List.nil_append] at hperm
  have hkids : fs.kids = fs₂.kids := by
    funext t
    rw [FileSys.kids, hview, FileSys.kids]
  have hused : ∀ t, fs.Used t ↔ fs₂.Used t := fun t => by
    rw [FileSys.Used, hmap, FileSys.Used]
  have hne : s ≠ freeMapSector := fun heq => hown (heq ▸ List.mem_cons_self)
  have hid : fs.inodeAt s = id := by
    rw [FileSys.inodeAt, hview, hview₂, InodeDisk.ofBlock_toBlock]
  have hmapFile : fs.inodeAt freeMapSector = file.inode.data := by
    rw [FileSys.inodeAt, hview, mapFile_view_of_created hready hown hwritten,
      hview₁, InodeDisk.ofBlock_toBlock]
  have hready' : AllocReady file.Ready file.own fs :=
    ⟨halloc.ready.ready.congr (by rw [hmap]) hfile (by rw [hopen])
      (fun _ _ => by rw [hview]), by rw [hmap]; exact halloc.ready.length_lt,
      fun t ht => (hused t).mpr (halloc.ready.own_used t ht),
      (hused 0).mpr halloc.ready.zero_used⟩
  have hzero : fs.sectorsOf freeMapSector = file.own :=
    hready'.ready.sectorsOf hmapFile
  have hroot : fs.sectorsOf s = s :: id.sectors fs₂.kids id.blocks := by
    rw [FileSys.sectorsOf, hid, hkids]
  have hlive : [freeMapSector, s].flatMap fs.sectorsOf =
      file.own ++ s :: id.sectors fs₂.kids id.blocks := by
    rw [List.flatMap_cons, List.flatMap_cons, List.flatMap_nil, hzero, hroot,
      List.append_nil]
  exact
    { ready := hready'
      live_nodup := by simpa using Ne.symm hne
      mapFile_live := List.mem_cons_self
      mapFile := hmapFile
      files := fun t ht hzero => by
        simp only [List.mem_cons, List.not_mem_nil, or_false] at ht
        obtain rfl := ht.resolve_left hzero
        change FileReady file.own fs t (fs.inodeAt t)
        rw [hid]
        refine hwritten.file.congr (fun x _ => by rw [hkids]) fun x hx => ?_
        exact (hused x).mpr (hwritten.file.used_of_mem x hx)
      nodup := by
        change ([freeMapSector, s].flatMap fs.sectorsOf).Nodup
        rw [hlive, List.nodup_append']
        refine ⟨List.nodup_cons.mpr ⟨file.apart, file.nodup⟩,
          List.nodup_cons.mpr ⟨hwritten.file.apart, hwritten.file.nodup⟩,
          fun x hx hx' => ?_⟩
        rcases List.mem_cons.mp hx' with rfl | hx'
        · exact hown hx
        · exact halloc.free x (hperm.mem_iff.mp hx') (hready.own_used x hx)
      used := fun t => by
        change fs.Used t ↔ t ∈ [freeMapSector, s].flatMap fs.sectorsOf
        rw [hlive, hused, halloc.used, hused₁, List.mem_append, List.mem_cons,
          hperm.mem_iff, or_assoc, or_left_comm]
      proper := fun t inode ht => by
        rw [hopen, halloc.openInodes, hopen₁] at ht
        by_cases hts : t = freeMapSector
        · rw [hts, Function.update_self, Option.some.injEq] at ht
          subst hts ht
          refine ⟨List.mem_cons_self, ?_, hmapFile.symm, ?_⟩ <;> rw [hinode]
          · rfl
          · exact Nat.one_pos
        · rw [Function.update_of_ne hts] at ht
          contradiction
      acquired := fun t _ => List.Perm.refl _ }

/-- The blocks of the free map file of a disk of `cnt` sectors. -/
def freeMapBlocks (cnt : BlockSector) : Nat :=
  bytesToSectors (4 * ((cnt.toNat + 31) / 32)) blockSectorSize

theorem rootDirLength_nonneg : 0 ≤ rootDirLength.toInt := by decide

theorem rootDirBlocks :
    bytesToSectors rootDirLength.toInt.toNat blockSectorSize = 1 := by decide

theorem rootDirBlocks_le :
    bytesToSectors rootDirLength.toInt.toNat blockSectorSize ≤ maxBlocks := by
  decide

/-- On a freshly formatted disk the sectors in use are those of the free map
file and of the root directory; or an allocation fails for want of room. -/
theorem filesysInit_spec {cnt : BlockSector} (store : σ) {memory : List Bool}
    (hpos : 0 < cnt.toNat) (hmax : freeMapBlocks cnt ≤ maxBlocks) :
    (∃ (file : FreeMapFile) (fs : FileSys σ),
      filesysInit true cnt store memory = some fs ∧
      (World.formatted fs).Inv file ∧ fs.allocFailures = 0 ∧
      fs.freeCount + sectorsFor (freeMapBlocks cnt) + 3 = cnt.toNat ∧
      ((∀ m ∈ memory, m = true) → fs.MemoryOk) ∧
      file.inode = openedInode freeMapSector file.inode.data ∧ file.Synced fs ∧
      fs.freeMap.length = cnt.toNat) ∨
    (¬ (sectorsFor (freeMapBlocks cnt) + 3 ≤ cnt.toNat ∧
        ∀ m ∈ memory, m = true) ∧
      ∀ fs, filesysInit true cnt store memory = some fs →
        0 < fs.allocFailures) := by
  obtain ⟨freeMap, hinit⟩ : ∃ b, freeMapInit cnt.toNat = some b :=
    ⟨_, if_neg hpos.ne'⟩
  obtain ⟨hlength, hfree, hbits⟩ := freeMapInit_spec hinit
  obtain ⟨fs₀, hfs₀⟩ : ∃ fs₀ : FileSys σ, fs₀ =
      { store := store, freeMap := freeMap, freeMapFile := none
        openInodes := fun _ => none, memory := memory, allocFailures := 0 } :=
    ⟨_, rfl⟩
  have hrun : filesysInit true cnt store memory =
      (doFormat fs₀).bind freeMapOpen := by
    rw [filesysInit, hinit, hfs₀]
    rfl
  have hmap₀ : fs₀.freeMap = freeMap := by rw [hfs₀]
  have hblocks : bytesToSectors (bitmapFileSize fs₀.freeMap) blockSectorSize =
      freeMapBlocks cnt := by
    rw [hmap₀, bitmapFileSize, hlength, freeMapBlocks]
  have hused₀ : ∀ t : BlockSector, fs₀.Used t ↔
      t.toNat < cnt.toNat ∧ (t = freeMapSector ∨ t = rootDirSector) := by
    intro t
    rw [FileSys.Used, hmap₀, hbits, ← UInt32.toNat_inj, ← UInt32.toNat_inj]
    rfl
  have hcount₀ : fs₀.freeCount = cnt.toNat - 2 := by
    rw [FileSys.freeCount, hmap₀, hfree]
  have hcreate := freeMapCreate_spec (by rw [hfs₀]) (fun s => by rw [hfs₀])
    (by rw [hmap₀, hlength]; exact cnt.toNat_lt)
    ((hused₀ _).mpr ⟨hpos, Or.inl rfl⟩) (by rw [hmap₀, hlength]; exact hpos)
    (hblocks ▸ hmax)
  rw [hblocks] at hcreate
  rcases hcreate with ⟨file, fs₁, hcreate, hmade⟩ | ⟨hfull, hfail⟩
  · have hroot_used := hmade.rootDir_used fun t => (hused₀ t).trans
      (by rw [← hlength, ← hmap₀])
    have hroot_own := hmade.rootDir_not_own hroot_used
    have hcount₁ := hmade.count
    rw [hblocks] at hcount₁
    rcases file.flushSpec.inodeCreate_spec hmade.ready
      ((hmade.used _).mpr (Or.inl hroot_used)) hroot_own rootDirLength_nonneg
      rootDirBlocks_le (fun _ => 0) with
      ⟨id, fs₂, new, hroot, hid, hnew, hview, hwritten⟩ | ⟨hfull, hfail⟩
    · have halloc := hwritten.alloc
      obtain ⟨fs₃, fs₄, hclose, hopen, hview', hsame, hmemory⟩ :=
        freeMapReopen_spec halloc.ready (halloc.synced hmade.synced) hmade.inode
          ((mapFile_view_of_created hmade.ready hroot_own hwritten).trans
            hmade.view)
      have hblocks_root : id.blocks = 1 := by
        rw [InodeDisk.blocks, hid, rootDirBlocks]
      have hcount₂ := halloc.count
      rw [← hnew, hblocks_root, sectorsFor_direct (by decide)] at hcount₂
      have hbound : 1 < cnt.toNat := ((hused₀ _).mp hroot_used).1
      refine Or.inl ⟨file, fs₄, ?_, formatted_inv hmade.inode hmade.ready
        hmade.view (by rw [hmade.openInodes, hfs₀]) (fun t => ?_) hroot_own hview
        hwritten hview' hsame.freeMap.symm hsame.openInodes.symm
        hsame.freeMapFile.symm, ?_, ?_, fun h => hmemory ?_, hmade.inode,
        halloc.ready.ready.synced_congr (halloc.synced hmade.synced)
          hsame.freeMap.symm fun t _ => congrFun hview' t, ?_⟩
      · simp only [hrun, doFormat, hcreate, hroot, hclose, hopen,
          Option.bind_eq_bind, Option.bind_some, ↓reduceIte]
      · have hown : file.own = freeMapSector :: file.sectors := rfl
        rw [hmade.used, hused₀, hown, List.mem_cons, ← or_assoc,
          or_comm (a := t = rootDirSector)]
        refine or_congr_left ⟨fun h => h.2, ?_⟩
        rintro (rfl | rfl)
        · exact ⟨hpos, Or.inl rfl⟩
        · exact ⟨hbound, Or.inr rfl⟩
      · rw [← hsame.allocFailures, halloc.allocFailures, hmade.allocFailures, hfs₀]
      · rw [FileSys.freeCount, ← hsame.freeMap, ← FileSys.freeCount]
        omega
      · refine halloc.memory (hmade.memory ?_)
        rw [hfs₀]
        exact h
      · rw [← hsame.freeMap, halloc.length_eq, hmade.length_eq, hmap₀, hlength]
    · refine Or.inr ⟨fun hroom => hfull ⟨?_, hmade.memory ?_⟩, fun fs h => ?_⟩
      · rw [rootDirBlocks, sectorsFor_direct (by decide)]
        omega
      · rw [hfs₀]
        exact hroom.2
      · simp only [hrun, doFormat, hcreate, Option.bind_eq_bind, Option.bind_some,
          Option.bind_eq_some_iff] at h
        obtain ⟨fs₃, ⟨⟨created, fs₂⟩, hroot, hclose⟩, hopen⟩ := h
        split at hclose
        case isFalse => exact absurd hclose.symm (Option.some_ne_none fs₃)
        case isTrue =>
          have hlt := hfail _ _ hroot
          exact (Nat.zero_le _).trans_lt
            (hlt.trans_le (freeMapReopen_mono hclose hopen))
  · refine Or.inr ⟨fun hroom => hfull ⟨by omega, ?_⟩, fun fs h => ?_⟩
    · rw [hfs₀]
      exact hroom.2
    · simp only [hrun, doFormat, Option.bind_eq_bind,
        Option.bind_eq_some_iff] at h
      obtain ⟨fs₃, ⟨fs₁, hcreate, ⟨created, fs₂⟩, hroot, hclose⟩, hopen⟩ := h
      split at hclose
      case isFalse => contradiction
      case isTrue =>
        have hle := stepRel_allocFailures.inodeCreate_run
          (allocateEntry_mono fun _ _ _ => bitmapWrite_mono) hroot
        have hlt := (hfail _ hcreate).trans_le
          (hle.trans (freeMapReopen_mono hclose hopen))
        exact (Nat.zero_le _).trans_lt hlt

/-- The invariant holds on a formatted disk, whose free map file has been
opened once and holds the free map of its sectors. -/
theorem filesysInit_synced {cnt : BlockSector} {store : σ} {memory : List Bool}
    {fs : FileSys σ} (hrun : filesysInit true cnt store memory = some fs)
    (hcount : fs.allocFailures = 0) :
    ∃ file, (World.formatted fs).Inv file ∧
      file.inode = openedInode freeMapSector file.inode.data ∧ file.Synced fs ∧
      fs.freeMap.length = cnt.toNat := by
  have hpos : 0 < cnt.toNat := by
    refine Nat.pos_of_ne_zero fun hzero => ?_
    rw [filesysInit, freeMapInit, if_pos hzero] at hrun
    contradiction
  have hmax : freeMapBlocks cnt ≤ maxBlocks := by
    simp only [filesysInit, doFormat, ↓reduceIte, Option.bind_eq_bind,
      Option.bind_eq_some_iff] at hrun
    obtain ⟨freeMap, hinit, -, ⟨fs₁, hcreate, -⟩, -⟩ := hrun
    obtain ⟨hlength, -⟩ := freeMapInit_spec hinit
    have hle := freeMapCreate_max (by rw [hlength]; exact cnt.toNat_lt) hcreate
    rwa [bitmapFileSize, hlength] at hle
  rcases filesysInit_spec store hpos hmax with
    ⟨file, fs', hrun', hinv, -, -, -, hsaved⟩ | ⟨-, hfail⟩
  · rw [hrun, Option.some.injEq] at hrun'
    subst hrun'
    exact ⟨file, hinv, hsaved⟩
  · have hlt := hfail fs hrun
    exact absurd hcount hlt.ne'

theorem filesysInit_inv {cnt : BlockSector} {store : σ} {memory : List Bool}
    {fs : FileSys σ} (hrun : filesysInit true cnt store memory = some fs)
    (hcount : fs.allocFailures = 0) : ∃ file, (World.formatted fs).Inv file := by
  obtain ⟨file, hinv, -⟩ := filesysInit_synced hrun hcount
  exact ⟨file, hinv⟩

/-- A disk of sixty-four sectors is formatted without a failed allocation. -/
theorem formatted_disk : ∃ (file : FreeMapFile) (fs : FileSys (BlockSector → Block)),
    filesysInit true 64 (fun _ => zeros) [] = some fs ∧
      (World.formatted fs).Inv file ∧ fs.allocFailures = 0 ∧
      fs.freeCount = 60 ∧ fs.MemoryOk := by
  have hblocks : freeMapBlocks 64 = 1 := by decide
  have hsectors : sectorsFor 1 = 1 := sectorsFor_direct (by decide)
  have hcnt : (64 : BlockSector).toNat = 64 := rfl
  have hspec := @filesysInit_spec (BlockSector → Block) _ 64 (fun _ => zeros) []
    (by decide) (by decide)
  rw [hblocks, hsectors, hcnt] at hspec
  rcases hspec with
    ⟨file, fs, hrun, hinv, hnofail, hcount, hmemory, -⟩ | ⟨hfull, -⟩
  · exact ⟨file, fs, hrun, hinv, hnofail, by omega, hmemory (by simp)⟩
  · exact absurd ⟨by decide, by simp⟩ hfull

/-- A file of that length has been created on a small disk, and opened. -/
structure OpenedFile (length : Int32) (fs : FileSys (BlockSector → Block))
    (ops : List FileOp) (w : World (BlockSector → Block)) (s : BlockSector)
    (id : InodeDisk) : Prop where
  format : filesysInit true 64 (fun _ => zeros) [] = some fs
  nofail : fs.allocFailures = 0
  run : Run worldStep (fun w op => op.Ok w) (World.formatted fs) ops w
  foreign : s ≠ freeMapSector
  opened : w.fs.openInodes s = some (openedInode s id)
  length_eq : id.length = length
  acquired : (w.acquired s).length =
    1 + sectorsFor (bytesToSectors length.toInt.toNat blockSectorSize)

theorem opened_file {length : Int32} (hlength : 0 ≤ length.toInt)
    (hblocks : bytesToSectors length.toInt.toNat blockSectorSize ≤ 2) :
    ∃ fs ops w s id, OpenedFile length fs ops w s id := by
  obtain ⟨file, fs, hformat, hinv, hnofail, hcount, hmemory⟩ := formatted_disk
  obtain ⟨w₀, hw₀⟩ : ∃ w₀, w₀ = World.formatted fs := ⟨_, rfl⟩
  rw [← hw₀] at hinv
  have hfs₀ : w₀.fs = fs := by rw [hw₀]; rfl
  have hmax : (2 : Nat) ≤ maxBlocks := by decide
  rcases filesysCreate_spec hinv.ready hlength (hblocks.trans hmax) with
    ⟨s, fs₁, new, hcreate, hid, hnew, -, halloc, hperm, -⟩ | ⟨hfull, -⟩
  case inr =>
    refine absurd ⟨?_, hfs₀ ▸ hmemory⟩ hfull
    rw [sectorsFor_direct (hblocks.trans (by decide)), hfs₀]
    omega
  have hfree : ¬ w₀.fs.Used s :=
    halloc.free s (hperm.mem_iff.mp List.mem_cons_self)
  have hne : s ≠ freeMapSector := fun heq => hfree (heq ▸ hinv.ready.zero_used)
  obtain ⟨w₁, hw₁⟩ : ∃ w₁, w₁ = w₀.create (some s) fs₁ := ⟨_, rfl⟩
  have hfs₁ : w₁.fs = fs₁ := by rw [hw₁]; rfl
  have hstep₁ : worldStep w₀ (.create length true) = some w₁ := by
    simp only [worldStep, hcreate, Option.bind_eq_bind, Option.bind_some, hw₁]
  have hrun₁ := worldRun_snoc (Run.nil w₀) hstep₁ trivial
    (hfs₁ ▸ halloc.allocFailures)
  have hclosed : w₁.fs.openInodes s = none := by
    rw [hfs₁, halloc.openInodes, hinv.closed_of_free hfree]
  have hopen := inodeOpen_closed hclosed
  obtain ⟨w₂, hw₂⟩ : ∃ w₂ : World (BlockSector → Block),
      w₂ = { w₁ with fs := (inodeOpen s true w₁.fs).2 } := ⟨_, rfl⟩
  have hstep₂ : worldStep w₁ (.openAt s true) = some w₂ := by rw [hw₂]; rfl
  have hlive : s ∈ w₁.live := by
    rw [hw₁]
    exact List.mem_cons_self
  have hrun₂ := worldRun_snoc hrun₁ hstep₂ ⟨hlive, hne⟩
    (by rw [hw₂]; exact inodeOpen_allocFailures _ _ _)
  refine ⟨fs, _, w₂, s, fs₁.inodeAt s, hformat, hnofail, hw₀ ▸ hrun₂, hne, ?_,
    hid, ?_⟩
  · rw [hw₂, hopen, ← hfs₁]
    exact Function.update_self _ _ _
  · have hgained : w₂.acquired s = w₀.fs.gained fs₁ := by
      rw [hw₂, hw₁]
      exact Function.update_self _ _ _
    rw [hgained, halloc.gained_perm.length_eq, hnew, InodeDisk.blocks, hid]

end PintosLabs
