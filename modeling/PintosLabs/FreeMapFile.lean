/-
The free map file: a file of fixed length that holds the bitmap of the free
map.  Writing the bitmap changes the blocks of this file and nothing else.
-/
import PintosLabs.FileBytes

namespace PintosLabs

/-- The free map file as `free_map_open` leaves it: its inode, its sectors and
the sectors of its blocks. -/
structure FreeMapFile where
  inode : Inode
  sectors : List BlockSector
  block : Nat → BlockSector
  blocks_le : inode.data.blocks ≤ maxBlocks
  writable : inode.denyWriteCnt = 0
  nodup : sectors.Nodup
  apart : freeMapSector ∉ sectors
  block_mem : ∀ k < inode.data.blocks, block k ∈ sectors
  valid : ∀ s ∈ sectors, s ≠ noSector

namespace FreeMapFile

variable {σ : Type} [SectorStore σ BlockSector Block] (file : FreeMapFile)

/-- Its sectors and the sector of its inode. -/
def own : List BlockSector := freeMapSector :: file.sectors

def data : List BlockSector := (List.range file.inode.data.blocks).map file.block

/-- The free map file is open, it has its sectors, and the bitmap fits in it. -/
structure Ready (fs : FileSys σ) : Prop where
  freeMapFile : fs.freeMapFile = some freeMapSector
  opened : fs.openInodes freeMapSector = some file.inode
  nonempty : 0 < bitmapFileSize fs.freeMap
  room : (bitmapFileSize fs.freeMap : Int) ≤ file.inode.data.length.toInt
  sectors : file.inode.data.sectors fs.kids file.inode.data.blocks = file.sectors
  block : ∀ k < file.inode.data.blocks, file.inode.data.block fs.kids k = file.block k

/-- The file holds the free map. -/
def Synced (fs : FileSys σ) : Prop :=
  ∀ j < bitmapFileSize fs.freeMap,
    fileByte fs.view file.inode.data j = bitmapByte fs.freeMap j

theorem data_subset : file.data ⊆ file.own := by
  intro s hs
  obtain ⟨k, hk, rfl⟩ := List.mem_map.mp hs
  exact List.mem_cons_of_mem _ (file.block_mem k (List.mem_range.mp hk))

theorem apart_data : freeMapSector ∉ file.data := by
  intro hmem
  obtain ⟨k, hk, heq⟩ := List.mem_map.mp hmem
  exact file.apart (heq ▸ file.block_mem k (List.mem_range.mp hk))

variable {file} {fs fs' : FileSys σ}

theorem Ready.kids_eq (hready : file.Ready fs)
    (hview : ∀ s ∈ file.own, fs'.view s = fs.view s) :
    ∀ s ∈ file.inode.data.indexSectors fs.kids file.inode.data.blocks,
      fs'.kids s = fs.kids s := by
  intro s hs
  have hmem := InodeDisk.indexSectors_subset hs
  rw [hready.sectors] at hmem
  rw [FileSys.kids, hview s (List.mem_cons_of_mem _ hmem), FileSys.kids]

theorem Ready.congr (hready : file.Ready fs)
    (hlength : fs'.freeMap.length = fs.freeMap.length)
    (hfile : fs'.freeMapFile = fs.freeMapFile)
    (hopen : fs'.openInodes freeMapSector = fs.openInodes freeMapSector)
    (hview : ∀ s ∈ file.own, fs'.view s = fs.view s) : file.Ready fs' where
  freeMapFile := hfile.trans hready.freeMapFile
  opened := by rw [hopen, hready.opened]
  nonempty := by
    rw [bitmapFileSize, hlength]
    exact hready.nonempty
  room := by
    rw [bitmapFileSize, hlength]
    exact hready.room
  sectors := (InodeDisk.sectors_congr (hready.kids_eq hview)).trans
    hready.sectors
  block k hk := (InodeDisk.block_congr (hready.kids_eq hview) hk).trans
    (hready.block k hk)

/-- The bytes of the bitmap lie in the blocks of the file. -/
theorem Ready.div_lt (hready : file.Ready fs) {j : Nat}
    (hj : j < bitmapFileSize fs.freeMap) : j / blockSectorSize < file.inode.data.blocks := by
  have hroom := hready.room
  have hlength := file.inode.data.length_le_blocks
  apply Nat.div_lt_of_lt_mul
  rw [Nat.mul_comm]
  omega

theorem Ready.synced_congr (hready : file.Ready fs) (hsynced : file.Synced fs)
    (hmap : fs'.freeMap = fs.freeMap)
    (hview : ∀ s ∈ file.own, fs'.view s = fs.view s) : file.Synced fs' := by
  intro j hj
  rw [hmap] at hj ⊢
  have hlt := hready.div_lt hj
  have hmem := file.block_mem _ hlt
  have hblock := InodeDisk.block_congr (hready.kids_eq hview) hlt
  rw [← hsynced j hj, fileByte, fileByte]
  change fs'.view (file.inode.data.block fs'.kids _) _ =
    fs.view (file.inode.data.block fs.kids _) _
  rw [hblock, hready.block _ hlt, hview _ (List.mem_cons_of_mem _ hmem)]

theorem Ready.nodup_sectors (hready : file.Ready fs) :
    (file.inode.data.sectors fs.kids file.inode.data.blocks).Nodup := by
  rw [hready.sectors]
  exact file.nodup

theorem fits (file : FreeMapFile) : file.inode.data.Fits :=
  InodeDisk.fits_of_blocks_le file.blocks_le

/-- The last byte of the bitmap has a sector, so that the file never grows. -/
theorem Ready.probe_ne (hready : file.Ready fs) {pos : Int32}
    (hpos : 0 ≤ pos.toInt) (hlt : pos.toInt < bitmapFileSize fs.freeMap) :
    (byteToSector fs.store file.inode.data pos).1 ≠ noSector := by
  have hroom := hready.room
  have hsector := (byteToSector_spec fs.store file.inode.data pos).2.1
    (file.fits.holds hpos (hlt.trans_le hroom))
  have hblock : pos.toInt.toNat / blockSectorSize < file.inode.data.blocks :=
    hready.div_lt (by omega)
  rw [hsector]
  change file.inode.data.block fs.kids _ ≠ _
  rw [hready.block _ hblock]
  exact file.valid _ (file.block_mem _ hblock)

theorem bitmapWrite_eq {sector : BlockSector}
    (hfile : fs.freeMapFile = some sector) :
    bitmapWrite fs = (inodeWriteAtWith (fun _ => none) sector
        (bitmapByte fs.freeMap) (Int32.ofNat (bitmapFileSize fs.freeMap)) 0
        fs.nextMemory { fs with memory := fs.memory.tail }).bind
      fun (written, fs') =>
        some (written == Int32.ofNat (bitmapFileSize fs.freeMap), fs') := by
  rw [bitmapWrite]
  generalize hmap : fs.freeMapFile = sectorp at *
  subst hfile
  rfl

/-- Writing the bitmap to its file. -/
theorem Ready.bitmapWrite_spec (hready : file.Ready fs) :
    ∃ written fs', bitmapWrite fs = some (written, fs') ∧ file.Ready fs' ∧
      fs.SameMaps fs' ∧ (∀ s, s ∉ file.data → fs'.view s = fs.view s) ∧
      (written = true → file.Synced fs') ∧
      (fs.MemoryOk → written = true ∧ fs'.MemoryOk) := by
  have hpos := hready.nonempty
  have hroom := hready.room
  have hfits := file.fits
  have hlength := file.inode.data.length.toInt_lt
  have hsize : (Int32.ofNat (bitmapFileSize fs.freeMap)).toInt =
      bitmapFileSize fs.freeMap :=
    Int32.toInt_ofNat_of_lt (by omega)
  generalize hsame : Int32.ofNat (bitmapFileSize fs.freeMap) = size at hsize
  have hlast : (0 + size - 1 : Int32).toInt = size.toInt - 1 := by
    rw [Int32.toInt_sub, Int32.zero_add]
    exact Int.bmod_eq_of_le (by change _ ≤ _ - 1; omega)
      (by change _ - 1 < _; omega)
  have hprobe : (byteToSector fs.store file.inode.data (0 + size - 1)).1 ≠
      noSector := hready.probe_ne (by omega) (by omega)
  have hview := (byteToSector_spec fs.store file.inode.data (0 + size - 1)).1
  have hopen : ({ fs with memory := fs.memory.tail } : FileSys σ).openInodes
      freeMapSector = some file.inode := hready.opened
  rw [bitmapWrite_eq hready.freeMapFile, hsame,
    inodeWriteAtWith_inside hopen file.writable hprobe, Option.bind_some]
  generalize byteToSector fs.store file.inode.data (0 + size - 1) = probe at hview ⊢
  have hzero : (0 : Int32).toInt = 0 := rfl
  obtain ⟨n, hn, hall, -, hres, hover⟩ := writeLoop_spec probe.2
    file.inode.data (bitmapByte fs.freeMap) fs.nextMemory size 0 0 (by omega)
    (by omega) (by omega) hfits (by omega) (by omega)
  have hover := hover file.inode.data.blocks file.blocks_le
    file.inode.data.length_le_blocks (by rw [hview]; exact hready.nodup_sectors)
  rw [hview] at hover
  generalize writeLoop probe.2 file.inode.data (bitmapByte fs.freeMap)
    fs.nextMemory size 0 0 = result at hres hover
  have hfull : n = size.toInt.toNat → result.1 = size := fun h => by
    rw [← Int32.toInt_inj, hres]
    omega
  refine ⟨_, _, rfl, ⟨hready.freeMapFile, hready.opened, hready.nonempty,
      hready.room, ?_, fun k hk => ?_⟩, ⟨rfl, rfl, rfl, rfl⟩, fun s hs => ?_,
    fun hwritten j hj => ?_, fun hmemory => ⟨?_, fun m hm => ?_⟩⟩
  · exact (hover.sectors_eq hready.nodup_sectors file.blocks_le).trans hready.sectors
  · exact (hover.block_eq hready.nodup_sectors file.blocks_le hk).trans
      (hready.block k hk)
  · refine hover.frame s fun k hk heq => hs ?_
    rw [heq]
    change file.inode.data.block fs.kids k ∈ _
    rw [hready.block k hk]
    exact List.mem_map_of_mem (List.mem_range.mpr hk)
  · change j < bitmapFileSize fs.freeMap at hj
    have hcount : n = bitmapFileSize fs.freeMap := by
      rw [beq_iff_eq] at hwritten
      rw [hwritten] at hres
      omega
    have hlt := hready.div_lt hj
    have hbyte := hover.bytes j ((Nat.div_lt_iff_lt_mul (by decide)).mp hlt)
    have hzero' : (0 : Int32).toInt.toNat = 0 := rfl
    rw [hzero', Nat.zero_add, Nat.sub_zero, if_pos ⟨Nat.zero_le j, by omega⟩] at hbyte
    simp only [Nat.zero_add] at hbyte
    exact hbyte
  · rw [beq_iff_eq]
    apply hfull
    apply hall
    rw [FileSys.nextMemory]
    cases hlist : fs.memory with
    | nil => rfl
    | cons m rest => exact hmemory m (hlist ▸ List.mem_cons_self)
  · exact hmemory m (List.mem_of_mem_tail hm)

/-- Writing the bitmap back is all that the allocator relies on. -/
theorem flushSpec (file : FreeMapFile) :
    FlushSpec (bitmapWrite (σ := σ)) file.Ready file.Synced file.own
      file.data where
  subset := file.data_subset
  mono _ _ _ := bitmapWrite_mono
  flush fs hready := by
    obtain ⟨written, fs', hrun, hrest⟩ := hready.bitmapWrite_spec
    refine ⟨written, fs', ?_, hrest⟩
    rw [flushFreeMap, hready.freeMapFile]
    exact hrun
  ready_congr _ _ hready hlength hfile hopen hview :=
    hready.congr hlength hfile (congrFun hopen _) hview
  synced_congr _ _ hready hsynced hmap _ _ hview :=
    hready.synced_congr hsynced hmap hview

end FreeMapFile

/-- Before the free map file is open, nothing is written back. -/
theorem flushSpec_none {σ : Type} [SectorStore σ BlockSector Block] :
    FlushSpec (bitmapWrite (σ := σ)) (fun fs => fs.freeMapFile = none)
      (fun _ => True) [] [] where
  subset := List.Subset.refl _
  mono _ _ _ := bitmapWrite_mono
  flush fs hready := by
    refine ⟨true, fs, ?_, hready, ⟨rfl, rfl, rfl, rfl⟩, fun _ _ => rfl,
      fun _ => trivial, fun hmemory => ⟨rfl, hmemory⟩⟩
    rw [flushFreeMap, hready]
    rfl
  ready_congr _ _ hready _ hfile _ _ := hfile.trans hready
  synced_congr _ _ _ _ _ _ _ _ := trivial

end PintosLabs
