/-
What `inode_write_at` does to a file in order: the file grows, on freshly
allocated sectors, to the end of what is written, and the bytes written are
the only ones that change.
-/
import PintosLabs.FreeMapFile

namespace PintosLabs

variable {σ : Type} [SectorStore σ BlockSector Block]

/-! What growing means for the blocks of the file. -/

section Grown

variable {ready synced : FileSys σ → Prop} {own data : List BlockSector}
  {fs fs' : FileSys σ} {id id' : InodeDisk} {w w' : Nat}
  {new : List BlockSector}
  (hgrown : PartsGrown ready synced own data fs fs' id id' w (indirectShare w)
    (doublyShare w) w' (indirectShare w') (doublyShare w') new)
include hgrown

theorem PartsGrown.block_keep {k : Nat} (hk : k < w) :
    id'.block fs'.kids k = id.block fs.kids k ∧
      fs'.view (id.block fs.kids k) = fs.view (id.block fs.kids k) := by
  unfold InodeDisk.block
  split
  case isTrue h =>
    refine (hgrown.direct ⟨k, h⟩).keep 0 ?_
    simp only [share]
    omega
  split
  case isTrue h h' =>
    exact hgrown.indirect.keep _ (indirect_lt hk (Nat.le_of_not_lt h) h')
  case isFalse h h' =>
    exact hgrown.doubly.keep _ (doubly_lt hk (Nat.le_of_not_lt h'))

theorem PartsGrown.block_zero {k : Nat} (hk : w ≤ k) (hk' : k < w') :
    fs'.view (id'.block fs'.kids k) = zeros := by
  unfold InodeDisk.block
  split
  case isTrue h =>
    refine (hgrown.direct ⟨k, h⟩).zero 0 ?_ ?_ <;>
      simp only [share] <;> omega
  split
  case isTrue h h' =>
    refine hgrown.indirect.zero _ ?_ (indirect_lt hk' (Nat.le_of_not_lt h) h')
    unfold indirectShare
    omega
  case isFalse h h' =>
    refine hgrown.doubly.zero _ ?_ (doubly_lt hk' (Nat.le_of_not_lt h'))
    unfold doublyShare
    omega

/-- The old bytes stay, the new ones are zero. -/
theorem PartsGrown.fileByte_eq {p : Nat} (hp : p < w' * blockSectorSize) :
    fileByte fs'.view id' p =
      if p < w * blockSectorSize then fileByte fs.view id p else 0 := by
  have hpos : 0 < blockSectorSize := by decide
  have hblock : p / blockSectorSize < w' := (Nat.div_lt_iff_lt_mul hpos).mpr hp
  split
  case isTrue hold =>
    obtain ⟨hsame, hview⟩ :=
      hgrown.block_keep ((Nat.div_lt_iff_lt_mul hpos).mpr hold)
    rw [fileByte, fileByte]
    change fs'.view (id'.block fs'.kids _) _ = fs.view (id.block fs.kids _) _
    rw [hsame, hview]
  case isFalse hnew =>
    have hw : w ≤ p / blockSectorSize :=
      Nat.le_of_not_lt fun h => hnew ((Nat.div_lt_iff_lt_mul hpos).mp h)
    have hzero := hgrown.block_zero hw hblock
    rw [fileByte]
    change fs'.view (id'.block fs'.kids _) _ = _
    rw [hzero]
    rfl

end Grown

/-! Files in order. -/

/-- A file in order: its index covers the blocks that its length needs and no
others, and its sectors are used for nothing else. -/
structure FileReady (own : List BlockSector) (fs : FileSys σ)
    (sector : BlockSector) (id : InodeDisk) : Prop where
  parts : PartsReady own fs id id.blocks (indirectShare id.blocks)
    (doublyShare id.blocks)
  length_nonneg : 0 ≤ id.length.toInt
  blocks_le : id.blocks ≤ maxBlocks
  used : fs.Used sector
  foreign : sector ∉ own
  apart : sector ∉ id.sectors fs.kids id.blocks

section Ready

variable {own : List BlockSector} {fs fs' : FileSys σ} {sector : BlockSector}
  {id id' : InodeDisk}

theorem FileReady.fits (hfile : FileReady own fs sector id) : id.Fits :=
  InodeDisk.fits_of_blocks_le hfile.blocks_le

theorem FileReady.nodup (hfile : FileReady own fs sector id) :
    (id.sectors fs.kids id.blocks).Nodup :=
  hfile.parts.nodup

/-- The parts of a file stay in order while its indexes do. -/
theorem PartsReady.congr {w : Nat}
    (hparts : PartsReady own fs id w (indirectShare w) (doublyShare w))
    (hkids : ∀ s ∈ id.indexSectors fs.kids w, fs'.kids s = fs.kids s)
    (hused : ∀ s ∈ id.sectors fs.kids w, fs'.Used s) :
    PartsReady own fs' id w (indirectShare w) (doublyShare w) := by
  have hsectors : id.sectors fs'.kids w = id.sectors fs.kids w :=
    InodeDisk.sectors_congr hkids
  have hmem : ∀ s, s ∈ id.sectors fs'.kids w ↔ s ∈ id.sectors fs.kids w :=
    fun s => by rw [hsectors]
  refine ⟨hparts.direct, ?_, ?_, ?_, fun s hs => hused s ((hmem s).mp hs),
    fun s hs => hparts.foreign s ((hmem s).mp hs)⟩
  · exact hparts.indirect.congr fun s hs =>
      hkids s (List.mem_append_left _ hs)
  · exact hparts.doubly.congr fun s hs =>
      hkids s (List.mem_append_right _ hs)
  · exact (congrArg List.Nodup hsectors).mpr hparts.nodup

theorem FileReady.used_of_mem (hfile : FileReady own fs sector id) :
    ∀ s ∈ sector :: id.sectors fs.kids id.blocks, fs.Used s :=
  List.forall_mem_cons.mpr ⟨hfile.used, hfile.parts.used⟩

/-- A file stays in order while its indexes do. -/
theorem FileReady.congr (hfile : FileReady own fs sector id)
    (hkids : ∀ s ∈ id.indexSectors fs.kids id.blocks, fs'.kids s = fs.kids s)
    (hused : ∀ s ∈ sector :: id.sectors fs.kids id.blocks, fs'.Used s) :
    FileReady own fs' sector id := by
  have hsectors : id.sectors fs'.kids id.blocks =
      id.sectors fs.kids id.blocks := InodeDisk.sectors_congr hkids
  have hmem : sector ∈ id.sectors fs'.kids id.blocks ↔
      sector ∈ id.sectors fs.kids id.blocks := by rw [hsectors]
  exact ⟨hfile.parts.congr hkids fun s hs => hused s (List.mem_cons_of_mem _ hs),
    hfile.length_nonneg, hfile.blocks_le, hused _ List.mem_cons_self,
    hfile.foreign,
    hmem.not.mpr hfile.apart⟩

/-- Every byte of the file has a sector. -/
theorem FileReady.probe_ne (hfile : FileReady own fs sector id)
    (hlength : fs.freeMap.length < 2 ^ 32) {pos : Int32} (hpos : 0 ≤ pos.toInt)
    (hlt : pos.toInt < id.length.toInt) :
    (byteToSector fs.store id pos).1 ≠ noSector := by
  have hsector := (byteToSector_spec fs.store id pos).2.1
    (hfile.fits.holds hpos hlt)
  have hblock : pos.toInt.toNat / blockSectorSize < id.blocks := by
    have hle := id.length_le_blocks
    rw [Nat.div_lt_iff_lt_mul (by decide)]
    have hlt' : (pos.toInt.toNat : Int) < id.blocks * blockSectorSize := by
      rw [Int.toNat_of_nonneg hpos]
      exact hlt.trans_le hle
    exact_mod_cast hlt'
  have hused := hfile.parts.used _ (InodeDisk.block_mem hfile.blocks_le hblock)
  rw [hsector]
  exact hused.ne_noSector hlength

end Ready

/-! A write. -/

/-- The file has grown, on the sectors `new`, and of its bytes those from
`offset` on, as many as `n`, are now `bytes`.  The table of open inodes is left
out of this. -/
structure FileWritten (ready synced : FileSys σ → Prop)
    (own data : List BlockSector) (fs fs' : FileSys σ) (sector : BlockSector)
    (id id' : InodeDisk) (offset n : Nat) (bytes : Nat → UInt8)
    (new : List BlockSector) : Prop where
  file : FileReady own fs' sector id'
  alloc : Allocated ready synced own data fs fs' new
    (sector :: id'.sectors fs'.kids id'.blocks)
  perm : (id'.sectors fs'.kids id'.blocks).Perm
    (id.sectors fs.kids id.blocks ++ new)
  magic : id'.magic = id.magic
  stored : fs.view sector = id.toBlock → fs'.view sector = id'.toBlock
  bytes : ∀ p < id'.blocks * blockSectorSize, fileByte fs'.view id' p =
    if offset ≤ p ∧ p < offset + n then bytes (p - offset)
    else if p < id.blocks * blockSectorSize then fileByte fs.view id p else 0

/-- A file that has grown is written within its new length. -/
theorem FileWritten.trans {ready synced : FileSys σ → Prop}
    {own data : List BlockSector} {fs fs₁ fs₂ : FileSys σ}
    {sector : BlockSector} {id id' : InodeDisk} {offset n : Nat}
    {bytes : Nat → UInt8} {new : List BlockSector}
    (h₁ : FileWritten ready synced own data fs fs₁ sector id id' 0 0 bytes new)
    (h₂ : FileWritten ready synced own data fs₁ fs₂ sector id' id' offset n
      bytes []) :
    FileWritten ready synced own data fs fs₂ sector id id' offset n bytes new := by
  have hperm := h₂.perm
  rw [List.append_nil] at hperm
  have halloc := h₁.alloc.trans h₂.alloc
  rw [List.append_nil] at halloc
  refine ⟨h₂.file, halloc.mono (List.append_subset.mpr
    ⟨List.cons_subset_cons _ hperm.symm.subset, List.Subset.refl _⟩),
    hperm.trans h₁.perm, h₁.magic, fun h => h₂.stored (h₁.stored h),
    fun p hp => ?_⟩
  have hnone : ¬ (0 ≤ p ∧ p < 0 + 0) := fun h => Nat.not_lt_zero p h.2
  rw [h₂.bytes p hp, h₁.bytes p hp, if_pos hp, if_neg hnone]

/-- What only reads through the cache before the write makes no difference. -/
theorem FileWritten.after_read {ready synced : FileSys σ → Prop}
    {own data : List BlockSector} {fs fs₁ fs₂ : FileSys σ}
    {sector : BlockSector} {id id' : InodeDisk} {offset n : Nat}
    {bytes : Nat → UInt8} {new : List BlockSector}
    (hread : Allocated ready synced own data fs fs₁ [] [])
    (hview : fs₁.view = fs.view)
    (h : FileWritten ready synced own data fs₁ fs₂ sector id id' offset n bytes
      new) :
    FileWritten ready synced own data fs fs₂ sector id id' offset n bytes new := by
  have hkids : fs₁.kids = fs.kids := by
    funext s
    rw [FileSys.kids, hview, FileSys.kids]
  have hperm := h.perm
  have hstored := h.stored
  have hbytes := h.bytes
  rw [hkids] at hperm
  rw [hview] at hstored hbytes
  exact ⟨h.file, hread.trans h.alloc, hperm, h.magic, hstored, hbytes⟩

section Write

variable {bitmapWrite : FileSys σ → Option (Bool × FileSys σ)}
  {ready synced : FileSys σ → Prop} {own data : List BlockSector}
  {fs : FileSys σ} {sector : BlockSector} {id : InodeDisk}
  (hspec : FlushSpec bitmapWrite ready synced own data)
include hspec

/-- The loop of a write within the file. -/
theorem FlushSpec.writeLoop_written (hfs : AllocReady ready own fs)
    (hfile : FileReady own fs sector id) (buffer : Nat → UInt8) (memory : Bool)
    {size offset : Int32} (hsize : 0 < size.toInt) (hoffset : 0 ≤ offset.toInt)
    (hend : offset.toInt + size.toInt ≤ id.length.toInt) {st : σ}
    (hst : SectorStore.view st = fs.view) :
    ∃ n : Nat, n ≤ size.toInt.toNat ∧ (memory = true → n = size.toInt.toNat) ∧
      (writeLoop st id buffer memory size offset 0).1.toInt = n ∧
      FileWritten ready synced own data fs
        { fs with store := (writeLoop st id buffer memory size offset 0).2 }
        sector id id offset.toInt.toNat n buffer [] := by
  have hzero : (0 : Int32).toInt = 0 := rfl
  have hlt := size.toInt_lt
  obtain ⟨n, hn, hall, -, hres, hover⟩ := writeLoop_spec st id buffer memory
    size offset 0 (Int.le_of_lt hsize) hoffset hend hfile.fits (by omega)
    (by omega)
  have hover := hover id.blocks hfile.blocks_le id.length_le_blocks
    (by rw [hst]; exact hfile.nodup)
  rw [hst] at hover
  generalize writeLoop st id buffer memory size offset 0 = result at hres hover
  have hkids := hover.kids hfile.nodup hfile.blocks_le
  have hsectors : id.sectors (kidsOf (SectorStore.view result.2)) id.blocks =
      id.sectors fs.kids id.blocks :=
    hover.sectors_eq hfile.nodup hfile.blocks_le
  have hblocks : ∀ s, s ∉ id.sectors fs.kids id.blocks →
      SectorStore.view result.2 s = fs.view s := fun s hs =>
    hover.frame s fun k hk heq =>
      hs (heq ▸ InodeDisk.block_mem hfile.blocks_le hk)
  have halloc : Allocated ready synced own data fs { fs with store := result.2 }
      [] (id.sectors fs.kids id.blocks) :=
    hspec.rewrite hfs hfile.parts.foreign hblocks
  refine ⟨n, hn, hall, by omega, hfile.congr hkids hfile.used_of_mem, ?_, ?_, rfl,
    fun h => ?_, fun p hp => ?_⟩
  · change Allocated _ _ _ _ _ _ _ (sector :: id.sectors
      (kidsOf (SectorStore.view result.2)) id.blocks)
    rw [hsectors]
    exact halloc.mono (List.subset_cons_self _ _)
  · change (id.sectors (kidsOf (SectorStore.view result.2)) id.blocks).Perm _
    rw [hsectors, List.append_nil]
  · exact (hblocks sector hfile.apart).trans h
  · have hbyte := hover.bytes p hp
    rw [if_pos hp]
    simp only [hzero, Int.toNat_zero, Nat.zero_add] at hbyte
    exact hbyte

/-- The growth of a file: `inode_allocate` for the new length, and the inode
written to its sector. -/
theorem FlushSpec.inodeAllocate_written (hfs : AllocReady ready own fs)
    (hfile : FileReady own fs sector id) {length : Int32}
    (hle : id.length.toInt ≤ length.toInt)
    (hmax : bytesToSectors length.toInt.toNat blockSectorSize ≤ maxBlocks)
    (buffer : Nat → UInt8) :
    (∃ id' fs' new,
      inodeAllocate bitmapWrite { id with length := length } fs =
        some (true, id', fs') ∧ id'.length = length ∧
      sectorsFor id'.blocks = sectorsFor id.blocks + new.length ∧
      FileWritten ready synced own data fs (fs'.cacheWrite sector id'.toBlock)
        sector id id' 0 0 buffer new) ∨
    (¬ fs.Room (sectorsFor id.blocks)
        (sectorsFor (bytesToSectors length.toInt.toNat blockSectorSize)) ∧
      ∀ success id' fs',
        inodeAllocate bitmapWrite { id with length := length } fs =
          some (success, id', fs') → fs.allocFailures < fs'.allocFailures) := by
  have hnonneg := hfile.length_nonneg
  have hblocks : id.blocks ≤ ({ id with length := length } : InodeDisk).blocks :=
    InodeDisk.blocks_mono hle
  have hparts : PartsReady own fs { id with length := length } id.blocks
      (indirectShare id.blocks) (doublyShare id.blocks) :=
    ⟨hfile.parts.direct, hfile.parts.indirect, hfile.parts.doubly,
      hfile.parts.nodup, hfile.parts.used, hfile.parts.foreign⟩
  have hspec' := hspec.inodeAllocate_spec hfs hparts
    (by rw [Int32.le_iff_toInt_le]; exact hnonneg.trans hle) hmax
  rw [Nat.max_eq_right hblocks] at hspec'
  rcases hspec' with
    ⟨id', fs', new, hrun, hlength, hmagic, hsize, hgrown⟩ | hfail
  · have hsame : id'.blocks = ({ id with length := length } : InodeDisk).blocks := by
      rw [InodeDisk.blocks, hlength, InodeDisk.blocks]
    rw [← hsame] at hgrown hsize hblocks
    refine Or.inl ⟨id', fs', new, hrun, hlength, hsize, ?_⟩
    have hparts' := hgrown.partsReady hfs hparts
    have hperm : (id'.sectors fs'.kids id'.blocks).Perm
        (id.sectors fs.kids id.blocks ++ new) := hgrown.perm
    have hapart : sector ∉ id'.sectors fs'.kids id'.blocks := by
      intro hmem
      rcases List.mem_append.mp (hperm.mem_iff.mp hmem) with hmem | hmem
      · exact hfile.apart hmem
      · exact hgrown.alloc.free sector hmem hfile.used
    have hfile' : FileReady own fs' sector id' :=
      ⟨hparts', by rw [hlength]; exact hnonneg.trans hle, hsame ▸ hmax,
        hgrown.alloc.used_mono hfile.used, hfile.foreign, hapart⟩
    have hview : ∀ s ∈ id'.sectors fs'.kids id'.blocks,
        (fs'.cacheWrite sector id'.toBlock).view s = fs'.view s := fun s hs => by
      rw [FileSys.cacheWrite_view, Function.update_of_ne]
      exact fun heq => hapart (heq ▸ hs)
    have hkids : ∀ s ∈ id'.indexSectors fs'.kids id'.blocks,
        (fs'.cacheWrite sector id'.toBlock).kids s = fs'.kids s := fun s hs => by
      rw [FileSys.kids, hview s (InodeDisk.indexSectors_subset hs), FileSys.kids]
    have hsectors := InodeDisk.sectors_congr hkids
    have halloc := hgrown.alloc.trans
      (hspec.write hgrown.alloc.ready hfile.foreign id'.toBlock)
    rw [List.append_nil] at halloc
    refine ⟨hfile'.congr hkids hfile'.used_of_mem, halloc.mono ?_, ?_, hmagic,
      fun _ => ?_, fun p hp => ?_⟩
    · rw [hsectors]
      exact fun s hs => List.mem_cons.mpr ((List.mem_append.mp hs).symm.imp
        List.mem_singleton.mp fun h => h)
    · rw [hsectors]
      exact hperm
    · rw [FileSys.cacheWrite_view, Function.update_self]
    · rw [fileByte_congr hview (hsame ▸ hmax) hp, hgrown.fileByte_eq hp]
      symm
      exact if_neg fun h => Nat.not_lt_zero p h.2
  · exact Or.inr hfail

/-- `inode_write_at` with something to write: the file reaches to the end of
the write, and as much is written as there is memory for; or an allocation
fails for want of room. -/
theorem FlushSpec.inodeWriteAtWith_spec (hfs : AllocReady ready own fs)
    {inode : Inode} (hopen : fs.openInodes sector = some inode)
    (hsector : inode.sector = sector) (hdeny : inode.denyWriteCnt = 0)
    (hfile : FileReady own fs sector inode.data) (buffer : Nat → UInt8)
    (memory : Bool) {size offset : Int32} (hsize : 0 < size.toInt)
    (hoffset : 0 ≤ offset.toInt)
    (hmax : offset.toInt + size.toInt ≤ maxBlocks * blockSectorSize) :
    (∃ (written : Int32) (mid : FileSys σ) (id' : InodeDisk) (n : Nat)
        (new : List BlockSector),
      inodeWriteAtWith bitmapWrite sector buffer size offset memory fs =
        some (written, mid.setInode sector (some { inode with data := id' })) ∧
      written.toInt = n ∧ n ≤ size.toInt.toNat ∧
      (memory = true → n = size.toInt.toNat) ∧
      id'.length.toInt = max inode.data.length.toInt
        (offset.toInt + size.toInt) ∧
      sectorsFor id'.blocks = sectorsFor inode.data.blocks + new.length ∧
      FileWritten ready synced own data fs mid sector inode.data id'
        offset.toInt.toNat n buffer new) ∨
    (¬ fs.Room (sectorsFor inode.data.blocks) (sectorsFor (bytesToSectors
        (offset.toInt + size.toInt).toNat blockSectorSize)) ∧
      FailsMore fs
        (inodeWriteAtWith bitmapWrite sector buffer size offset memory fs)) := by
  rw [maxBlocks_mul] at hmax
  obtain ⟨hsum, hlast⟩ :=
    writeEnd_toInt (Int.le_of_lt hsize) hoffset (by omega)
  obtain ⟨hview, -, hnone⟩ :=
    byteToSector_spec fs.store inode.data (offset + size - 1)
  have hsame : Function.update fs.openInodes sector (some inode) =
      fs.openInodes := by
    rw [← hopen, Function.update_eq_self]
  by_cases hinside : offset.toInt + size.toInt ≤ inode.data.length.toInt
  · have hprobe : (byteToSector fs.store inode.data (offset + size - 1)).1 ≠
        noSector := hfile.probe_ne hfs.length_lt (by omega) (by omega)
    obtain ⟨n, hn, hall, hres, hwritten⟩ := hspec.writeLoop_written hfs hfile
      buffer memory hsize hoffset hinside hview
    refine Or.inl ⟨_, _, inode.data, n, [], ?_, hres, hn, hall,
      (max_eq_left hinside).symm, (Nat.add_zero _).symm, hwritten⟩
    rw [inodeWriteAtWith_inside hopen hdeny hprobe, FileSys.setInode, hsame]
  · have hprobe := hnone fun h =>
      hinside (Int.le_of_sub_one_lt (hlast ▸ h.2.1))
    rw [inodeWriteAtWith_grow hopen hdeny hprobe]
    generalize (byteToSector fs.store inode.data (offset + size - 1)).2 = st at *
    have hread : Allocated ready synced own data fs { fs with store := st } []
        [] := hspec.rewrite hfs (by simp) fun s _ => congrFun hview s
    have hfile₀ : FileReady own { fs with store := st } sector inode.data :=
      hfile.congr (fun s _ => congrArg wordsOf (congrFun hview s))
        hfile.used_of_mem
    have hle : inode.data.length.toInt ≤ (offset + size).toInt := by omega
    have hblocks : bytesToSectors (offset + size).toInt.toNat blockSectorSize ≤
        maxBlocks := by
      rw [bytesToSectors_le_iff (by decide), hsum]
      change _ ≤ 8517632
      omega
    rw [← hsum]
    rcases hspec.inodeAllocate_written hread.ready hfile₀ hle hblocks buffer with
      ⟨id', fs₁, new, hrun, hlength, hcount, hgrown⟩ | ⟨hfull, hfail⟩
    · obtain ⟨n, hn, hall, hres, hwritten⟩ := hspec.writeLoop_written
        hgrown.alloc.ready hgrown.file buffer memory hsize hoffset
        (by rw [hlength, hsum]) rfl
      have hid : { id' with length := offset + size } = id' := by
        rw [← hlength]
      refine Or.inl ⟨_, _, id', n, new, ?_, hres, hn, hall, ?_, hcount,
        (hgrown.trans hwritten).after_read hread hview⟩
      · rw [hrun, Option.bind_some]
        simp only [↓reduceIte, hid, hsector]
        rfl
      · rw [hlength]
        omega
    · refine Or.inr ⟨hfull, fun written fs' hrun => ?_⟩
      obtain ⟨⟨success, id', fs₁⟩, halloc, hrest⟩ :=
        Option.bind_eq_some_iff.mp hrun
      refine Nat.lt_of_lt_of_le (hfail _ _ _ halloc) (Nat.le_of_eq ?_)
      cases success <;>
        · simp only [Bool.false_eq_true, ↓reduceIte, Option.some.injEq,
            Prod.mk.injEq] at hrest
          rw [← hrest.2]
          rfl

end Write

/-! Writing nothing. -/

section Empty

variable {bitmapWrite : FileSys σ → Option (Bool × FileSys σ)} {fs : FileSys σ}

omit [SectorStore σ BlockSector Block] in
theorem int32_eq_zero {x : Int32} (h : x.toInt = 0) : x = 0 :=
  Int32.toInt_inj.mp h

/-- An inode without length needs no sectors. -/
theorem inodeAllocate_zero (id : InodeDisk) (hlength : id.length = 0) :
    inodeAllocate bitmapWrite id fs = some (true, id, fs) := by
  have hneg : ¬ id.length < 0 := by
    rw [hlength]
    decide
  have hblocks : bytesToSectors id.length.toInt.toNat blockSectorSize = 0 := by
    rw [hlength]
    rfl
  simp only [inodeAllocate, if_neg hneg, hblocks, Nat.zero_min, List.take_zero,
    allocateEntries, ↓reduceIte, Option.bind_eq_bind, Option.bind_some,
    allocateIndirect, Nat.sub_self]

/-- A write of nothing changes nothing that is seen, where its probe finds a
sector or the file is as empty as the write. -/
theorem inodeWriteAtWith_empty {sector : BlockSector} {inode : Inode}
    {buffer : Nat → UInt8} {size offset : Int32} {memory : Bool}
    (hopen : fs.openInodes sector = some inode)
    (hsector : inode.sector = sector) (hdeny : inode.denyWriteCnt = 0)
    (hstored : fs.view sector = inode.data.toBlock) (hsize : size.toInt = 0)
    (hcase : offset.toInt = 0 ∧ inode.data.length.toInt = 0 ∨
      0 ≤ offset.toInt ∧ 0 ≤ inode.data.length.toInt ∧
        (byteToSector fs.store inode.data (offset + size - 1)).1 ≠ noSector) :
    ∃ st, inodeWriteAtWith bitmapWrite sector buffer size offset memory fs =
        some (0, { fs with store := st }) ∧ SectorStore.view st = fs.view := by
  have hview := (byteToSector_spec fs.store inode.data (offset + size - 1)).1
  rcases hcase with ⟨hoffset, hlength⟩ | ⟨hoffset, hlength, hprobe⟩
  · have hoff := int32_eq_zero hoffset
    have hsz := int32_eq_zero hsize
    have hlen := int32_eq_zero hlength
    subst hoff hsz
    have hprobe : (byteToSector fs.store inode.data (0 + 0 - 1)).1 =
        noSector := rfl
    have hdata : { inode.data with length := 0 + 0 } = inode.data :=
      (congrArg (fun l => { inode.data with length := l }) hlen.symm).trans rfl
    have hsame : Function.update fs.openInodes sector (some inode) =
        fs.openInodes := by
      rw [← hopen, Function.update_eq_self]
    subst hsector
    obtain ⟨hres, hloop⟩ := writeLoop_stop (SectorStore.write
        (byteToSector fs.store inode.data (0 + 0 - 1)).2 inode.sector
        inode.data.toBlock) inode.data buffer memory 0 hlength.ge hoffset.ge
      (Or.inl hsize.le)
    refine ⟨_, ?_, hloop.trans ?_⟩
    · rw [inodeWriteAtWith_grow hopen hdeny hprobe, hdata,
        inodeAllocate_zero _ hlen, Option.bind_some]
      simp only [↓reduceIte, hdata, FileSys.cacheWrite, FileSys.setInode]
      rw [hres]
      exact congrArg (fun inodes => some ((0 : Int32),
        ({ fs with store := _, openInodes := inodes } : FileSys σ))) hsame
    · rw [SectorStore.view_write, hview, ← hstored]
      exact Function.update_eq_self _ _
  · obtain ⟨hres, hloop⟩ := writeLoop_stop
      (byteToSector fs.store inode.data (offset + size - 1)).2 inode.data buffer
      memory 0 hlength hoffset (Or.inl hsize.le)
    refine ⟨_, ?_, hloop.trans hview⟩
    rw [inodeWriteAtWith_inside hopen hdeny hprobe, hres]

end Empty

/-! A new file. -/

/-- The inode that `inode_create` starts from. -/
def emptyInode : InodeDisk :=
  { InodeDisk.ofBlock zeros with length := 0, magic := inodeMagic }

theorem emptyInode_blocks : emptyInode.blocks = 0 := by decide

theorem emptyInode_sectors (kids : BlockSector → Words) :
    emptyInode.sectors kids emptyInode.blocks = [] := by
  have hindirect : indirectShare 0 = 0 := rfl
  have hdoubly : doublyShare 0 = 0 := rfl
  rw [InodeDisk.sectors, emptyInode_blocks, hindirect, hdoubly,
    InodeDisk.partSectors, forestSectors_zero, treeSectors_zero,
    treeSectors_zero]
  rfl

/-- The inode that `inode_create` starts from has no blocks. -/
theorem PartsReady.empty {own : List BlockSector} {fs : FileSys σ} :
    PartsReady own fs emptyInode emptyInode.blocks
      (indirectShare emptyInode.blocks) (doublyShare emptyInode.blocks) := by
  have hnil := emptyInode_sectors fs.kids
  rw [InodeDisk.sectors, emptyInode_blocks] at hnil
  rw [emptyInode_blocks]
  refine ⟨fun i => ?_, treeOk_zero 1, treeOk_zero 2, ?_, ?_, ?_⟩
  · rw [share_zero]
    exact treeOk_zero 0
  · rw [hnil]
    exact List.nodup_nil
  · simp [hnil]
  · simp [hnil]

theorem FileReady.empty {own : List BlockSector} {fs : FileSys σ}
    {sector : BlockSector} (hused : fs.Used sector) (hforeign : sector ∉ own) :
    FileReady own fs sector emptyInode := by
  refine ⟨PartsReady.empty, Int.le_refl 0, ?_, hused, hforeign, ?_⟩
  · rw [emptyInode_blocks]
    exact Nat.zero_le _
  · rw [emptyInode_sectors fs.kids]
    exact List.not_mem_nil

section Create

variable {ready synced : FileSys σ → Prop} {own data : List BlockSector}
  (hspec : FlushSpec (bitmapWrite (σ := σ)) ready synced own data)
  {fs : FileSys σ} {sector : BlockSector}
include hspec

/-- `inode_create` on a sector that has been set aside for it. -/
theorem FlushSpec.inodeCreate_spec (hfs : AllocReady ready own fs)
    (hused : fs.Used sector) (hforeign : sector ∉ own) {length : Int32}
    (hlength : 0 ≤ length.toInt)
    (hmax : bytesToSectors length.toInt.toNat blockSectorSize ≤ maxBlocks)
    (buffer : Nat → UInt8) :
    (∃ id' fs' new, inodeCreate sector length true fs = some (true, fs') ∧
      id'.length = length ∧ sectorsFor id'.blocks = new.length ∧
      fs'.view sector = id'.toBlock ∧
      FileWritten ready synced own data fs fs' sector emptyInode id' 0 0 buffer
        new) ∨
    (¬ fs.Room 0
        (sectorsFor (bytesToSectors length.toInt.toNat blockSectorSize)) ∧
      FailsMore fs (inodeCreate sector length true fs)) := by
  have hneg : ¬ length < 0 := by
    rw [Int32.lt_iff_toInt_lt]
    exact Int.not_lt.mpr hlength
  have hrun : inodeCreate sector length true fs =
      (inodeAllocate bitmapWrite { emptyInode with length := length } fs).bind
        fun made =>
          if made.1 then some (true, made.2.2.cacheWrite sector made.2.1.toBlock)
          else some (false, made.2.2) := by
    rw [inodeCreate, if_neg hneg]
    rfl
  have hspec' := hspec.inodeAllocate_written hfs
    (FileReady.empty hused hforeign) hlength hmax buffer
  rw [emptyInode_blocks, sectorsFor_zero] at hspec'
  rw [hrun]
  rcases hspec' with ⟨id', fs', new, halloc, hid, hsize, hrest⟩ | ⟨hfull, hfail⟩
  · refine Or.inl ⟨id', _, new, ?_, hid, hsize.trans (Nat.zero_add _), ?_, hrest⟩
    · rw [halloc]
      rfl
    · rw [FileSys.cacheWrite_view, Function.update_self]
  · refine Or.inr ⟨hfull, fun created fs' h => ?_⟩
    obtain ⟨⟨success, id', fs₁⟩, halloc, h⟩ := Option.bind_eq_some_iff.mp h
    refine Nat.lt_of_lt_of_le (hfail _ _ _ halloc) (Nat.le_of_eq ?_)
    cases success with
    | true =>
        simp only [↓reduceIte, Option.some.injEq, Prod.mk.injEq] at h
        rw [← h.2]
        rfl
    | false =>
        simp only [Bool.false_eq_true, ↓reduceIte, Option.some.injEq,
          Prod.mk.injEq] at h
        rw [h.2]

end Create

end PintosLabs
