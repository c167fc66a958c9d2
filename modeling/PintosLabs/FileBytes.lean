/-
The bytes of a file, and what the loops of `inode_read_at` and
`inode_write_at` do with them, chunk by chunk.
-/
import PintosLabs.FileBlocks

namespace PintosLabs

section Store

variable {σ : Type} [SectorStore σ BlockSector Block]

/-! Chunks: the part of what is left to do that lies in one sector. -/

theorem blockSectorSize_eq : blockSectorSize = 512 := rfl

theorem int32_pos_iff {x : Int32} : 0 < x ↔ 0 < x.toInt := by
  rw [Int32.lt_iff_toInt_lt, Int32.toInt_zero]

theorem int32_nonpos_iff {x : Int32} : x ≤ 0 ↔ x.toInt ≤ 0 := by
  rw [Int32.le_iff_toInt_le, Int32.toInt_zero]

/-- The offset of a position in its sector. -/
theorem sectorOfs_toInt {offset : Int32} (hoffset : 0 ≤ offset.toInt) :
    (offset % 512).toInt = offset.toInt % 512 := by
  rw [Int32.toInt_mod]
  exact Int.tmod_eq_emod_of_nonneg hoffset

/-- What is left of the sector of a position. -/
theorem sectorLeft_toInt {offset : Int32} (hoffset : 0 ≤ offset.toInt) :
    (512 - offset % 512 : Int32).toInt = 512 - offset.toInt % 512 := by
  rw [Int32.toInt_sub, sectorOfs_toInt hoffset]
  change Int.bmod (512 - _) _ = _
  exact Int.bmod_eq_of_le (by omega) (by omega)

theorem chunkSize_toInt {length offset : Int32} (size : Int32)
    (hlength : 0 ≤ length.toInt) (hoffset : 0 ≤ offset.toInt) :
    (chunkSize length size offset).toInt =
      min size.toInt
        (min (length.toInt - offset.toInt) (512 - offset.toInt % 512)) := by
  have hl := length.toInt_lt
  have ho := offset.toInt_lt
  have hleft : (length - offset).toInt = length.toInt - offset.toInt := by
    rw [Int32.toInt_sub]
    exact Int.bmod_eq_of_le (by omega) (by omega)
  simp only [chunkSize, Int32.lt_iff_toInt_lt, apply_ite Int32.toInt, hleft,
    sectorLeft_toInt hoffset]
  omega

/-- The byte at a position of the file. -/
def fileByte (view : BlockSector → Block) (id : InodeDisk) (p : Nat) : UInt8 :=
  view (id.block (kidsOf view) (p / blockSectorSize))
    ⟨p % blockSectorSize, Nat.mod_lt _ (by decide)⟩

theorem sectorBytes_eq (b : Block) {ofs n : Nat} (hle : ofs + n ≤ 512) :
    sectorBytes b ofs n = (List.range n).map fun i =>
      b ⟨(ofs + i) % blockSectorSize, Nat.mod_lt _ (by decide)⟩ := by
  have hlen : (sectorBytes b ofs n).length = n := by
    have hblock : (List.ofFn b).length = 512 := List.length_ofFn
    simp only [sectorBytes, List.length_take, List.length_drop, hblock]
    omega
  apply List.ext_getElem
  · rw [hlen, List.length_map, List.length_range]
  · intro i hi hi'
    rw [hlen] at hi
    have hmod : (ofs + i) % blockSectorSize = ofs + i :=
      Nat.mod_eq_of_lt (by rw [blockSectorSize_eq]; omega)
    simp only [sectorBytes, List.getElem_take, List.getElem_drop,
      List.getElem_ofFn, List.getElem_map, List.getElem_range, hmod]

theorem sectorBytes_full (b : Block) : sectorBytes b 0 512 = List.ofFn b := by
  have hblock : (List.ofFn b).length = 512 := List.length_ofFn
  rw [sectorBytes, List.drop_zero]
  exact List.take_of_length_le (Nat.le_of_eq hblock)

/-- Positions within one chunk lie in the sector of the first of them. -/
theorem fileByte_add (view : BlockSector → Block) (id : InodeDisk)
    {offset i : Nat} (hi : offset % 512 + i < 512) :
    fileByte view id (offset + i) =
      view (id.block (kidsOf view) (offset / blockSectorSize))
        ⟨(offset % 512 + i) % blockSectorSize, Nat.mod_lt _ (by decide)⟩ := by
  have hdiv : (offset + i) / blockSectorSize = offset / blockSectorSize := by
    rw [blockSectorSize_eq]
    omega
  have hmod : (offset + i) % blockSectorSize =
      (offset % 512 + i) % blockSectorSize := by
    rw [blockSectorSize_eq]
    omega
  simp only [fileByte, hdiv, hmod]

/-- The bytes of a file lie on its sectors. -/
theorem fileByte_congr {view view' : BlockSector → Block} {id : InodeDisk}
    {w p : Nat} (heq : ∀ s ∈ id.sectors (kidsOf view) w, view' s = view s)
    (hw : w ≤ maxBlocks) (hp : p < w * blockSectorSize) :
    fileByte view' id p = fileByte view id p := by
  have hk : p / blockSectorSize < w :=
    (Nat.div_lt_iff_lt_mul (by decide)).mpr hp
  have hkids : ∀ s ∈ id.indexSectors (kidsOf view) w,
      kidsOf view' s = kidsOf view s := fun s hs => by
    rw [kidsOf, kidsOf, heq s (InodeDisk.indexSectors_subset hs)]
  rw [fileByte, fileByte, InodeDisk.block_congr hkids hk,
    heq _ (InodeDisk.block_mem hw hk)]

/-- What both loops know of a chunk that is not empty. -/
structure ChunkOk (length size offset : Int32) (chunk : Int32) : Prop where
  pos : 0 < chunk.toInt
  le_size : chunk.toInt ≤ size.toInt
  le_left : chunk.toInt ≤ length.toInt - offset.toInt
  le_sector : offset.toInt % 512 + chunk.toInt ≤ 512
  size_sub : (size - chunk).toInt = size.toInt - chunk.toInt
  offset_add : (offset + chunk).toInt = offset.toInt + chunk.toInt
  full_iff : (offset % 512 = 0 ∧ chunk = 512) ↔ chunk.toInt = 512

theorem chunkSize_ok {length size offset : Int32} (hsize : 0 < size.toInt)
    (hoffset : 0 ≤ offset.toInt) (hlt : offset.toInt < length.toInt) :
    ChunkOk length size offset (chunkSize length size offset) := by
  have hchunk := chunkSize_toInt size
    (Int.le_trans hoffset (Int.le_of_lt hlt)) hoffset
  have hl := length.toInt_lt
  have hs := size.toInt_lt
  generalize chunkSize length size offset = chunk at hchunk
  refine ⟨by omega, by omega, by omega, by omega, ?_, ?_, ?_⟩
  · rw [Int32.toInt_sub]
    exact Int.bmod_eq_of_le (by omega) (by omega)
  · rw [Int32.toInt_add]
    exact Int.bmod_eq_of_le (by omega) (by omega)
  · rw [← Int32.toInt_inj, ← Int32.toInt_inj, sectorOfs_toInt hoffset]
    change offset.toInt % 512 = 0 ∧ chunk.toInt = 512 ↔ _
    omega

/-- The whole length of the file can be reached by its index. -/
def InodeDisk.Fits (id : InodeDisk) : Prop :=
  id.length.toInt ≤ maxBlocks * blockSectorSize

theorem InodeDisk.Fits.holds {id : InodeDisk} {pos : Int32} (hfits : id.Fits)
    (hpos : 0 ≤ pos.toInt) (hlt : pos.toInt < id.length.toInt) :
    id.Holds pos := by
  refine ⟨hpos, hlt, Nat.div_lt_of_lt_mul ?_⟩
  rw [Fits] at hfits
  generalize maxBlocks = m at hfits ⊢
  rw [blockSectorSize_eq] at hfits ⊢
  omega

/-! Lengths and blocks. -/

theorem InodeDisk.blocks_le_iff {id : InodeDisk} {m : Nat} :
    id.blocks ≤ m ↔ id.length.toInt.toNat ≤ m * blockSectorSize :=
  bytesToSectors_le_iff (by decide)

theorem InodeDisk.length_le_blocks (id : InodeDisk) :
    id.length.toInt ≤ id.blocks * blockSectorSize := by
  have hle := blocks_le_iff.mp (Nat.le_refl id.blocks)
  exact (Int.self_le_toNat _).trans (by exact_mod_cast hle)

theorem InodeDisk.blocks_mono {id id' : InodeDisk}
    (hle : id.length.toInt ≤ id'.length.toInt) : id.blocks ≤ id'.blocks := by
  have hle' := blocks_le_iff.mp (Nat.le_refl id'.blocks)
  rw [blocks_le_iff]
  omega

theorem InodeDisk.fits_of_blocks_le {id : InodeDisk}
    (hle : id.blocks ≤ maxBlocks) : id.Fits := by
  have hlength := id.length_le_blocks
  have hmul := Nat.mul_le_mul_right blockSectorSize hle
  exact hlength.trans (by exact_mod_cast hmul)

/-- The largest length of a file. -/
theorem maxBlocks_mul : (maxBlocks : Int) * blockSectorSize = 8517632 := rfl

/-! The loop of `inode_read_at`. -/

theorem readLoop_stop (st : σ) (id : InodeDisk) (memory : Bool)
    {size offset : Int32} (buffer : List UInt8) (hlength : 0 ≤ id.length.toInt)
    (hoffset : 0 ≤ offset.toInt)
    (hstop : size.toInt ≤ 0 ∨ id.length.toInt ≤ offset.toInt) :
    (readLoop st id memory size offset buffer).1 = buffer ∧
      SectorStore.view (readLoop st id memory size offset buffer).2 =
        SectorStore.view st := by
  rw [readLoop]
  split
  case isFalse => exact ⟨rfl, rfl⟩
  case isTrue hsize =>
    have hchunk : chunkSize id.length size offset ≤ 0 := by
      rw [Int32.le_iff_toInt_le, chunkSize_toInt size hlength hoffset,
        Int32.toInt_zero]
      omega
    simp only [if_pos hchunk, true_and]
    exact (byteToSector_spec st id offset).1

theorem readLoop_step (st : σ) (id : InodeDisk) {size offset : Int32}
    (buffer : List UInt8) (hsize : 0 < size.toInt) (hoffset : 0 ≤ offset.toInt)
    (hlt : offset.toInt < id.length.toInt)
    (hfits : id.Fits) :
    ∃ st', SectorStore.view st' = SectorStore.view st ∧
      readLoop st id true size offset buffer =
        readLoop st' id true (size - chunkSize id.length size offset)
          (offset + chunkSize id.length size offset)
          (buffer ++ (List.range (chunkSize id.length size offset).toInt.toNat).map
            fun i => fileByte (SectorStore.view st) id
              (offset.toInt.toNat + i)) := by
  obtain ⟨hview, hholds, -⟩ := byteToSector_spec st id offset
  have hsector := hholds (hfits.holds hoffset hlt)
  have hok := chunkSize_ok hsize hoffset hlt
  have hpos := hok.pos
  have hle := hok.le_sector
  have hnot : ¬ chunkSize id.length size offset ≤ 0 :=
    int32_nonpos_iff.not.mpr (Int.not_le.mpr hok.pos)
  have hmod : (offset % 512).toInt.toNat = offset.toInt.toNat % 512 := by
    rw [sectorOfs_toInt hoffset]
    omega
  have hbytes : ∀ i < (chunkSize id.length size offset).toInt.toNat,
      fileByte (SectorStore.view st) id (offset.toInt.toNat + i) =
        SectorStore.view st (byteToSector st id offset).1
          ⟨(offset.toInt.toNat % 512 + i) % blockSectorSize,
            Nat.mod_lt _ (by decide)⟩ := by
    intro i hi
    rw [fileByte_add _ _ (by omega), hsector]
  have hread : ∀ t : σ, SectorStore.view t = SectorStore.view st →
      sectorBytes (SectorStore.read t (byteToSector st id offset).1).1
          (offset % 512).toInt.toNat
          (chunkSize id.length size offset).toInt.toNat =
        (List.range (chunkSize id.length size offset).toInt.toNat).map fun i =>
          fileByte (SectorStore.view st) id (offset.toInt.toNat + i) := by
    intro t ht
    rw [SectorStore.read_fst, ht, hmod, sectorBytes_eq _ (by omega)]
    apply List.map_congr_left
    intro i hi
    rw [hbytes i (List.mem_range.mp hi)]
  refine ⟨(SectorStore.read (byteToSector st id offset).2
    (byteToSector st id offset).1).2, by rw [SectorStore.view_read, hview], ?_⟩
  rw [readLoop, if_pos (int32_pos_iff.mpr hsize)]
  simp only [if_neg hnot, ↓reduceIte]
  rw [← hread _ hview]
  split
  case isTrue hfull =>
    rw [hfull.1, hfull.2]
    change _ = readLoop _ _ _ _ _ (buffer ++ sectorBytes _ 0 512)
    rw [sectorBytes_full]
  case isFalse => rfl

/-- `inode_read_at` delivers the bytes of the file from the offset on, as many
as asked for and there are. -/
theorem readLoop_spec (st : σ) (id : InodeDisk) (size offset : Int32)
    (buffer : List UInt8) (hlength : 0 ≤ id.length.toInt)
    (hfits : id.Fits) (hoffset : 0 ≤ offset.toInt) :
    (readLoop st id true size offset buffer).1 =
        buffer ++ ((List.range (min size.toInt
          (id.length.toInt - offset.toInt)).toNat).map
          fun i => fileByte (SectorStore.view st) id (offset.toInt.toNat + i)) ∧
      SectorStore.view (readLoop st id true size offset buffer).2 =
        SectorStore.view st := by
  induction hn : size.toInt.toNat using Nat.strongRecOn
    generalizing st size offset buffer with
  | ind n ih =>
      by_cases hstop : size.toInt ≤ 0 ∨ id.length.toInt ≤ offset.toInt
      · have hzero : (min size.toInt (id.length.toInt - offset.toInt)).toNat = 0 := by
          omega
        rw [hzero, List.range_zero, List.map_nil, List.append_nil]
        exact readLoop_stop st id true buffer hlength hoffset hstop
      · rw [not_or, Int.not_le, Int.not_le] at hstop
        obtain ⟨st', hview, hrun⟩ :=
          readLoop_step st id buffer hstop.1 hoffset hstop.2 hfits
        have hok := chunkSize_ok hstop.1 hoffset hstop.2
        generalize chunkSize id.length size offset = chunk at hrun hok
        obtain ⟨hpos, hsize, hleft, -, hsub, hadd, -⟩ := hok
        have hrest := ih (size - chunk).toInt.toNat (by omega) st'
          (size - chunk) (offset + chunk)
          (buffer ++ (List.range chunk.toInt.toNat).map fun i =>
            fileByte (SectorStore.view st) id (offset.toInt.toNat + i))
          (by omega) rfl
        rw [← hrun, hview, hsub, hadd] at hrest
        refine ⟨?_, hrest.2⟩
        have hcount : (min size.toInt (id.length.toInt - offset.toInt)).toNat =
            chunk.toInt.toNat + (min (size.toInt - chunk.toInt)
              (id.length.toInt - (offset.toInt + chunk.toInt))).toNat := by
          omega
        have hstart : (offset.toInt + chunk.toInt).toNat =
            offset.toInt.toNat + chunk.toInt.toNat := by
          omega
        rw [hrest.1, hcount, hstart, List.range_add, List.map_append,
          List.map_map, List.append_assoc]
        simp only [Function.comp_def, Nat.add_assoc]

theorem view_of_byteToSector {st st' : σ} {id : InodeDisk} {pos : Int32}
    {s : BlockSector} (h : byteToSector st id pos = (s, st')) :
    SectorStore.view st' = SectorStore.view st := by
  have hview := (byteToSector_spec st id pos).1
  rwa [h] at hview

theorem view_of_read {st st' : σ} {s : BlockSector} {b : Block}
    (h : SectorStore.read st s = (b, st')) :
    SectorStore.view st' = SectorStore.view st := by
  have hview := SectorStore.view_read st s
  rwa [h] at hview

/-- Reading changes nothing that is seen, whatever is asked for. -/
theorem readLoop_view (st : σ) (id : InodeDisk) (memory : Bool)
    (size offset : Int32) (buffer : List UInt8) :
    SectorStore.view (readLoop st id memory size offset buffer).2 =
      SectorStore.view st := by
  fun_induction readLoop st id memory size offset buffer with
  | case1 st size offset buffer _ s st₁ hsector => exact view_of_byteToSector hsector
  | case2 st size offset buffer _ s st₁ hsector _ _ _ _ b st₂ hread ih =>
      rw [ih, view_of_read hread, view_of_byteToSector hsector]
  | case3 st size offset buffer _ s st₁ hsector _ _ _ _ _ b st₂ hread ih =>
      rw [ih, view_of_read hread, view_of_byteToSector hsector]
  | case4 st size offset buffer _ s st₁ hsector => exact view_of_byteToSector hsector
  | case5 => rfl

theorem byteToSector_congr {st st' : σ}
    (hview : SectorStore.view st' = SectorStore.view st) (id : InodeDisk)
    (pos : Int32) : (byteToSector st' id pos).1 = (byteToSector st id pos).1 := by
  obtain ⟨-, hholds, hnone⟩ := byteToSector_spec st id pos
  obtain ⟨-, hholds', hnone'⟩ := byteToSector_spec st' id pos
  by_cases h : id.Holds pos
  · rw [hholds h, hholds' h, hview]
  · rw [hnone h, hnone' h]

/-- The sector read for a position, in stores that are seen alike. -/
theorem readSector_congr {st st' st₁ st₂ : σ} {id : InodeDisk} {pos : Int32}
    {s : BlockSector} {b : Block}
    (hview : SectorStore.view st' = SectorStore.view st)
    (hsector : byteToSector st id pos = (s, st₁))
    (hread : SectorStore.read st₁ s = (b, st₂)) :
    (SectorStore.read (byteToSector st' id pos).2
        (byteToSector st' id pos).1).1 = b ∧
      SectorStore.view (SectorStore.read (byteToSector st' id pos).2
        (byteToSector st' id pos).1).2 = SectorStore.view st₂ := by
  have hs := byteToSector_congr hview id pos
  have hb := SectorStore.read_fst st₁ s
  have hv := (byteToSector_spec st' id pos).1
  rw [hsector] at hs
  rw [hread] at hb
  rw [SectorStore.read_fst, SectorStore.view_read, hs, hv, hview,
    view_of_read hread, view_of_byteToSector hsector]
  rw [view_of_byteToSector hsector] at hb
  exact ⟨hb.symm, rfl⟩

/-- What is read depends on nothing but what is seen in the sectors. -/
theorem readLoop_congr {st st' : σ}
    (hview : SectorStore.view st' = SectorStore.view st) (id : InodeDisk)
    (memory : Bool) (size offset : Int32) (buffer : List UInt8) :
    (readLoop st' id memory size offset buffer).1 =
      (readLoop st id memory size offset buffer).1 := by
  fun_induction readLoop st id memory size offset buffer generalizing st' with
  | case1 st size offset buffer hsize s st₁ hsector =>
      rename_i hchunk
      change chunkSize id.length size offset ≤ 0 at hchunk
      rw [readLoop, if_pos hsize]
      simp only [if_pos hchunk]
  | case2 st size offset buffer hsize s st₁ hsector =>
      rename_i hchunk hfull b st₂ hread ih
      change ¬ chunkSize id.length size offset ≤ 0 at hchunk
      change offset % 512 = 0 ∧ chunkSize id.length size offset = 512 at hfull
      obtain ⟨hb, hv⟩ := readSector_congr hview hsector hread
      rw [readLoop, if_pos hsize]
      simp only [if_neg hchunk, if_pos hfull, hb]
      exact ih hv
  | case3 st size offset buffer hsize s st₁ hsector =>
      rename_i hchunk hfull hmemory b st₂ hread ih
      change ¬ chunkSize id.length size offset ≤ 0 at hchunk
      change ¬ (offset % 512 = 0 ∧ chunkSize id.length size offset = 512) at hfull
      obtain ⟨hb, hv⟩ := readSector_congr hview hsector hread
      rw [readLoop, if_pos hsize]
      simp only [if_neg hchunk, if_neg hfull, if_pos hmemory, hb]
      exact ih hv
  | case4 st size offset buffer hsize s st₁ hsector =>
      rename_i hchunk hfull hmemory
      change ¬ chunkSize id.length size offset ≤ 0 at hchunk
      change ¬ (offset % 512 = 0 ∧ chunkSize id.length size offset = 512) at hfull
      rw [readLoop, if_pos hsize]
      simp only [if_neg hchunk, if_neg hfull, if_neg hmemory]
  | case5 st size offset buffer hsize => rw [readLoop, if_neg hsize]

/-! The loop of `inode_write_at`. -/

/-- The bytes of the file from `offset` on have become `bytes`, as many as
`n`; nothing else has changed, in the file or outside its blocks. -/
structure Overwritten (view view' : BlockSector → Block) (id : InodeDisk)
    (w offset n : Nat) (bytes : Nat → UInt8) : Prop where
  frame : ∀ s, (∀ k < w, s ≠ id.block (kidsOf view) k) → view' s = view s
  bytes : ∀ p < w * blockSectorSize, fileByte view' id p =
    if offset ≤ p ∧ p < offset + n then bytes (p - offset)
    else fileByte view id p

section Overwritten

variable {view view' view'' : BlockSector → Block} {id : InodeDisk}
  {w offset n m : Nat} {bytes : Nat → UInt8}

theorem Overwritten.refl (view : BlockSector → Block) (id : InodeDisk)
    (w offset : Nat) (bytes : Nat → UInt8) :
    Overwritten view view id w offset 0 bytes := by
  refine ⟨fun _ _ => rfl, fun p _ => ?_⟩
  rw [if_neg (by omega)]

variable (hnodup : (id.sectors (kidsOf view) w).Nodup) (hw : w ≤ maxBlocks)
include hnodup hw

theorem Overwritten.kids (h : Overwritten view view' id w offset n bytes) :
    ∀ s ∈ id.indexSectors (kidsOf view) w, kidsOf view' s = kidsOf view s := by
  intro s hs
  rw [kidsOf, kidsOf, h.frame s]
  rintro k hk rfl
  exact InodeDisk.block_not_mem_index hnodup hw hk hs

theorem Overwritten.sectors_eq (h : Overwritten view view' id w offset n bytes) :
    id.sectors (kidsOf view') w = id.sectors (kidsOf view) w :=
  InodeDisk.sectors_congr (h.kids hnodup hw)

theorem Overwritten.block_eq (h : Overwritten view view' id w offset n bytes)
    {k : Nat} (hk : k < w) :
    id.block (kidsOf view') k = id.block (kidsOf view) k :=
  InodeDisk.block_congr (h.kids hnodup hw) hk

theorem Overwritten.trans (h₁ : Overwritten view view' id w offset n bytes)
    (h₂ : Overwritten view' view'' id w (offset + n) m fun i => bytes (n + i)) :
    Overwritten view view'' id w offset (n + m) bytes := by
  refine ⟨fun s hs => ?_, fun p hp => ?_⟩
  · rw [h₂.frame s fun k hk => ?_, h₁.frame s hs]
    rw [h₁.block_eq hnodup hw hk]
    exact hs k hk
  · rw [h₂.bytes p hp, h₁.bytes p hp]
    by_cases hfirst : offset ≤ p ∧ p < offset + n
    · rw [if_pos hfirst, if_neg (by omega), if_pos (by omega)]
    · rw [if_neg hfirst]
      by_cases hsecond : offset + n ≤ p ∧ p < offset + n + m
      · rw [if_pos hsecond, if_pos (by omega)]
        congr 1
        omega
      · rw [if_neg hsecond, if_neg (by omega)]

/-- One chunk copied into its sector. -/
theorem Overwritten.copyInto {start : Nat} {buffer : Nat → UInt8}
    (hle : offset % blockSectorSize + n ≤ blockSectorSize)
    (hlt : offset / blockSectorSize < w)
    (hview : view' = Function.update view
      (id.block (kidsOf view) (offset / blockSectorSize))
      (copyInto (view (id.block (kidsOf view) (offset / blockSectorSize)))
        (offset % blockSectorSize) buffer start n)) :
    Overwritten view view' id w offset n (fun i => buffer (start + i)) := by
  have hframe : ∀ s, (∀ k < w, s ≠ id.block (kidsOf view) k) →
      view' s = view s := fun s hs => by
    rw [hview, Function.update_of_ne (hs _ hlt)]
  have hkids : ∀ s ∈ id.indexSectors (kidsOf view) w,
      kidsOf view' s = kidsOf view s := by
    intro s hs
    rw [kidsOf, kidsOf, hframe s]
    rintro k hk rfl
    exact InodeDisk.block_not_mem_index hnodup hw hk hs
  refine ⟨hframe, fun p hp => ?_⟩
  have hblock : p / blockSectorSize < w := Nat.div_lt_of_lt_mul (by
    rwa [Nat.mul_comm])
  have hp' := Nat.div_add_mod p blockSectorSize
  have ho' := Nat.div_add_mod offset blockSectorSize
  have hmod := Nat.mod_lt p (show 0 < blockSectorSize by decide)
  rw [fileByte, InodeDisk.block_congr hkids hblock, hview]
  by_cases hsame : p / blockSectorSize = offset / blockSectorSize
  · rw [hsame] at hp'
    rw [hsame, Function.update_self]
    simp only [PintosLabs.copyInto]
    by_cases hin : offset ≤ p ∧ p < offset + n
    · rw [if_pos hin, if_pos (by omega)]
      congr 2
      omega
    · rw [if_neg hin, if_neg (by omega), fileByte, hsame]
  · rw [Function.update_of_ne fun heq =>
      hsame (InodeDisk.block_injective hnodup hw hblock hlt heq), fileByte,
      if_neg]
    rintro ⟨hlow, hhigh⟩
    apply hsame
    refine (Nat.div_eq_of_lt_le ?_ ?_)
    · rw [Nat.mul_comm]
      omega
    · rw [Nat.add_mul, Nat.mul_comm]
      omega

end Overwritten

/-- The loop ends where nothing is left, or where the first chunk needs a
bounce buffer and there is none. -/
theorem writeLoop_stop (st : σ) (id : InodeDisk) (buffer : Nat → UInt8)
    (memory : Bool) {size offset : Int32} (bytesWritten : Int32)
    (hlength : 0 ≤ id.length.toInt) (hoffset : 0 ≤ offset.toInt)
    (hstop : size.toInt ≤ 0 ∨ id.length.toInt ≤ offset.toInt ∨
      memory = false ∧ (chunkSize id.length size offset).toInt ≠ 512) :
    (writeLoop st id buffer memory size offset bytesWritten).1 = bytesWritten ∧
      SectorStore.view
          (writeLoop st id buffer memory size offset bytesWritten).2 =
        SectorStore.view st := by
  have hview := (byteToSector_spec st id offset).1
  have hchunk := chunkSize_toInt size hlength hoffset
  rw [writeLoop]
  split
  case isFalse => exact ⟨rfl, rfl⟩
  case isTrue hsize =>
    rw [int32_pos_iff] at hsize
    by_cases hempty : chunkSize id.length size offset ≤ 0
    · simp only [if_pos hempty, true_and]
      exact hview
    · have hempty' := hempty
      rw [int32_nonpos_iff] at hempty'
      have hlt : offset.toInt < id.length.toInt := by omega
      obtain ⟨hmemory, hpart⟩ : memory = false ∧
          (chunkSize id.length size offset).toInt ≠ 512 := by
        rcases hstop with h | h | h
        · omega
        · omega
        · exact h
      have hfull := (chunkSize_ok hsize hoffset hlt).full_iff.not.mpr hpart
      simp only [if_neg hempty, if_neg hfull, hmemory, Bool.false_eq_true,
        ↓reduceIte, true_and]
      exact hview

theorem copyInto_full (b : Block) (buffer : Nat → UInt8) (start : Nat) :
    copyInto b 0 buffer start 512 = fun i => buffer (start + i.val) := by
  funext i
  have hi : i.val < 512 := i.isLt
  rw [copyInto, if_pos ⟨Nat.zero_le _, by omega⟩, Nat.sub_zero]

/-- A chunk that is not a whole sector leaves bytes of it as they are. -/
theorem ChunkOk.reads_first {length size offset chunk : Int32}
    (hok : ChunkOk length size offset chunk) (hoffset : 0 ≤ offset.toInt)
    (hpart : ¬ (offset % 512 = 0 ∧ chunk = 512)) :
    0 < offset % 512 ∨ chunk < 512 - offset % 512 := by
  rw [hok.full_iff] at hpart
  have hle := hok.le_sector
  rw [int32_pos_iff, Int32.lt_iff_toInt_lt, sectorOfs_toInt hoffset,
    sectorLeft_toInt hoffset]
  omega

/-- One turn of the loop copies a chunk into its sector. -/
theorem writeLoop_step (st : σ) (id : InodeDisk) (buffer : Nat → UInt8)
    (memory : Bool) {size offset : Int32} (bytesWritten : Int32)
    (hsize : 0 < size.toInt)
    (hoffset : 0 ≤ offset.toInt) (hlt : offset.toInt < id.length.toInt)
    (hfits : id.Fits)
    (hgo : memory = true ∨ (chunkSize id.length size offset).toInt = 512) :
    ∃ st', SectorStore.view st' = Function.update (SectorStore.view st)
        (id.block (kidsOf (SectorStore.view st))
          (offset.toInt.toNat / blockSectorSize))
        (copyInto (SectorStore.view st
            (id.block (kidsOf (SectorStore.view st))
              (offset.toInt.toNat / blockSectorSize)))
          (offset.toInt.toNat % blockSectorSize) buffer bytesWritten.toInt.toNat
          (chunkSize id.length size offset).toInt.toNat) ∧
      writeLoop st id buffer memory size offset bytesWritten =
        writeLoop st' id buffer memory
          (size - chunkSize id.length size offset)
          (offset + chunkSize id.length size offset)
          (bytesWritten + chunkSize id.length size offset) := by
  obtain ⟨hview, hholds, -⟩ := byteToSector_spec st id offset
  have hsector := hholds (hfits.holds hoffset hlt)
  have hok := chunkSize_ok hsize hoffset hlt
  have hnot : ¬ chunkSize id.length size offset ≤ 0 :=
    int32_nonpos_iff.not.mpr (Int.not_le.mpr hok.pos)
  have hmod : (offset % 512).toInt.toNat = offset.toInt.toNat % blockSectorSize := by
    rw [sectorOfs_toInt hoffset, blockSectorSize_eq]
    omega
  rw [writeLoop, if_pos (int32_pos_iff.mpr hsize)]
  simp only [if_neg hnot]
  rw [← hmod, ← hsector]
  split
  case isTrue hfull =>
    refine ⟨_, ?_, rfl⟩
    rw [SectorStore.view_write, hview, hfull.1, hfull.2]
    exact congrArg _ (copyInto_full _ _ _).symm
  case isFalse hpart =>
    have hmemory : memory = true := hgo.resolve_right (hok.full_iff.not.mp hpart)
    have hread := hok.reads_first hoffset hpart
    simp only [hmemory, ↓reduceIte, if_pos hread]
    refine ⟨_, ?_, rfl⟩
    rw [SectorStore.view_write, SectorStore.view_read, SectorStore.read_fst,
      hview]

/-- `inode_write_at` writes some of what it is asked to write, all of it if
there is memory, and nothing only if the first chunk already needs memory. -/
theorem writeLoop_spec (st : σ) (id : InodeDisk) (buffer : Nat → UInt8)
    (memory : Bool) (size offset bytesWritten : Int32) (hsize : 0 ≤ size.toInt)
    (hoffset : 0 ≤ offset.toInt)
    (hend : offset.toInt + size.toInt ≤ id.length.toInt)
    (hfits : id.Fits)
    (hbytes : 0 ≤ bytesWritten.toInt)
    (hsum : bytesWritten.toInt + size.toInt < 2 ^ 31) :
    ∃ n : Nat, n ≤ size.toInt.toNat ∧ (memory = true → n = size.toInt.toNat) ∧
      (n = 0 ↔ size.toInt = 0 ∨
        memory = false ∧ (chunkSize id.length size offset).toInt ≠ 512) ∧
      (writeLoop st id buffer memory size offset bytesWritten).1.toInt =
        bytesWritten.toInt + n ∧
      ∀ w ≤ maxBlocks, id.length.toInt ≤ w * 512 →
        (id.sectors (kidsOf (SectorStore.view st)) w).Nodup →
        Overwritten (SectorStore.view st) (SectorStore.view
            (writeLoop st id buffer memory size offset bytesWritten).2)
          id w offset.toInt.toNat n
          fun i => buffer (bytesWritten.toInt.toNat + i) := by
  have hlength : 0 ≤ id.length.toInt := by
    omega
  induction hn : size.toInt.toNat using Nat.strongRecOn
    generalizing st size offset bytesWritten with
  | ind m ih =>
      by_cases hstop : size.toInt = 0 ∨
          memory = false ∧ (chunkSize id.length size offset).toInt ≠ 512
      · obtain ⟨hres, hview⟩ := writeLoop_stop st id buffer memory
          bytesWritten hlength hoffset (hstop.imp (·.le) Or.inr)
        refine ⟨0, Nat.zero_le _, fun hmemory => ?_, iff_of_true rfl hstop,
          by rw [hres]; simp, fun w _ _ _ => ?_⟩
        · rcases hstop with h | h
          · omega
          · exact absurd (h.1.symm.trans hmemory) Bool.false_ne_true
        · rw [hview]
          exact Overwritten.refl _ _ _ _ _
      · have hgo : memory = true ∨
            (chunkSize id.length size offset).toInt = 512 := by
          cases memory with
          | true => exact Or.inl rfl
          | false => exact Or.inr (by_contra fun h => hstop (Or.inr ⟨rfl, h⟩))
        have hpos : 0 < size.toInt :=
          lt_of_le_of_ne hsize fun h => hstop (Or.inl h.symm)
        have hlt : offset.toInt < id.length.toInt := by
          omega
        obtain ⟨st', hview, hrun⟩ := writeLoop_step st id buffer memory
          bytesWritten hpos hoffset hlt hfits hgo
        have hok := chunkSize_ok hpos hoffset hlt
        generalize chunkSize id.length size offset = chunk at *
        obtain ⟨hchunk, hle, hleft, hsector, hsub, hadd, -⟩ := hok
        have hadd' : (bytesWritten + chunk).toInt =
            bytesWritten.toInt + chunk.toInt := by
          rw [Int32.toInt_add]
          exact Int.bmod_eq_of_le (by omega) (by omega)
        obtain ⟨n, hnle, hnall, -, hnres, hnover⟩ := ih (size - chunk).toInt.toNat
          (by omega) st' (size - chunk) (offset + chunk) (bytesWritten + chunk)
          (by omega) (by omega) (by omega)
          (by omega) (by omega) rfl
        rw [hsub] at hnle hnall
        rw [hadd'] at hnres
        refine ⟨chunk.toInt.toNat + n, ?_, fun h => ?_, iff_of_false ?_ hstop,
          ?_, fun w hw hwl hnodup => ?_⟩
        · omega
        · have hall := hnall h
          omega
        · omega
        · rw [hrun, hnres]
          omega
        · have hchunk' : Overwritten (SectorStore.view st) (SectorStore.view st')
              id w offset.toInt.toNat chunk.toInt.toNat
              fun i => buffer (bytesWritten.toInt.toNat + i) := by
            refine Overwritten.copyInto hnodup hw ?_ ?_ hview
            · rw [blockSectorSize_eq]
              omega
            · apply Nat.div_lt_of_lt_mul
              rw [blockSectorSize_eq]
              omega
          rw [hrun]
          refine hchunk'.trans hnodup hw ?_
          have hrest := hnover w hw hwl (by rwa [hchunk'.sectors_eq hnodup hw])
          rw [hadd, hadd', Int.toNat_add hoffset hchunk.le,
            Int.toNat_add hbytes hchunk.le] at hrest
          simpa only [Nat.add_assoc] using hrest

/-! The branches of `inode_write_at`. -/

/-- Where a write ends, and its last byte. -/
theorem writeEnd_toInt {size offset : Int32} (hsize : 0 ≤ size.toInt)
    (hoffset : 0 ≤ offset.toInt) (hwrap : offset.toInt + size.toInt < 2 ^ 31) :
    (offset + size).toInt = offset.toInt + size.toInt ∧
      (offset + size - 1).toInt = offset.toInt + size.toInt - 1 := by
  have hsum : (offset + size).toInt = offset.toInt + size.toInt := by
    rw [Int32.toInt_add]
    exact Int.bmod_eq_of_le (by omega) (by omega)
  refine ⟨hsum, ?_⟩
  rw [Int32.toInt_sub, hsum]
  exact Int.bmod_eq_of_le (by change _ ≤ _ - 1; omega)
    (by change _ - 1 < _; omega)

section Branches

variable {bitmapWrite : FileSys σ → Option (Bool × FileSys σ)}
  {sector : BlockSector} {buffer : Nat → UInt8} {size offset : Int32}
  {memory : Bool} {fs : FileSys σ} {inode : Inode}

theorem inodeWriteAtWith_denied (hopen : fs.openInodes sector = some inode)
    (hdeny : inode.denyWriteCnt ≠ 0) :
    inodeWriteAtWith bitmapWrite sector buffer size offset memory fs =
      some (0, fs) := by
  simp [inodeWriteAtWith, hopen, hdeny]

/-- The end of a write that wraps around is negative, and its last byte is so
too or is the largest number there is. -/
theorem writeEnd_wrap {size offset : Int32} (hsize : 0 < size.toInt)
    (hoffset : 0 ≤ offset.toInt) (hwrap : 2 ^ 31 ≤ offset.toInt + size.toInt) :
    (offset + size).toInt < 0 ∧ ((offset + size - 1).toInt < 0 ∨
      (offset + size - 1).toInt = 2 ^ 31 - 1) := by
  have hs := size.toInt_lt
  have ho := offset.toInt_lt
  have hsum : (offset + size).toInt = offset.toInt + size.toInt - 2 ^ 32 := by
    rw [Int32.toInt_add, Int.bmod_def]
    omega
  have hlast : (offset + size - 1).toInt =
      (offset.toInt + size.toInt - 2 ^ 32 - 1).bmod (2 ^ 32) := by
    rw [Int32.toInt_sub, hsum]
    rfl
  rw [Int.bmod_def] at hlast
  omega

/-- A write within the file. -/
theorem inodeWriteAtWith_inside (hopen : fs.openInodes sector = some inode)
    (hdeny : inode.denyWriteCnt = 0)
    (hprobe : (byteToSector fs.store inode.data (offset + size - 1)).1 ≠
      noSector) :
    inodeWriteAtWith bitmapWrite sector buffer size offset memory fs =
      some ((writeLoop (byteToSector fs.store inode.data (offset + size - 1)).2
          inode.data buffer memory size offset 0).1,
        { fs with store :=
          (writeLoop (byteToSector fs.store inode.data (offset + size - 1)).2
            inode.data buffer memory size offset 0).2 }) := by
  have hsame : Function.update fs.openInodes sector (some inode) =
      fs.openInodes := by
    rw [← hopen, Function.update_eq_self]
  simp [inodeWriteAtWith, inodeGrow, hopen, hdeny, hprobe, FileSys.setInode,
    hsame]

/-- A write that makes the file grow first. -/
theorem inodeWriteAtWith_grow (hopen : fs.openInodes sector = some inode)
    (hdeny : inode.denyWriteCnt = 0)
    (hprobe : (byteToSector fs.store inode.data (offset + size - 1)).1 =
      noSector) :
    inodeWriteAtWith bitmapWrite sector buffer size offset memory fs =
      (inodeAllocate bitmapWrite { inode.data with length := offset + size }
        { fs with store :=
          (byteToSector fs.store inode.data (offset + size - 1)).2 }).bind
        fun (success, data, fs) =>
          if success then
            let data := { data with length := offset + size }
            let fs := (fs.cacheWrite inode.sector data.toBlock).setInode sector
              (some { inode with data := data })
            let (bytesWritten, store) :=
              writeLoop fs.store data buffer memory size offset 0
            some (bytesWritten, { fs with store := store })
          else some (0, fs.setInode sector (some { inode with data := data })) := by
  simp only [inodeWriteAtWith, inodeGrow, hopen, hdeny, hprobe,
    Option.bind_eq_bind, Option.bind_some, ne_eq, not_true_eq_false, ↓reduceIte,
    Option.bind_assoc]
  congr 1
  funext x
  obtain ⟨success, data, fs'⟩ := x
  cases success <;> rfl

end Branches

end Store

end PintosLabs
