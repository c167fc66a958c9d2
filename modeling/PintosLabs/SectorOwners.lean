/-
Every sector in use belongs to one live inode, and this stays so: what each
thing done to a file does to the owners of the sectors.
-/
import PintosLabs.FileSystem

namespace PintosLabs

/-! Owners and what they own, as lists. -/

section Owners

variable {κ ι : Type*} {l : List κ} {f f' : κ → List ι} {s : κ} {new : List ι}

/-- One owner is given something. -/
theorem flatMap_perm_append (hnodup : l.Nodup) (hs : s ∈ l)
    (hother : ∀ t ∈ l, t ≠ s → f' t = f t)
    (hperm : (f' s).Perm (f s ++ new)) :
    (l.flatMap f').Perm (l.flatMap f ++ new) := by
  classical
  have herase := List.perm_cons_erase hs
  have hrest : (l.erase s).flatMap f' = (l.erase s).flatMap f := by
    apply List.flatMap_congr
    intro t ht
    exact hother t (List.mem_of_mem_erase ht) (hnodup.mem_erase_iff.mp ht).1
  calc
    (l.flatMap f').Perm (f' s ++ (l.erase s).flatMap f') :=
      herase.flatMap_right f'
    _ = f' s ++ (l.erase s).flatMap f := by rw [hrest]
    List.Perm _ ((f s ++ new) ++ (l.erase s).flatMap f) := hperm.append_right _
    List.Perm _ (f s ++ ((l.erase s).flatMap f ++ new)) := by
      rw [List.append_assoc]
      exact List.perm_append_comm.append_left _
    List.Perm _ (l.flatMap f ++ new) := by
      rw [← List.append_assoc]
      exact (herase.flatMap_right f).symm.append_right new

/-- An owner that is among what it owns. -/
theorem sublist_flatMap_of_mem {f : κ → List κ} (hself : ∀ s, s ∈ f s) :
    l.Sublist (l.flatMap f) := by
  induction l with
  | nil => exact List.Sublist.slnil
  | cons s l ih =>
      rw [List.flatMap_cons]
      exact (List.singleton_sublist.mpr (hself s)).append ih

/-- One owner is gone, with all it has. -/
theorem mem_flatMap_erase [DecidableEq κ] (hs : s ∈ l)
    (hdisjoint : (l.flatMap f).Nodup) {x : ι} :
    x ∈ (l.erase s).flatMap f ↔ x ∈ l.flatMap f ∧ x ∉ f s := by
  have herase := (List.perm_cons_erase hs).flatMap_right f
  rw [List.flatMap_cons] at herase
  have hnodup' := herase.nodup_iff.mp hdisjoint
  rw [List.nodup_append'] at hnodup'
  rw [herase.mem_iff, List.mem_append]
  constructor
  · exact fun h => ⟨Or.inr h, fun hx => hnodup'.2.2 hx h⟩
  · exact fun h => h.1.resolve_left h.2

end Owners

variable {σ : Type} [SectorStore σ BlockSector Block] {file : FreeMapFile}

/-- The free map file owns its own sectors. -/
theorem FreeMapFile.Ready.sectorsOf {fs : FileSys σ} (hready : file.Ready fs)
    (hdata : fs.inodeAt freeMapSector = file.inode.data) :
    fs.sectorsOf freeMapSector = file.own := by
  rw [FileSys.sectorsOf, hdata, hready.sectors, FreeMapFile.own]

/-- Setting another inode leaves the free map file ready. -/
theorem AllocReady.setInode {fs : FileSys σ} {s : BlockSector}
    (hfs : AllocReady file.Ready file.own fs) (hs : s ≠ freeMapSector)
    (inode : Option Inode) :
    AllocReady file.Ready file.own (fs.setInode s inode) :=
  ⟨hfs.ready.congr rfl rfl (Function.update_of_ne (Ne.symm hs) _ _)
    fun _ _ => rfl, hfs.length_lt, hfs.own_used, hfs.zero_used⟩

theorem FileReady.setInode {own : List BlockSector} {fs : FileSys σ}
    {sector s : BlockSector} {id : InodeDisk}
    (hfile : FileReady own fs sector id) (inode : Option Inode) :
    FileReady own (fs.setInode s inode) sector id :=
  hfile.congr (fun _ _ => rfl) hfile.used_of_mem

/-- What is found taken from the free map is what has been allocated. -/
theorem Allocated.gained_perm {ready synced : FileSys σ → Prop}
    {own data : List BlockSector} {fs fs' : FileSys σ}
    {new touched : List BlockSector}
    (h : Allocated ready synced own data fs fs' new touched) :
    (fs.gained fs').Perm new := by
  have hlt := h.length_eq ▸ h.ready.length_lt
  have hmem : ∀ i, i < fs'.freeMap.length → (UInt32.ofNat i).toNat = i :=
    fun i hi => by
      rw [UInt32.toNat_ofNat']
      exact Nat.mod_eq_of_lt (Nat.lt_trans hi h.ready.length_lt)
  have hnodup : (fs.gained fs').Nodup := by
    refine List.Nodup.map_on (fun i hi j hj heq => ?_)
      (List.nodup_range.filter _)
    have hi := List.mem_range.mp (List.mem_filter.mp hi).1
    have hj := List.mem_range.mp (List.mem_filter.mp hj).1
    rw [← hmem i hi, ← hmem j hj, heq]
  rw [List.perm_ext_iff_of_nodup hnodup h.nodup]
  intro x
  rw [FileSys.gained, List.mem_map]
  constructor
  · rintro ⟨i, hi, rfl⟩
    obtain ⟨hrange, hbits⟩ := List.mem_filter.mp hi
    have htoNat := hmem i (List.mem_range.mp hrange)
    rw [Bool.and_eq_true, beq_iff_eq, beq_iff_eq] at hbits
    refine ((h.used _).mp ?_).resolve_left ?_
    · rw [FileSys.Used, htoNat, hbits.2]
    · rw [FileSys.Used, htoNat, hbits.1]
      simp
  · intro hx
    have hused : fs'.Used x := (h.used x).mpr (Or.inr hx)
    obtain ⟨hlength, -⟩ := List.getElem?_eq_some_iff.mp hused
    refine ⟨x.toNat, List.mem_filter.mpr ⟨List.mem_range.mpr hlength, ?_⟩,
      UInt32.toNat_inj.mp (hmem _ hlength)⟩
    have hfree := h.free x hx
    rw [h.length_eq] at hlength
    rw [FileSys.Used, List.getElem?_eq_getElem hlength, Option.some.injEq,
      Bool.not_eq_true] at hfree
    rw [Bool.and_eq_true, beq_iff_eq, beq_iff_eq,
      List.getElem?_eq_getElem hlength, hfree]
    exact ⟨rfl, hused⟩

omit [SectorStore σ BlockSector Block] in
theorem FileSys.gained_nil {fs fs' : FileSys σ} (hmap : fs'.freeMap = fs.freeMap) :
    fs.gained fs' = [] := by
  rw [FileSys.gained, List.map_eq_nil_iff, List.filter_eq_nil_iff]
  intro i _ hbits
  rw [Bool.and_eq_true, beq_iff_eq, beq_iff_eq, hmap] at hbits
  rw [hbits.1] at hbits
  simp at hbits

/-- The files on a disk are in order: no two of them share a sector, and all
their sectors are in use.  There may be sectors in use that belong to no
file. -/
structure FilesOk (file : FreeMapFile) (fs : FileSys σ)
    (live : List BlockSector) : Prop where
  ready : AllocReady file.Ready file.own fs
  mapFile_live : freeMapSector ∈ live
  mapFile : fs.inodeAt freeMapSector = file.inode.data
  files : ∀ s ∈ live, s ≠ freeMapSector → FileReady file.own fs s (fs.inodeAt s)
  nodup : (live.flatMap fs.sectorsOf).Nodup
  used : ∀ t ∈ live.flatMap fs.sectorsOf, fs.Used t
  proper : ∀ s inode, fs.openInodes s = some inode →
    Inode.Proper fs live s inode

namespace FilesOk

variable {fs : FileSys σ} {live : List BlockSector} (h : FilesOk file fs live)
include h

theorem owner_eq {s t x : BlockSector} (hs : s ∈ live) (ht : t ∈ live)
    (hxs : x ∈ fs.sectorsOf s) (hxt : x ∈ fs.sectorsOf t) : s = t :=
  eq_of_mem_flatMap h.nodup hs ht hxs hxt

theorem used_of_mem {s x : BlockSector} (hs : s ∈ live)
    (hx : x ∈ fs.sectorsOf s) : fs.Used x :=
  h.used x (List.mem_flatMap.mpr ⟨s, hs, hx⟩)

theorem live_nodup : live.Nodup :=
  h.nodup.sublist (sublist_flatMap_of_mem fun _ => List.mem_cons_self)

theorem not_mem_own {s x : BlockSector} (hs : s ∈ live)
    (hne : s ≠ freeMapSector) (hx : x ∈ fs.sectorsOf s) : x ∉ file.own := by
  rw [← h.ready.ready.sectorsOf h.mapFile]
  exact fun hown => hne (h.owner_eq hs h.mapFile_live hx hown)

/-- A step that leaves the sectors of a file alone leaves the file as it is. -/
theorem other {fs' : FileSys σ} (hready : file.Ready fs') {t : BlockSector}
    (ht : t ∈ live)
    (hview : ∀ x ∈ fs.sectorsOf t, x ∉ file.data → fs'.view x = fs.view x)
    (hused : ∀ x ∈ fs.sectorsOf t, fs'.Used x) :
    fs'.inodeAt t = fs.inodeAt t ∧ fs'.sectorsOf t = fs.sectorsOf t ∧
      (t ≠ freeMapSector →
        FileReady file.own fs' t (fs'.inodeAt t)) := by
  have hself : t ∈ fs.sectorsOf t := List.mem_cons_self
  by_cases hzero : t = freeMapSector
  · subst hzero
    have hsame : fs'.inodeAt freeMapSector = fs.inodeAt freeMapSector := by
      rw [FileSys.inodeAt, hview _ hself file.apart_data, FileSys.inodeAt]
    refine ⟨hsame, ?_, fun hne => absurd rfl hne⟩
    rw [hready.sectorsOf (hsame.trans h.mapFile),
      h.ready.ready.sectorsOf h.mapFile]
  · have hforeign : ∀ x ∈ fs.sectorsOf t, fs'.view x = fs.view x :=
      fun x hx => hview x hx fun hdata =>
        h.not_mem_own ht hzero hx (file.data_subset hdata)
    have hkids : ∀ x ∈ (fs.inodeAt t).indexSectors fs.kids
        (fs.inodeAt t).blocks, fs'.kids x = fs.kids x := fun x hx => by
      rw [FileSys.kids, hforeign x (List.mem_cons_of_mem _
        (InodeDisk.indexSectors_subset hx)), FileSys.kids]
    have hsame : fs'.inodeAt t = fs.inodeAt t := by
      rw [FileSys.inodeAt, hforeign t hself, FileSys.inodeAt]
    refine ⟨hsame, ?_, fun _ => ?_⟩
    · rw [FileSys.sectorsOf, FileSys.sectorsOf, hsame,
        InodeDisk.sectors_congr hkids]
    · rw [hsame]
      exact (h.files t ht hzero).congr hkids hused

/-- The other files when sectors are allocated and written. -/
theorem other_allocated {mid : FileSys σ} {new touched : List BlockSector}
    (halloc : Allocated file.Ready file.Synced file.own file.data fs mid new
      touched) {t : BlockSector} (ht : t ∈ live)
    (htouched : ∀ x ∈ fs.sectorsOf t, x ∈ touched → x ∈ new) :
    mid.inodeAt t = fs.inodeAt t ∧ mid.sectorsOf t = fs.sectorsOf t ∧
      (t ≠ freeMapSector → FileReady file.own mid t (mid.inodeAt t)) :=
  h.other halloc.ready.ready ht
    (fun x hx hdata => halloc.frame x
      (fun hmem => halloc.free x (htouched x hx hmem) (h.used_of_mem ht hx)) hdata)
    fun _ hx => halloc.used_mono (h.used_of_mem ht hx)

/-- Whatever has been done, if every file is as it was, with its sectors still
in use, and the open inodes are those of files. -/
theorem of_other {fs' : FileSys σ} {live' : List BlockSector}
    (hready : AllocReady file.Ready file.own fs')
    (hmap : freeMapSector ∈ live')
    (hother : ∀ t ∈ live', fs'.inodeAt t = fs.inodeAt t ∧
      fs'.sectorsOf t = fs.sectorsOf t ∧
      (t ≠ freeMapSector → FileReady file.own fs' t (fs'.inodeAt t)))
    (hnodup : (live'.flatMap fs.sectorsOf).Nodup)
    (hused : ∀ t ∈ live', ∀ x ∈ fs.sectorsOf t, fs'.Used x)
    (hproper : ∀ s inode, fs'.openInodes s = some inode →
      Inode.Proper fs live' s inode) : FilesOk file fs' live' := by
  have hflat : live'.flatMap fs'.sectorsOf = live'.flatMap fs.sectorsOf :=
    List.flatMap_congr fun t ht => (hother t ht).2.1
  refine ⟨hready, hmap, (hother _ hmap).1.trans h.mapFile,
    fun t ht => (hother t ht).2.2, hflat ▸ hnodup, fun x hx => ?_,
    fun s inode hs => ?_⟩
  · rw [hflat, List.mem_flatMap] at hx
    obtain ⟨t, ht, hx⟩ := hx
    exact hused t ht x hx
  · obtain ⟨hlive, hsector, hdata, hcnt⟩ := hproper s inode hs
    exact ⟨hlive, hsector, hdata.trans (hother s hlive).1.symm, hcnt⟩

/-- No file loses a sector, and no sector in use is written but for the free
map. -/
theorem restate {fs' : FileSys σ} (hready : AllocReady file.Ready file.own fs')
    (hused : ∀ x, fs.Used x → fs'.Used x)
    (hview : ∀ x, fs.Used x → x ∉ file.data → fs'.view x = fs.view x)
    (hproper : ∀ s inode, fs'.openInodes s = some inode →
      Inode.Proper fs live s inode) : FilesOk file fs' live :=
  h.of_other hready h.mapFile_live
    (fun _ ht => h.other hready.ready ht
      (fun x hx => hview x (h.used_of_mem ht hx))
      fun x hx => hused x (h.used_of_mem ht hx))
    h.nodup (fun _ ht x hx => hused x (h.used_of_mem ht hx)) hproper

/-- The sectors are held in another state of the store, with the same
contents. -/
theorem setStore {st : σ} (hview : SectorStore.view st = fs.view) :
    FilesOk file { fs with store := st } live := by
  have halloc : Allocated file.Ready file.Synced file.own file.data fs
      { fs with store := st } [] [] :=
    file.flushSpec.rewrite h.ready (by simp) fun x _ => congrFun hview x
  exact h.restate halloc.ready (fun _ => id) (fun x _ _ => congrFun hview x)
    h.proper

theorem proper_setInode {s : BlockSector} {inode : Option Inode}
    (hproper : ∀ i, inode = some i → Inode.Proper fs live s i) :
    ∀ t i, (fs.setInode s inode).openInodes t = some i →
      Inode.Proper fs live t i := by
  intro t i ht
  rw [FileSys.setInode_openInodes] at ht
  by_cases hts : t = s
  · rw [hts, Function.update_self] at ht
    exact hts ▸ hproper i ht
  · rw [Function.update_of_ne hts] at ht
    exact h.proper t i ht

/-- An entry in the table of open inodes changes. -/
theorem setInode {s : BlockSector} (hne : s ≠ freeMapSector)
    {inode : Option Inode}
    (hproper : ∀ i, inode = some i → Inode.Proper fs live s i) :
    FilesOk file (fs.setInode s inode) live :=
  h.restate (h.ready.setInode hne _) (fun _ => id) (fun _ _ _ => rfl)
    (h.proper_setInode hproper)

/-- The counters and marks of an open inode change. -/
theorem proper_modify {s : BlockSector} {inode inode' : Inode}
    (hopen : fs.openInodes s = some inode)
    (hsector : inode'.sector = inode.sector) (hdata : inode'.data = inode.data)
    (hcnt : 0 < inode'.openCnt) :
    ∀ i, some inode' = some i → Inode.Proper fs live s i := by
  intro i hi
  have hproper := h.proper s inode hopen
  rw [← Option.some.inj hi]
  exact ⟨hproper.live, hsector.trans hproper.sector, hdata.trans hproper.data,
    hcnt⟩

theorem view_eq {s : BlockSector} {inode : Inode}
    (hopen : fs.openInodes s = some inode) :
    fs.view s = inode.data.toBlock := by
  rw [(h.proper s inode hopen).data, FileSys.inodeAt, InodeDisk.toBlock_ofBlock]

/-- The file behind an open inode is in order. -/
theorem openFile {s : BlockSector} {inode : Inode} (hne : s ≠ freeMapSector)
    (hopen : fs.openInodes s = some inode) :
    FileReady file.own fs s inode.data := by
  obtain ⟨hlive, -, hdata, -⟩ := h.proper s inode hopen
  rw [hdata]
  exact h.files s hlive hne

/-- A write to one file comes to the sectors of no other. -/
theorem touched_new {mid : FileSys σ} {s t : BlockSector} {inode : Inode}
    {id' : InodeDisk} {offset n : Nat} {bytes : Nat → UInt8}
    {new : List BlockSector} (hopen : fs.openInodes s = some inode)
    (hwritten : FileWritten file.Ready file.Synced file.own file.data fs mid s
      inode.data id' offset n bytes new) (ht : t ∈ live) (hts : t ≠ s) :
    ∀ x ∈ fs.sectorsOf t, x ∈ s :: id'.sectors mid.kids id'.blocks → x ∈ new := by
  intro x hx hmem
  obtain ⟨hs, -, hdata, -⟩ := h.proper s inode hopen
  have hperm := hwritten.perm
  rw [hdata] at hperm
  have hold : x ∈ fs.sectorsOf s ++ new := (hperm.cons s).mem_iff.mp hmem
  exact (List.mem_append.mp hold).resolve_left fun hold =>
    hts (h.owner_eq ht hs hx hold)

/-- The file system holds the file that has been written, and the others. -/
theorem write {mid : FileSys σ} {s : BlockSector} {inode : Inode}
    {id' : InodeDisk} {offset n : Nat} {bytes : Nat → UInt8}
    {new : List BlockSector} (hne : s ≠ freeMapSector)
    (hopen : fs.openInodes s = some inode)
    (hwritten : FileWritten file.Ready file.Synced file.own file.data fs mid s
      inode.data id' offset n bytes new) :
    mid.inodeAt s = id' ∧
      (mid.sectorsOf s).Perm (fs.sectorsOf s ++ new) ∧
      (∀ t ∈ live, t ≠ s → mid.inodeAt t = fs.inodeAt t ∧
        mid.sectorsOf t = fs.sectorsOf t) ∧
      FilesOk file (mid.setInode s (some { inode with data := id' })) live := by
  obtain ⟨hs, hsector, hdata, hcnt⟩ := h.proper s inode hopen
  have hstored : fs.view s = inode.data.toBlock := by
    rw [hdata, FileSys.inodeAt, InodeDisk.toBlock_ofBlock]
  have hid : mid.inodeAt s = id' := by
    rw [FileSys.inodeAt, hwritten.stored hstored, InodeDisk.ofBlock_toBlock]
  have halloc := hwritten.alloc
  have hperm := hwritten.perm
  have hfile := hwritten.file
  rw [← hid] at halloc hperm hfile
  rw [hdata] at hperm
  have hperm' : (mid.sectorsOf s).Perm (fs.sectorsOf s ++ new) :=
    hperm.cons s
  have hother := fun t (ht : t ∈ live) (hts : t ≠ s) =>
    h.other_allocated hwritten.alloc ht (h.touched_new hopen hwritten ht hts)
  have hflat : (live.flatMap mid.sectorsOf).Perm
      (live.flatMap fs.sectorsOf ++ new) :=
    flatMap_perm_append (h.live_nodup) hs
      (fun t ht hts => (hother t ht hts).2.1) hperm'
  refine ⟨hid, hperm', fun t ht hts => ⟨(hother t ht hts).1, (hother t ht hts).2.1⟩,
    halloc.ready.setInode hne _, h.mapFile_live,
    (hother _ h.mapFile_live (Ne.symm hne)).1.trans h.mapFile,
    fun t ht hzero => ?_, ?_, fun x hx => ?_, fun t inode' ht => ?_⟩
  · by_cases hts : t = s
    · rw [hts]
      exact hfile.setInode _
    · exact ((hother t ht hts).2.2 hzero).setInode _
  · change (live.flatMap mid.sectorsOf).Nodup
    rw [hflat.nodup_iff, List.nodup_append']
    exact ⟨h.nodup, halloc.nodup, fun x hx hnew =>
      halloc.free x hnew (h.used x hx)⟩
  · change mid.Used x
    rw [halloc.used]
    exact (List.mem_append.mp (hflat.mem_iff.mp hx)).imp_left (h.used x)
  · change Function.update mid.openInodes s _ t = _ at ht
    by_cases hts : t = s
    · rw [hts, Function.update_self, Option.some.injEq] at ht
      subst hts ht
      exact ⟨hs, hsector, hid.symm, hcnt⟩
    · rw [Function.update_of_ne hts, halloc.openInodes] at ht
      obtain ⟨hlive, hsector', hdata', hcnt'⟩ := h.proper t inode' ht
      exact ⟨hlive, hsector', hdata'.trans (hother t hlive hts).1.symm, hcnt'⟩

/-- A new file. -/
theorem create {mid : FileSys σ} {s : BlockSector} {new : List BlockSector}
    (hfile : FileReady file.own mid s (mid.inodeAt s))
    (halloc : Allocated file.Ready file.Synced file.own file.data fs mid new
      (mid.sectorsOf s))
    (hperm : (mid.sectorsOf s).Perm new) :
    s ∉ live ∧ (∀ t ∈ live, mid.sectorsOf t = fs.sectorsOf t) ∧
      FilesOk file mid (s :: live) := by
  have hfresh : s ∉ live := fun hs =>
    halloc.free s (hperm.mem_iff.mp List.mem_cons_self)
      (h.used_of_mem hs List.mem_cons_self)
  have hother := fun t (ht : t ∈ live) =>
    h.other_allocated halloc ht fun _ _ hmem => hperm.mem_iff.mp hmem
  have hrest : live.flatMap mid.sectorsOf = live.flatMap fs.sectorsOf :=
    List.flatMap_congr fun t ht => (hother t ht).2.1
  refine ⟨hfresh, fun t ht => (hother t ht).2.1, halloc.ready,
    List.mem_cons_of_mem _ h.mapFile_live,
    (hother _ h.mapFile_live).1.trans h.mapFile, fun t ht hzero => ?_, ?_,
    fun x hx => ?_, fun t inode ht => ?_⟩
  · rcases List.mem_cons.mp ht with rfl | ht
    · exact hfile
    · exact (hother t ht).2.2 hzero
  · rw [List.flatMap_cons, hrest, List.nodup_append']
    exact ⟨hperm.nodup_iff.mpr halloc.nodup, h.nodup, fun x hx hold =>
      halloc.free x (hperm.mem_iff.mp hx) (h.used x hold)⟩
  · rw [List.flatMap_cons, hrest, List.mem_append, hperm.mem_iff] at hx
    rw [halloc.used]
    exact hx.symm.imp_left (h.used x)
  · rw [halloc.openInodes] at ht
    obtain ⟨hlive, hsector, hdata, hcnt⟩ := h.proper t inode ht
    exact ⟨List.mem_cons_of_mem _ hlive, hsector,
      hdata.trans (hother t hlive).1.symm, hcnt⟩

/-- A file is given back. -/
theorem release {fs' : FileSys σ} {s : BlockSector} (hs : s ∈ live)
    (hne : s ≠ freeMapSector)
    (hrel : Released file (fs.setInode s none) fs' (fs.sectorsOf s)) :
    (∀ t ∈ live.erase s, fs'.sectorsOf t = fs.sectorsOf t) ∧
      FilesOk file fs' (live.erase s) := by
  have hmem : ∀ t ∈ live.erase s, t ∈ live ∧ t ≠ s := fun t ht =>
    (h.live_nodup.mem_erase_iff.mp ht).symm
  have hkept : ∀ t ∈ live.erase s, ∀ x ∈ fs.sectorsOf t, fs'.Used x :=
    fun t ht x hx => (hrel.used x).mpr
      ⟨h.used_of_mem (hmem t ht).1 hx, fun hxs =>
        (hmem t ht).2 (h.owner_eq (hmem t ht).1 hs hx hxs)⟩
  have hother := fun t (ht : t ∈ live.erase s) =>
    h.other hrel.ready.ready (hmem t ht).1 (fun x _ hdata => hrel.frame x hdata)
      (hkept t ht)
  refine ⟨fun t ht => (hother t ht).2.1, h.of_other hrel.ready
    (h.live_nodup.mem_erase_iff.mpr ⟨Ne.symm hne, h.mapFile_live⟩)
    hother ?_ hkept fun t inode ht => ?_⟩
  · have herase := (List.perm_cons_erase hs).flatMap_right fs.sectorsOf
    rw [List.flatMap_cons] at herase
    exact (herase.nodup_iff.mp h.nodup).of_append_right
  · rw [hrel.openInodes] at ht
    change Function.update fs.openInodes s none t = _ at ht
    by_cases hts : t = s
    · rw [hts, Function.update_self] at ht
      contradiction
    · rw [Function.update_of_ne hts] at ht
      obtain ⟨hlive, hsector, hdata, hcnt⟩ := h.proper t inode ht
      exact ⟨h.live_nodup.mem_erase_iff.mpr ⟨hts, hlive⟩, hsector, hdata, hcnt⟩

end FilesOk

namespace World.Inv

variable {w : World σ} (h : w.Inv file)
include h

theorem filesOk : FilesOk file w.fs w.live where
  ready := h.ready
  mapFile_live := h.mapFile_live
  mapFile := h.mapFile
  files := h.files
  nodup := h.nodup
  used t := (h.used t).mpr
  proper := h.proper

theorem used_of_mem {s x : BlockSector} (hs : s ∈ w.live)
    (hx : x ∈ w.fs.sectorsOf s) : w.fs.Used x :=
  h.filesOk.used_of_mem hs hx

theorem closed_of_free {s : BlockSector} (hfree : ¬ w.fs.Used s) :
    w.fs.openInodes s = none := by
  cases hopen : w.fs.openInodes s with
  | none => rfl
  | some inode =>
      exact absurd (h.used_of_mem (h.proper s inode hopen).live
        List.mem_cons_self) hfree

omit h in
/-- What is left to say when the files are in order: which sectors are in use,
and what each file has been given. -/
theorem of_filesOk {w' : World σ} (hfiles : FilesOk file w'.fs w'.live)
    (hused : ∀ x, w'.fs.Used x → x ∈ w'.live.flatMap w'.fs.sectorsOf)
    (hacquired : ∀ s ∈ w'.live, (w'.acquired s).Perm (w'.fs.sectorsOf s)) :
    w'.Inv file where
  ready := hfiles.ready
  live_nodup := hfiles.live_nodup
  mapFile_live := hfiles.mapFile_live
  mapFile := hfiles.mapFile
  files := hfiles.files
  nodup := hfiles.nodup
  used x := ⟨hused x, hfiles.used x⟩
  proper := hfiles.proper
  acquired := hacquired

/-- No sector changes hands, and nothing is written but the free map. -/
theorem restate {fs' : FileSys σ} (hready : AllocReady file.Ready file.own fs')
    (hused : ∀ x, fs'.Used x ↔ w.fs.Used x)
    (hview : ∀ x, x ∉ file.data → fs'.view x = w.fs.view x)
    (hproper : ∀ s inode, fs'.openInodes s = some inode →
      Inode.Proper w.fs w.live s inode) :
    ({ w with fs := fs' } : World σ).Inv file := by
  have hsectors : ∀ t ∈ w.live, fs'.sectorsOf t = w.fs.sectorsOf t :=
    fun t ht => (h.filesOk.other hready.ready ht (fun x _ hdata => hview x hdata)
      fun x hx => (hused x).mpr (h.used_of_mem ht hx)).2.1
  refine of_filesOk (h.filesOk.restate hready (fun x => (hused x).mpr)
    (fun x _ => hview x) hproper) (fun x hx => ?_) fun t ht => ?_
  · rw [List.flatMap_congr hsectors]
    exact (h.used x).mp ((hused x).mp hx)
  · rw [hsectors t ht]
    exact h.acquired t ht

/-- The files are in order on sectors that hold what they held. -/
theorem of_same {fs' : FileSys σ} (hfiles : FilesOk file fs' w.live)
    (hmap : fs'.freeMap = w.fs.freeMap) (hview : fs'.view = w.fs.view) :
    ({ w with fs := fs' } : World σ).Inv file := by
  have hsectors : ∀ t, fs'.sectorsOf t = w.fs.sectorsOf t := fun t => by
    have hkids : fs'.kids = w.fs.kids := by
      funext x
      rw [FileSys.kids, hview, FileSys.kids]
    rw [FileSys.sectorsOf, FileSys.inodeAt, hview, hkids, FileSys.sectorsOf,
      FileSys.inodeAt]
  refine of_filesOk hfiles (fun x hx => ?_) fun t ht => ?_
  · change x ∈ w.live.flatMap fs'.sectorsOf
    rw [List.flatMap_congr fun t _ => hsectors t, ← h.used, FileSys.Used, ← hmap]
    exact hx
  · rw [hsectors]
    exact h.acquired t ht

/-- The sectors are held in another state of the store, with the same
contents. -/
theorem setStore {st : σ} (hview : SectorStore.view st = w.fs.view) :
    ({ w with fs := { w.fs with store := st } } : World σ).Inv file :=
  h.of_same (h.filesOk.setStore hview) rfl hview

/-- An entry in the table of open inodes changes. -/
theorem setInode {s : BlockSector} (hne : s ≠ freeMapSector)
    {inode : Option Inode}
    (hproper : ∀ i, inode = some i → Inode.Proper w.fs w.live s i) :
    ({ w with fs := w.fs.setInode s inode } : World σ).Inv file :=
  h.of_same (h.filesOk.setInode hne hproper) rfl rfl

/-- A file is written, and perhaps grows. -/
theorem write {mid : FileSys σ} {s : BlockSector} {inode : Inode}
    {id' : InodeDisk} {offset n : Nat} {bytes : Nat → UInt8}
    {new : List BlockSector} (hne : s ≠ freeMapSector)
    (hopen : w.fs.openInodes s = some inode)
    (hwritten : FileWritten file.Ready file.Synced file.own file.data w.fs mid s
      inode.data id' offset n bytes new) :
    ({ w with
        fs := mid.setInode s (some { inode with data := id' })
        acquired := Function.update w.acquired s
          (w.acquired s ++ w.fs.gained
            (mid.setInode s (some { inode with data := id' }))) } :
      World σ).Inv file := by
  have hs := (h.proper s inode hopen).live
  obtain ⟨-, hperm, hother, hfiles⟩ := h.filesOk.write hne hopen hwritten
  have hflat : (w.live.flatMap mid.sectorsOf).Perm
      (w.live.flatMap w.fs.sectorsOf ++ new) :=
    flatMap_perm_append h.live_nodup hs (fun t ht hts => (hother t ht hts).2) hperm
  refine of_filesOk hfiles (fun x hx => ?_) fun t ht => ?_
  · change x ∈ w.live.flatMap mid.sectorsOf
    rw [hflat.mem_iff, List.mem_append, ← h.used]
    exact (hwritten.alloc.used x).mp hx
  · change (Function.update w.acquired s _ t).Perm (mid.sectorsOf t)
    by_cases hts : t = s
    · rw [hts, Function.update_self]
      exact ((h.acquired s hs).append hwritten.alloc.gained_perm).trans hperm.symm
    · rw [Function.update_of_ne hts, (hother t ht hts).2]
      exact h.acquired t ht

/-- A new file. -/
theorem create {mid : FileSys σ} {s : BlockSector} {new : List BlockSector}
    (hfile : FileReady file.own mid s (mid.inodeAt s))
    (halloc : Allocated file.Ready file.Synced file.own file.data w.fs mid new
      (mid.sectorsOf s))
    (hperm : (mid.sectorsOf s).Perm new) :
    ({ fs := mid, live := s :: w.live
       acquired := Function.update w.acquired s (w.fs.gained mid) } :
      World σ).Inv file := by
  obtain ⟨hfresh, hother, hfiles⟩ := h.filesOk.create hfile halloc hperm
  refine of_filesOk hfiles (fun x hx => ?_) fun t ht => ?_
  · rw [List.flatMap_cons, List.flatMap_congr hother, List.mem_append,
      hperm.mem_iff, or_comm, ← h.used]
    exact (halloc.used x).mp hx
  · change (Function.update w.acquired s _ t).Perm (mid.sectorsOf t)
    rcases List.mem_cons.mp ht with rfl | ht
    · rw [Function.update_self]
      exact halloc.gained_perm.trans hperm.symm
    · have hts : t ≠ s := fun heq => hfresh (heq ▸ ht)
      rw [Function.update_of_ne hts, hother t ht]
      exact h.acquired t ht

/-- A file is given back. -/
theorem release {fs' : FileSys σ} {s : BlockSector} (hs : s ∈ w.live)
    (hne : s ≠ freeMapSector)
    (hrel : Released file (w.fs.setInode s none) fs' (w.fs.sectorsOf s)) :
    ({ w with fs := fs', live := w.live.erase s } : World σ).Inv file := by
  obtain ⟨hother, hfiles⟩ := h.filesOk.release hs hne hrel
  refine of_filesOk hfiles (fun x hx => ?_) fun t ht => ?_
  · change x ∈ (w.live.erase s).flatMap fs'.sectorsOf
    rw [List.flatMap_congr hother, mem_flatMap_erase hs h.nodup, ← h.used]
    exact (hrel.used x).mp hx
  · change (w.acquired t).Perm (fs'.sectorsOf t)
    rw [hother t ht]
    exact h.acquired t (List.mem_of_mem_erase ht)

end World.Inv

end PintosLabs
