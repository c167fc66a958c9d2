/-
The release of the sectors of a removed file: `inode_deallocate` finds from
the length alone the sectors that the file was given while it grew, and gives
back each of them once.
-/
import PintosLabs.InodeWrite

namespace PintosLabs

variable {σ : Type} [SectorStore σ BlockSector Block] {file : FreeMapFile}

/-- The sectors `old` have been given back, and nothing has been written but
the bytes of the free map file, which keeps up if there is memory. -/
structure Released (file : FreeMapFile) (fs fs' : FileSys σ)
    (old : List BlockSector) : Prop where
  ready : AllocReady file.Ready file.own fs'
  used : ∀ s, fs'.Used s ↔ fs.Used s ∧ s ∉ old
  length_eq : fs'.freeMap.length = fs.freeMap.length
  count : fs'.freeCount = fs.freeCount + old.length
  freeMapFile : fs'.freeMapFile = fs.freeMapFile
  openInodes : fs'.openInodes = fs.openInodes
  allocFailures : fs'.allocFailures = fs.allocFailures
  memory : fs.MemoryOk → fs'.MemoryOk
  synced : fs.MemoryOk → file.Synced fs → file.Synced fs'
  frame : ∀ s, s ∉ file.data → fs'.view s = fs.view s

theorem Released.refl {fs : FileSys σ} (hfs : AllocReady file.Ready file.own fs) :
    Released file fs fs [] where
  ready := hfs
  used := by simp
  length_eq := rfl
  count := rfl
  freeMapFile := rfl
  openInodes := rfl
  allocFailures := rfl
  memory := id
  synced _ := id
  frame _ _ := rfl

section Released

variable {fs fs₁ fs₂ : FileSys σ} {old old₁ old₂ : List BlockSector}

theorem Released.trans (h₁ : Released file fs fs₁ old₁)
    (h₂ : Released file fs₁ fs₂ old₂) : Released file fs fs₂ (old₁ ++ old₂) where
  ready := h₂.ready
  used s := by rw [h₂.used, h₁.used, List.mem_append, not_or, and_assoc]
  length_eq := h₂.length_eq.trans h₁.length_eq
  count := by rw [h₂.count, h₁.count, List.length_append, Nat.add_assoc]
  freeMapFile := h₂.freeMapFile.trans h₁.freeMapFile
  openInodes := h₂.openInodes.trans h₁.openInodes
  allocFailures := h₂.allocFailures.trans h₁.allocFailures
  memory := fun h => h₂.memory (h₁.memory h)
  synced := fun h hsynced => h₂.synced (h₁.memory h) (h₁.synced h hsynced)
  frame s hs := (h₂.frame s hs).trans (h₁.frame s hs)

theorem Released.perm (h : Released file fs fs₁ old₁) (hperm : old₁.Perm old₂) :
    Released file fs fs₁ old₂ :=
  { h with
    used := fun s => by rw [h.used, hperm.mem_iff]
    count := by rw [h.count, hperm.length_eq] }

/-- Reading through the cache is to give nothing back. -/
theorem Allocated.released
    (h : Allocated file.Ready file.Synced file.own file.data fs fs₁ [] []) :
    Released file fs fs₁ [] where
  ready := h.ready
  used := by simpa using h.used
  length_eq := h.length_eq
  count := by simpa using h.count
  freeMapFile := h.freeMapFile
  openInodes := h.openInodes
  allocFailures := h.allocFailures
  memory := h.memory
  synced _ := h.synced
  frame s hs := h.frame s List.not_mem_nil hs

/-- What has been allocated, and not written, is given back. -/
theorem Allocated.undone {new : List BlockSector}
    (h₁ : Allocated file.Ready file.Synced file.own file.data fs fs₁ new [])
    (h₂ : Released file fs₁ fs₂ new) : Released file fs fs₂ [] where
  ready := h₂.ready
  used s := by
    have hfree := h₁.free s
    rw [h₂.used, h₁.used]
    simp only [List.not_mem_nil, not_false_eq_true, and_true]
    constructor
    · exact fun h => h.1.resolve_right h.2
    · exact fun h => ⟨Or.inl h, fun hs => hfree hs h⟩
  length_eq := h₂.length_eq.trans h₁.length_eq
  count := h₂.count.trans h₁.count
  freeMapFile := h₂.freeMapFile.trans h₁.freeMapFile
  openInodes := h₂.openInodes.trans h₁.openInodes
  allocFailures := h₂.allocFailures.trans h₁.allocFailures
  memory := fun h => h₂.memory (h₁.memory h)
  synced := fun h hsynced => h₂.synced (h₁.memory h) (h₁.synced hsynced)
  frame s hs := (h₂.frame s hs).trans (h₁.frame s List.not_mem_nil hs)

theorem Released.view_eq (h : Released file fs fs₁ old) {s : BlockSector}
    (hs : s ∉ file.own) : fs₁.view s = fs.view s :=
  h.frame s fun hdata => hs (file.data_subset hdata)

/-- A tree none of whose sectors has been given back is as it was. -/
theorem TreeReady.after_release {level w : Nat} {entry : BlockSector}
    (h : Released file fs fs₁ old) (htree : TreeReady file.own fs level entry w)
    (hdisjoint : ∀ s ∈ treeSectors fs.kids level entry w, s ∉ old) :
    TreeReady file.own fs₁ level entry w ∧
      treeSectors fs₁.kids level entry w = treeSectors fs.kids level entry w := by
  have hview : ∀ s ∈ treeSectors fs.kids level entry w,
      fs₁.view s = fs.view s := fun s hs => h.view_eq (htree.foreign s hs)
  have hsectors := treeSectors_of_view_eq hview
  refine ⟨⟨htree.ok.congr (kids_eq_of_view_eq hview), ?_, ?_, ?_⟩, hsectors⟩
  · rw [hsectors]
    exact htree.nodup
  · rw [hsectors]
    exact fun s hs => (h.used s).mpr ⟨htree.used s hs, hdisjoint s hs⟩
  · rw [hsectors]
    exact htree.foreign

end Released

/-! One sector. -/

theorem freeMap_set_false {b : List Bool} {i : Nat} (hused : b[i]? = some true) :
    (b.set i false).length = b.length ∧
      (b.set i false).count false = b.count false + 1 ∧
      ∀ j, (b.set i false)[j]? = some true ↔ b[j]? = some true ∧ j ≠ i := by
  obtain ⟨hi, hget⟩ := List.getElem?_eq_some_iff.mp hused
  refine ⟨List.length_set, ?_, fun j => ?_⟩
  · rw [List.count_set hi, hget]
    simp
  · rw [List.getElem?_set]
    by_cases hij : i = j
    · subst hij
      simp [hi]
    · simp [hij, Ne.symm hij]

/-- The assertion of `free_map_release` holds for a sector in use. -/
theorem freeMapRelease_spec {fs : FileSys σ}
    (hfs : AllocReady file.Ready file.own fs) {s : BlockSector}
    (hused : fs.Used s) (hforeign : s ∉ file.own) :
    ∃ fs', freeMapRelease bitmapWrite s 1 fs = some fs' ∧
      Released file fs fs' [s] := by
  obtain ⟨hlength, hcount, hset⟩ := freeMap_set_false hused
  obtain ⟨hi, hget⟩ := List.getElem?_eq_some_iff.mp hused
  have hassert : s.toNat + 1 ≤ fs.freeMap.length ∧
      bitmapContains fs.freeMap s.toNat 1 false = false := by
    refine ⟨hi, Bool.eq_false_iff.mpr fun h => ?_⟩
    rw [bitmapContains_one, hused] at h
    contradiction
  let fs₁ : FileSys σ := { fs with freeMap := fs.freeMap.set s.toNat false }
  have hready₁ : file.Ready fs₁ :=
    hfs.ready.congr hlength rfl rfl fun _ _ => rfl
  obtain ⟨written, fs', hrun, hready, hsame, hframe, hsynced, hmemory⟩ :=
    hready₁.bitmapWrite_spec
  have hused' : ∀ t, fs'.Used t ↔ fs.Used t ∧ t ∉ [s] := by
    intro t
    rw [FileSys.Used, hsame.freeMap, hset, List.mem_singleton,
      ← UInt32.toNat_inj, FileSys.Used]
  refine ⟨fs', ?_, ?_⟩
  · rw [freeMapRelease, if_pos hassert, bitmapSetMultiple_one]
    change (bitmapWrite fs₁).bind _ = _
    rw [hrun]
    rfl
  · exact
      { ready := ⟨hready, by rw [hsame.freeMap]; exact hlength ▸ hfs.length_lt,
          fun t ht => (hused' t).mpr ⟨hfs.own_used t ht, fun hmem =>
            hforeign (List.mem_singleton.mp hmem ▸ ht)⟩,
          (hused' 0).mpr ⟨hfs.zero_used, fun hmem =>
            hforeign (List.mem_singleton.mp hmem ▸ List.mem_cons_self)⟩⟩
        used := hused'
        length_eq := by rw [hsame.freeMap]; exact hlength
        count := by rw [FileSys.freeCount, hsame.freeMap]; exact hcount
        freeMapFile := hsame.freeMapFile
        openInodes := hsame.openInodes
        allocFailures := hsame.allocFailures
        memory := fun hok => (hmemory hok).2
        synced := fun hok _ => hsynced (hmemory hok).1
        frame := hframe }

/-! Trees. -/

/-- A tree of `n` blocks is given back whole. -/
def ReleaseSpec (σ : Type) [SectorStore σ BlockSector Block]
    (file : FreeMapFile) (level : Nat)
    (deallocate : BlockSector → Nat → FileSys σ → Option (FileSys σ)) : Prop :=
  ∀ n fs entry, 0 < n → AllocReady file.Ready file.own fs →
    TreeReady file.own fs level entry n →
    ∃ fs', deallocate entry n fs = some fs' ∧
      Released file fs fs' (treeSectors fs.kids level entry n)

theorem ReleaseSpec.release : ReleaseSpec σ file 0 fun entry _ fs =>
    freeMapRelease bitmapWrite entry 1 fs := by
  intro n fs entry hn hfs htree
  have hsectors : treeSectors fs.kids 0 entry n = [entry] := by
    rw [treeSectors, if_neg (Nat.ne_of_gt hn)]
  have hused := htree.used
  have hforeign := htree.foreign
  rw [hsectors, List.forall_mem_singleton] at hused hforeign
  rw [hsectors]
  exact freeMapRelease_spec hfs hused hforeign

/-- What is left of several trees when the first has been given back. -/
theorem ForestReady.after_release {m level : Nat} {fs fs₁ : FileSys σ}
    {i : Fin m} {rest : List (Fin m)} {entries : Fin m → BlockSector}
    {w : Fin m → Nat} (hready : ForestReady file.own fs level (i :: rest) entries w)
    (h : Released file fs fs₁ (treeSectors fs.kids level (entries i) (w i))) :
    ForestReady file.own fs₁ level rest entries w ∧
      rest.flatMap (fun j => treeSectors fs₁.kids level (entries j) (w j)) =
        rest.flatMap fun j => treeSectors fs.kids level (entries j) (w j) := by
  have hdisjoint := hready.disjoint
  rw [List.flatMap_cons, List.nodup_append'] at hdisjoint
  have htree : ∀ j ∈ rest, TreeReady file.own fs₁ level (entries j) (w j) ∧
      treeSectors fs₁.kids level (entries j) (w j) =
        treeSectors fs.kids level (entries j) (w j) := fun j hj =>
    (hready.tree j (List.mem_cons_of_mem _ hj)).after_release h fun s hs hmem =>
      hdisjoint.2.2 hmem (List.mem_flatMap.mpr ⟨j, hj, hs⟩)
  have hsectors := List.flatMap_congr fun j hj => (htree j hj).2
  refine ⟨⟨fun j hj => (htree j hj).1, ?_⟩, hsectors⟩
  rw [hsectors]
  exact hdisjoint.2.1

/-- The loop over consecutive entries gives back all the trees below them. -/
theorem deallocateEntries_spec {m level unit : Nat}
    {deallocate : BlockSector → Nat → FileSys σ → Option (FileSys σ)}
    (hdeallocate : ReleaseSpec σ file level deallocate) (n i : Nat)
    (indices : List (Fin m)) (entries : Fin m → BlockSector) {fs : FileSys σ}
    (hindices : ∀ j (h : j < indices.length), (indices[j]).val = i + j)
    (hpos : ∀ j ∈ indices, 0 < share unit n j)
    (hn : n ≤ (i + indices.length) * unit)
    (hfs : AllocReady file.Ready file.own fs)
    (hready : ForestReady file.own fs level indices entries
      fun j => share unit n j) :
    ∃ fs', deallocateEntries deallocate unit (indices.map entries)
        (n - i * unit) fs = some fs' ∧
      Released file fs fs' (indices.flatMap fun j =>
        treeSectors fs.kids level (entries j) (share unit n j)) := by
  induction indices generalizing i fs with
  | nil =>
      rw [List.length_nil, Nat.add_zero] at hn
      refine ⟨fs, ?_, Released.refl hfs⟩
      rw [List.map_nil, deallocateEntries, if_pos (Nat.sub_eq_zero_of_le hn)]
  | cons head tail ih =>
      have hhead : head.val = i := hindices 0 (Nat.zero_lt_succ _)
      have hshare : share unit n head = min (n - i * unit) unit := by
        rw [share, hhead]
      have hleft : n - i * unit - share unit n head = n - (i + 1) * unit := by
        rw [hshare, Nat.add_mul, Nat.one_mul]
        omega
      obtain ⟨fs₁, hrun, hrel⟩ := hdeallocate _ fs (entries head)
        (hpos head List.mem_cons_self) hfs (hready.tree head List.mem_cons_self)
      obtain ⟨hrest, hsectors⟩ := hready.after_release hrel
      obtain ⟨fs₂, hrun₂, hrel₂⟩ := ih (i + 1) (fun j hj => by
          have hnext := hindices (j + 1) (Nat.succ_lt_succ hj)
          rw [List.getElem_cons_succ] at hnext
          omega)
        (fun j hj => hpos j (List.mem_cons_of_mem _ hj)) (by
          rw [List.length_cons] at hn
          rwa [Nat.add_right_comm, Nat.add_assoc]) hrel.ready hrest
      refine ⟨fs₂, ?_, ?_⟩
      · simp only [List.map_cons, deallocateEntries, ← hshare, hleft, hrun,
          Option.bind_eq_bind, Option.bind_some, hrun₂]
      · rw [hsectors] at hrel₂
        rw [List.flatMap_cons]
        exact hrel.trans hrel₂

/-- All the entries that cover one of `n` blocks, from the first on. -/
theorem deallocateEntries_take {m level : Nat}
    {deallocate : BlockSector → Nat → FileSys σ → Option (FileSys σ)}
    (hdeallocate : ReleaseSpec σ file level deallocate) (n : Nat)
    (entries : Fin m → BlockSector) {fs : FileSys σ}
    (hn : n ≤ m * 128 ^ level) (hfs : AllocReady file.Ready file.own fs)
    (hready : ForestReady file.own fs level (List.finRange m) entries
      fun j => share (128 ^ level) n j) :
    ∃ fs', deallocateEntries deallocate (128 ^ level)
        ((List.ofFn entries).take (bytesToSectors n (128 ^ level))) n fs =
          some fs' ∧
      Released file fs fs' (forestSectors fs.kids level entries n) := by
  have hunit : 0 < 128 ^ level := Nat.pow_pos (by decide)
  set l := bytesToSectors n (128 ^ level) with hl
  have hlm : l ≤ m := (bytesToSectors_le_iff hunit).mpr hn
  have hlength : ((List.finRange m).take l).length = l := by
    rw [List.length_take, List.length_finRange, Nat.min_eq_left hlm]
  have hlist : (List.ofFn entries).take l =
      ((List.finRange m).take l).map entries := by
    rw [List.ofFn_eq_map, List.map_take]
  have hrest : ((List.finRange m).drop l).flatMap (fun j =>
      treeSectors fs.kids level (entries j) (share (128 ^ level) n j)) = [] := by
    rw [List.flatMap_eq_nil_iff]
    intro j hj
    rw [share_eq_zero_of_mem_drop hunit hj, treeSectors_zero]
  have hforest : forestSectors fs.kids level entries n =
      ((List.finRange m).take l).flatMap fun j =>
        treeSectors fs.kids level (entries j) (share (128 ^ level) n j) := by
    rw [forestSectors, ← List.append_nil (List.flatMap _ (List.take l _)),
      ← hrest, ← List.flatMap_append, List.take_append_drop]
  have hdisjoint := hready.disjoint
  rw [← List.take_append_drop l (List.finRange m), List.flatMap_append] at hdisjoint
  have hrun := deallocateEntries_spec hdeallocate n 0
    ((List.finRange m).take l) entries
    (fun j hj => by rw [getElem_take_finRange, Nat.zero_add])
    (fun j hj => share_pos_of_mem_take hunit hj)
    (by rw [Nat.zero_add, hlength]; exact (bytesToSectors_le_iff hunit).mp hl.le)
    hfs ⟨fun j _ => hready.tree j (List.mem_finRange j),
      hdisjoint.of_append_left⟩
  rwa [Nat.zero_mul, Nat.sub_zero, ← hlist, ← hforest] at hrun

/-- `inode_deallocate_indirect` gives back a whole tree, the indexes after what
lies below them. -/
theorem inodeDeallocateIndirect_release (level : Nat) (hlevel : level ≤ 2) :
    ReleaseSpec σ file level (inodeDeallocateIndirect bitmapWrite level) := by
  induction level with
  | zero => exact ReleaseSpec.release
  | succ level ih =>
      intro n fs entry hn hfs htree
      have hunit : (if level = 0 then 1 else 128) = 128 ^ level := by
        have hcases : level = 0 ∨ level = 1 := by omega
        rcases hcases with rfl | rfl <;> rfl
      have hindex := file.flushSpec.indexReady_read
        (@TreeReady.indexReady _ _ _ file.Synced _ file.data _ _ _ _ hfs htree hn) entry
      have hkids : (fs.cacheRead entry).2.kids entry =
          wordsOf (fs.cacheRead entry).1 := by
        rw [FileSys.kids, FileSys.cacheRead_view, FileSys.cacheRead_fst]
      obtain ⟨fs₁, hrun, hrel⟩ := deallocateEntries_take (ih (by omega)) n
        ((fs.cacheRead entry).2.kids entry)
        (by rw [Nat.mul_comm, ← Nat.pow_succ]; exact htree.ok.le)
        hindex.alloc.ready hindex.forest
      obtain ⟨fs₂, hrun₂, hrel₂⟩ := freeMapRelease_spec hrel.ready
        ((hrel.used entry).mpr ⟨hindex.used, hindex.not_mem⟩) hindex.foreign
      have hperm := hindex.perm
      rw [List.append_nil] at hperm
      have hback := (List.perm_append_singleton entry _).trans hperm
      refine ⟨fs₂, ?_,
        (hindex.alloc.released.trans (hrel.trans hrel₂)).perm hback⟩
      rw [hkids] at hrun
      simp only [inodeDeallocateIndirect, hunit, hrun, hrun₂,
        Option.bind_eq_bind, Option.bind_some]

/-! The whole inode. -/

theorem deallocateIfAny_spec {fs : FileSys σ} {level n : Nat}
    {entry : BlockSector} (hlevel : level ≤ 2)
    (hfs : AllocReady file.Ready file.own fs)
    (htree : TreeReady file.own fs level entry n) :
    ∃ fs', inodeDeallocate.deallocateIfAny bitmapWrite level entry n fs =
        some fs' ∧ Released file fs fs' (treeSectors fs.kids level entry n) := by
  rw [inodeDeallocate.deallocateIfAny]
  split
  case isTrue hpos =>
    exact inodeDeallocateIndirect_release level hlevel n fs entry hpos hfs htree
  case isFalse hzero =>
    rw [Nat.eq_zero_of_not_pos hzero, treeSectors_zero]
    exact ⟨fs, rfl, Released.refl hfs⟩

/-- `inode_deallocate` gives back the sectors of a file, each once. -/
theorem inodeDeallocate_spec {fs : FileSys σ} {id : InodeDisk}
    (hfs : AllocReady file.Ready file.own fs)
    (hparts : PartsReady file.own fs id id.blocks (indirectShare id.blocks)
      (doublyShare id.blocks))
    (hlength : 0 ≤ id.length.toInt) (hblocks : id.blocks ≤ maxBlocks) :
    ∃ fs', inodeDeallocate bitmapWrite id fs = some fs' ∧
      Released file fs fs' (id.sectors fs.kids id.blocks) := by
  have hneg : ¬ id.length < 0 := by
    rw [Int32.lt_iff_toInt_lt]
    exact Int.not_lt.mpr hlength
  have hnodup := hparts.nodup
  rw [InodeDisk.partSectors, List.nodup_append', List.nodup_append'] at hnodup
  obtain ⟨⟨-, -, hdi⟩, -, hdd⟩ := hnodup
  have hdoubly := doublyShare_le hblocks
  generalize hw : id.blocks = w at *
  have hlist : bytesToSectors (min w 124) (128 ^ 0) = min w 124 := by
    rw [Nat.pow_zero, bytesToSectors, Nat.div_one]
    rfl
  have hshare : (fun i : Fin 124 => share (128 ^ 0) (min w 124) i) =
      fun i : Fin 124 => share (128 ^ 0) w i := by
    funext i
    have hi := i.isLt
    simp only [share, Nat.pow_zero]
    omega
  have hforest : forestSectors fs.kids 0 id.directIndex (min w 124) =
      forestSectors fs.kids 0 id.directIndex w := by
    rw [forestSectors, forestSectors]
    exact List.flatMap_congr fun i _ =>
      congrArg (treeSectors fs.kids 0 (id.directIndex i)) (congrFun hshare i)
  obtain ⟨fs₁, hrun₁, hrel₁⟩ := deallocateEntries_take ReleaseSpec.release
    (min w 124) id.directIndex (by omega) hfs
    (by rw [hshare]; exact hparts.forest)
  rw [hlist, Nat.pow_zero] at hrun₁
  rw [hforest] at hrel₁
  obtain ⟨hindirect, hsectors₁⟩ := hparts.indirectTree.after_release hrel₁
    fun s hs hmem => hdi hmem hs
  obtain ⟨hdoubly₁, hsectors₂⟩ := hparts.doublyTree.after_release hrel₁
    fun s hs hmem => hdd (List.mem_append_left _ hmem) hs
  obtain ⟨fs₂, hrun₂, hrel₂⟩ :=
    deallocateIfAny_spec (by decide) hrel₁.ready hindirect
  rw [hsectors₁] at hrel₂
  obtain ⟨hdoubly₂, hsectors₃⟩ := hdoubly₁.after_release hrel₂
    fun s hs hmem => hdd (List.mem_append_right _ hmem) (hsectors₂ ▸ hs)
  obtain ⟨fs₃, hrun₃, hrel₃⟩ :=
    deallocateIfAny_spec (Nat.le_refl 2) hrel₂.ready hdoubly₂
  rw [hsectors₃, hsectors₂] at hrel₃
  have hleft₁ : w - min w 124 = w - 124 := by omega
  have hleft₃ : doublyShare w - min (doublyShare w) (128 * 128) = 0 := by omega
  refine ⟨fs₃, ?_, ?_⟩
  · rw [inodeDeallocate, if_neg hneg]
    change (deallocateEntries _ 1 ((List.ofFn id.directIndex).take
      (min id.blocks 124)) (min id.blocks 124) fs).bind _ = _
    rw [hw, hrun₁, Option.bind_some]
    change (inodeDeallocate.deallocateIfAny bitmapWrite 1 id.indirectIndex
      (min (id.blocks - min id.blocks 124) 128) fs₁).bind _ = _
    rw [hw, hleft₁]
    change (inodeDeallocate.deallocateIfAny bitmapWrite 1 id.indirectIndex
      (indirectShare w) fs₁).bind _ = _
    rw [hrun₂, Option.bind_some]
    change (inodeDeallocate.deallocateIfAny bitmapWrite 2
      id.doublyIndirectIndex (min (id.blocks - min id.blocks 124 -
        min (id.blocks - min id.blocks 124) 128) (128 * 128)) fs₂).bind _ = _
    rw [hw, hleft₁]
    change (inodeDeallocate.deallocateIfAny bitmapWrite 2
      id.doublyIndirectIndex (min (w - 124 - indirectShare w) (128 * 128))
        fs₂).bind _ = _
    rw [sub_indirectShare, Nat.min_eq_left hdoubly, hrun₃, Option.bind_some]
    change (if id.blocks - min id.blocks 124 -
        min (id.blocks - min id.blocks 124) 128 - min (id.blocks -
          min id.blocks 124 - min (id.blocks - min id.blocks 124) 128)
          (128 * 128) = 0 then some fs₃ else none) = some fs₃
    rw [hw, hleft₁]
    change (if w - 124 - indirectShare w - min (w - 124 - indirectShare w)
      (128 * 128) = 0 then some fs₃ else none) = some fs₃
    rw [sub_indirectShare, if_pos hleft₃]
  · rw [InodeDisk.sectors, InodeDisk.partSectors, List.append_assoc]
    exact hrel₁.trans (hrel₂.trans hrel₃)

end PintosLabs
