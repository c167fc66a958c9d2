/-
`inode_allocate_indirect` builds index trees: a tree that covers some blocks
comes to cover more of them, on freshly allocated and cleared sectors, and the
blocks it covered before stay where they are.
-/
import PintosLabs.IndexTree
import PintosLabs.SectorAlloc

namespace PintosLabs

variable {σ : Type} [SectorStore σ BlockSector Block]

/-- A tree that may be grown: it is in order, and its sectors are its own. -/
structure TreeReady (own : List BlockSector) (fs : FileSys σ) (level : Nat)
    (entry : BlockSector) (w : Nat) : Prop where
  ok : TreeOk fs.kids level entry w
  nodup : (treeSectors fs.kids level entry w).Nodup
  used : ∀ s ∈ treeSectors fs.kids level entry w, fs.Used s
  foreign : ∀ s ∈ treeSectors fs.kids level entry w, s ∉ own

/-- The tree has grown from `w` to `w'` blocks: its old blocks are where they
were, with the same bytes, and its new ones are cleared. -/
structure Grows (fs fs' : FileSys σ) (level : Nat) (entry entry' : BlockSector)
    (w w' : Nat) : Prop where
  ok : TreeOk fs'.kids level entry' w'
  keep : ∀ k < w,
    treeLeaf fs'.kids level entry' k = treeLeaf fs.kids level entry k ∧
      fs'.view (treeLeaf fs.kids level entry k) =
        fs.view (treeLeaf fs.kids level entry k)
  zero : ∀ k, w ≤ k → k < w' →
    fs'.view (treeLeaf fs'.kids level entry' k) = zeros

section ViewEq

variable {fs fs' : FileSys σ} {level w : Nat} {entry : BlockSector}
  (hview : ∀ s ∈ treeSectors fs.kids level entry w, fs'.view s = fs.view s)
include hview

theorem kids_eq_of_view_eq : ∀ s ∈ treeIndex fs.kids level entry w,
    fs'.kids s = fs.kids s := by
  intro s hs
  rw [FileSys.kids, hview s (treeIndex_subset _ _ _ hs), FileSys.kids]

theorem treeSectors_of_view_eq : treeSectors fs'.kids level entry w =
    treeSectors fs.kids level entry w :=
  treeSectors_congr (kids_eq_of_view_eq hview)

theorem TreeReady.of_view_eq {own : List BlockSector}
    (htree : TreeReady own fs level entry w)
    (hused : ∀ s, fs.Used s → fs'.Used s) :
    TreeReady own fs' level entry w := by
  have hsectors := treeSectors_of_view_eq hview
  refine ⟨htree.ok.congr (kids_eq_of_view_eq hview), ?_, ?_, ?_⟩
  · rw [hsectors]
    exact htree.nodup
  · rw [hsectors]
    exact fun s hs => hused s (htree.used s hs)
  · rw [hsectors]
    exact htree.foreign

theorem treeLeaf_of_view_eq {k : Nat} (hk : k < w) :
    treeLeaf fs'.kids level entry k = treeLeaf fs.kids level entry k :=
  treeLeaf_congr (kids_eq_of_view_eq hview) hk (by decide)

/-- What happens before the growth may touch other sectors. -/
theorem Grows.after {fs'' : FileSys σ} {entry' : BlockSector} {w' : Nat}
    (hw : w ≤ 128 ^ level)
    (hgrows : Grows fs' fs'' level entry entry' w w') :
    Grows fs fs'' level entry entry' w w' := by
  refine ⟨hgrows.ok, fun k hk => ?_, hgrows.zero⟩
  have hleaf := treeLeaf_of_view_eq hview hk
  have hmem := treeLeaf_mem fs.kids entry hk hw
  obtain ⟨hsame, hbytes⟩ := hgrows.keep k hk
  rw [hleaf] at hsame hbytes
  exact ⟨hsame, hbytes.trans (hview _ hmem)⟩

/-- What happens after the growth may touch other sectors. -/
theorem Grows.before {fs₀ : FileSys σ} {entry₀ : BlockSector} {w₀ : Nat}
    (hgrows : Grows fs₀ fs level entry₀ entry w₀ w) (hle : w₀ ≤ w) :
    Grows fs₀ fs' level entry₀ entry w₀ w := by
  have hw := hgrows.ok.le
  refine ⟨hgrows.ok.congr (kids_eq_of_view_eq hview), fun k hk => ?_,
    fun k hk hk' => ?_⟩
  · have hkw := Nat.lt_of_lt_of_le hk hle
    obtain ⟨hsame, hbytes⟩ := hgrows.keep k hk
    have hmem := treeLeaf_mem fs.kids entry hkw hw
    rw [treeLeaf_of_view_eq hview hkw]
    refine ⟨hsame, ?_⟩
    rw [← hsame, hview _ hmem, hsame]
    exact hbytes
  · have hmem := treeLeaf_mem fs.kids entry hk' hw
    rw [treeLeaf_of_view_eq hview hk', hview _ hmem]
    exact hgrows.zero k hk hk'

end ViewEq

theorem Grows.le {fs fs' : FileSys σ} {level : Nat} {entry entry' : BlockSector}
    {w w' : Nat} (hgrows : Grows fs fs' level entry entry' w w') :
    w' ≤ 128 ^ level :=
  hgrows.ok.le

/-- There is room for a tree of `before` sectors to get `after` sectors. -/
def FileSys.Room (fs : FileSys σ) (before after : Nat) : Prop :=
  after ≤ before + fs.freeCount ∧ fs.MemoryOk

/-- Whatever the run returns, an allocation has failed in it. -/
def FailsMore {α : Type} (fs : FileSys σ) (run : Option (α × FileSys σ)) :
    Prop :=
  ∀ a fs', run = some (a, fs') → fs.allocFailures < fs'.allocFailures

section Grown

variable (ready synced : FileSys σ → Prop) (own data : List BlockSector)

/-- The tree has grown, on the sectors `new`. -/
structure TreeGrown (fs fs' : FileSys σ) (level : Nat)
    (entry entry' : BlockSector) (w w' : Nat) (new : List BlockSector) : Prop
    extends Grows fs fs' level entry entry' w w' where
  alloc : Allocated ready synced own data fs fs' new
    (treeSectors fs'.kids level entry' w')
  perm : (treeSectors fs'.kids level entry' w').Perm
    (treeSectors fs.kids level entry w ++ new)

/-- Visiting the entry of a tree grows it to `n` blocks, or an allocation
fails for want of room. -/
def VisitSpec (level n : Nat)
    (visit : BlockSector → FileSys σ → Option (BlockSector × FileSys σ)) :
    Prop :=
  ∀ fs entry w, AllocReady ready own fs → TreeReady own fs level entry w →
    (∃ entry' fs' new, visit entry fs = some (entry', fs') ∧
      TreeGrown ready synced own data fs fs' level entry entry' w (max w n)
        new) ∨
    (¬ fs.Room (treeSize 128 level w) (treeSize 128 level (max w n)) ∧
      FailsMore fs (visit entry fs))

/-- The trees below the listed entries have grown, on the sectors `new`. -/
structure ForestGrown {m : Nat} (fs fs' : FileSys σ) (level : Nat)
    (indices : List (Fin m)) (entries entries' : Fin m → BlockSector)
    (w w' : Fin m → Nat) (new : List BlockSector) : Prop where
  other : ∀ i, i ∉ indices → entries' i = entries i
  grows : ∀ i ∈ indices,
    Grows fs fs' level (entries i) (entries' i) (w i) (w' i)
  alloc : Allocated ready synced own data fs fs' new
    (indices.flatMap fun i => treeSectors fs'.kids level (entries' i) (w' i))
  perm : (indices.flatMap fun i =>
      treeSectors fs'.kids level (entries' i) (w' i)).Perm
    (indices.flatMap (fun i => treeSectors fs.kids level (entries i) (w i)) ++
      new)

end Grown

/-- Visit the listed entries, one after the other. -/
def forEntries {m : Nat}
    (visit : Fin m → BlockSector → FileSys σ → Option (BlockSector × FileSys σ)) :
    List (Fin m) → (Fin m → BlockSector) → FileSys σ →
      Option ((Fin m → BlockSector) × FileSys σ)
  | [], entries, fs => some (entries, fs)
  | i :: rest, entries, fs => do
      let (entry, fs) ← visit i (entries i) fs
      forEntries visit rest (Function.update entries i entry) fs

omit [SectorStore σ BlockSector Block] in
theorem forEntries_mono {m : Nat}
    {visit : Fin m → BlockSector → FileSys σ → Option (BlockSector × FileSys σ)}
    (hmono : ∀ i entry fs entry' fs', visit i entry fs = some (entry', fs') →
      fs.allocFailures ≤ fs'.allocFailures)
    {indices : List (Fin m)} {entries entries' : Fin m → BlockSector}
    {fs fs' : FileSys σ}
    (hrun : forEntries visit indices entries fs = some (entries', fs')) :
    fs.allocFailures ≤ fs'.allocFailures := by
  induction indices generalizing entries fs with
  | nil =>
      simp only [forEntries, Option.some.injEq, Prod.mk.injEq] at hrun
      rw [hrun.2]
  | cons i rest ih =>
      simp only [forEntries, Option.bind_eq_bind,
        Option.bind_eq_some_iff] at hrun
      obtain ⟨⟨entry, fs₁⟩, hfirst, hrest⟩ := hrun
      exact (hmono _ _ _ _ _ hfirst).trans (ih hrest)

omit [SectorStore σ BlockSector Block] in
/-- The loop of `allocate_entries` over consecutive entries gives each one its
share. -/
theorem allocateEntries_eq {m : Nat}
    (allocate : BlockSector → Nat → FileSys σ → Option (BlockSector × FileSys σ))
    (unit n i : Nat) (indices : List (Fin m)) (entries : Fin m → BlockSector)
    (fs : FileSys σ)
    (hindices : ∀ j (h : j < indices.length), (indices[j]).val = i + j)
    (hn : n ≤ (i + indices.length) * unit) :
    allocateEntries allocate unit indices (n - i * unit) entries fs =
      forEntries (fun i entry fs => allocate entry (share unit n i) fs) indices
        entries fs := by
  induction indices generalizing i entries fs with
  | nil =>
      rw [List.length_nil, Nat.add_zero] at hn
      rw [allocateEntries, forEntries, if_pos (Nat.sub_eq_zero_of_le hn)]
  | cons head tail ih =>
      have hhead : head.val = i := hindices 0 (Nat.zero_lt_succ _)
      have hleft : n - i * unit - min (n - i * unit) unit =
          n - (i + 1) * unit := by
        rw [Nat.add_mul, Nat.one_mul]
        omega
      simp only [allocateEntries, forEntries, hleft, share, hhead]
      congr 1
      funext r
      refine ih (i + 1) _ _ (fun j hj => ?_) ?_
      · have hnext := hindices (j + 1) (Nat.succ_lt_succ hj)
        rw [List.getElem_cons_succ] at hnext
        omega
      · rw [List.length_cons] at hn
        rwa [Nat.add_right_comm, Nat.add_assoc]

section Forest

variable {ready synced : FileSys σ → Prop} {own data : List BlockSector}

theorem Allocated.used_mono {fs fs' : FileSys σ} {new touched : List BlockSector}
    (halloc : Allocated ready synced own data fs fs' new touched) {s : BlockSector}
    (hs : fs.Used s) : fs'.Used s :=
  (halloc.used s).mpr (Or.inl hs)

/-- The sectors of a grown tree are in use, and no one else's. -/
theorem TreeGrown.treeReady {fs fs' : FileSys σ} {level w w' : Nat}
    {entry entry' : BlockSector} {new : List BlockSector}
    (hfs : AllocReady ready own fs) (htree : TreeReady own fs level entry w)
    (hgrown : TreeGrown ready synced own data fs fs' level entry entry' w w' new) :
    TreeReady own fs' level entry' w' := by
  refine ⟨hgrown.ok, ?_, fun s hs => ?_, fun s hs => ?_⟩
  · rw [hgrown.perm.nodup_iff, List.nodup_append']
    exact ⟨htree.nodup, hgrown.alloc.nodup,
      fun s hs hnew => hgrown.alloc.free s hnew (htree.used s hs)⟩
  · rcases List.mem_append.mp (hgrown.perm.mem_iff.mp hs) with hs | hs
    · exact hgrown.alloc.used_mono (htree.used s hs)
    · exact (hgrown.alloc.used s).mpr (Or.inr hs)
  · rcases List.mem_append.mp (hgrown.perm.mem_iff.mp hs) with hs | hs
    · exact htree.foreign s hs
    · exact fun hown => hgrown.alloc.free s hs (hfs.own_used s hown)

/-- A grown tree leaves alone what was in use and is not its own. -/
theorem TreeGrown.view_eq (hspec : data ⊆ own) {fs fs' : FileSys σ}
    {level w w' : Nat} {entry entry' : BlockSector} {new : List BlockSector}
    (hgrown : TreeGrown ready synced own data fs fs' level entry entry' w w' new)
    {s : BlockSector} (hs : s ∉ treeSectors fs.kids level entry w)
    (hused : fs.Used s) (hforeign : s ∉ own) : fs'.view s = fs.view s := by
  apply hgrown.alloc.frame s
  · intro hmem
    rcases List.mem_append.mp (hgrown.perm.mem_iff.mp hmem) with hmem | hmem
    · exact hs hmem
    · exact hgrown.alloc.free s hmem hused
  · exact fun hdata => hforeign (hspec hdata)

/-- What the trees of several entries need in order to grow. -/
structure ForestReady {m : Nat} (own : List BlockSector) (fs : FileSys σ)
    (level : Nat) (indices : List (Fin m)) (entries : Fin m → BlockSector)
    (w : Fin m → Nat) : Prop where
  tree : ∀ i ∈ indices, TreeReady own fs level (entries i) (w i)
  disjoint : (indices.flatMap fun i =>
    treeSectors fs.kids level (entries i) (w i)).Nodup

/-- Growing the first tree leaves the others ready to grow. -/
theorem ForestReady.tail (hsub : data ⊆ own) {m : Nat} {fs fs₁ : FileSys σ}
    {level : Nat} {i : Fin m} {rest : List (Fin m)}
    {entries : Fin m → BlockSector} {entry : BlockSector} {w : Fin m → Nat}
    {w' : Nat} {new : List BlockSector} (hi : i ∉ rest)
    (hready : ForestReady own fs level (i :: rest) entries w)
    (hgrown : TreeGrown ready synced own data fs fs₁ level (entries i) entry
      (w i) w' new) :
    (∀ j ∈ rest, ∀ s ∈ treeSectors fs.kids level (entries j) (w j),
      fs₁.view s = fs.view s) ∧
    ForestReady own fs₁ level rest (Function.update entries i entry) w := by
  have hdisjoint := hready.disjoint
  rw [List.flatMap_cons, List.nodup_append'] at hdisjoint
  have hview : ∀ j ∈ rest, ∀ s ∈ treeSectors fs.kids level (entries j) (w j),
      fs₁.view s = fs.view s := by
    intro j hj s hs
    have htree := hready.tree j (List.mem_cons_of_mem _ hj)
    refine hgrown.view_eq hsub (fun hmem => ?_) (htree.used s hs)
      (htree.foreign s hs)
    exact hdisjoint.2.2 hmem (List.mem_flatMap.mpr ⟨j, hj, hs⟩)
  have hentry : ∀ j ∈ rest, Function.update entries i entry j = entries j := by
    intro j hj
    apply Function.update_of_ne
    rintro rfl
    exact hi hj
  refine ⟨hview, fun j hj => ?_, ?_⟩
  · rw [hentry j hj]
    exact (hready.tree j (List.mem_cons_of_mem _ hj)).of_view_eq (hview j hj)
      fun s hs => hgrown.alloc.used_mono hs
  · have hsectors : rest.flatMap (fun j => treeSectors fs₁.kids level
          (Function.update entries i entry j) (w j)) =
        rest.flatMap fun j => treeSectors fs.kids level (entries j) (w j) := by
      apply List.flatMap_congr
      intro j hj
      rw [hentry j hj, treeSectors_of_view_eq (hview j hj)]
    rw [hsectors]
    exact hdisjoint.2.1

/-- A tree that has grown and the trees that grow after it. -/
theorem ForestGrown.cons (hsub : data ⊆ own) {m : Nat} {fs fs₁ fs₂ : FileSys σ}
    {level : Nat} {i : Fin m} {rest : List (Fin m)}
    {entries entries' : Fin m → BlockSector} {entry : BlockSector}
    {w w' : Fin m → Nat} {new₁ new₂ : List BlockSector}
    (hfs : AllocReady ready own fs) (hi : i ∉ rest) (hle : ∀ j, w j ≤ w' j)
    (hready : ForestReady own fs level (i :: rest) entries w)
    (hfirst : TreeGrown ready synced own data fs fs₁ level (entries i) entry
      (w i) (w' i) new₁)
    (hrest : ForestGrown ready synced own data fs₁ fs₂ level rest
      (Function.update entries i entry) entries' w w' new₂) :
    ForestGrown ready synced own data fs fs₂ level (i :: rest) entries entries'
      w w' (new₁ ++ new₂) := by
  have hdisjoint := hready.disjoint
  rw [List.flatMap_cons, List.nodup_append'] at hdisjoint
  obtain ⟨hview, hready₁⟩ := hready.tail hsub hi hfirst
  have hhead := hready.tree i List.mem_cons_self
  have htree := hfirst.treeReady hfs hhead
  have hentry : entries' i = entry := by
    rw [hrest.other i hi, Function.update_self]
  have hother : ∀ j ∈ rest, Function.update entries i entry j = entries j := by
    intro j hj
    apply Function.update_of_ne
    rintro rfl
    exact hi hj
  have hsectors : rest.flatMap (fun j => treeSectors fs₁.kids level
        (Function.update entries i entry j) (w j)) =
      rest.flatMap fun j => treeSectors fs.kids level (entries j) (w j) := by
    apply List.flatMap_congr
    intro j hj
    rw [hother j hj, treeSectors_of_view_eq (hview j hj)]
  -- the first tree is not written to while the others grow
  have hstill : ∀ s ∈ treeSectors fs₁.kids level entry (w' i),
      fs₂.view s = fs₁.view s := by
    intro s hs
    refine hrest.alloc.frame s (fun hmem => ?_) (fun hdata => ?_)
    · rw [hrest.perm.mem_iff, List.mem_append, hsectors] at hmem
      rcases hmem with hmem | hmem
      · rcases List.mem_append.mp (hfirst.perm.mem_iff.mp hs) with hs | hs
        · exact hdisjoint.2.2 hs hmem
        · obtain ⟨j, hj, hmem⟩ := List.mem_flatMap.mp hmem
          exact hfirst.alloc.free s hs
            ((hready.tree j (List.mem_cons_of_mem _ hj)).used s hmem)
      · exact hrest.alloc.free s hmem (htree.used s hs)
    · exact htree.foreign s hs (hsub hdata)
  have hsame := treeSectors_of_view_eq hstill
  refine ⟨fun j hj => ?_, fun j hj => ?_, ?_, ?_⟩
  · rw [List.mem_cons, not_or] at hj
    rw [hrest.other j hj.2, Function.update_of_ne hj.1]
  · rcases List.mem_cons.mp hj with rfl | hj
    · rw [hentry]
      exact Grows.before hstill hfirst.toGrows (hle j)
    · have hgrows := hrest.grows j hj
      rw [hother j hj] at hgrows
      exact Grows.after (hview j hj)
        (hready.tree j (List.mem_cons_of_mem _ hj)).ok.le hgrows
  · rw [List.flatMap_cons, hentry, hsame]
    exact hfirst.alloc.trans hrest.alloc
  · rw [List.flatMap_cons, List.flatMap_cons, hentry, hsame]
    have hperm := hfirst.perm.append hrest.perm
    rw [hsectors] at hperm
    refine hperm.trans ?_
    simp only [List.append_assoc]
    apply List.Perm.append_left
    rw [← List.append_assoc, ← List.append_assoc]
    exact List.perm_append_comm.append_right new₂

/-- How many sectors several trees have. -/
def forestSize {m : Nat} (level : Nat) (indices : List (Fin m))
    (w : Fin m → Nat) : Nat :=
  (indices.map fun i => treeSize 128 level (w i)).sum

theorem forestSize_mono {m : Nat} (level : Nat) (indices : List (Fin m))
    {w w' : Fin m → Nat} (hle : ∀ i, w i ≤ w' i) :
    forestSize level indices w ≤ forestSize level indices w' :=
  List.sum_le_sum fun i _ => treeSize_mono 128 level (hle i)

theorem ForestGrown.size_eq {m : Nat} {fs fs' : FileSys σ} {level : Nat}
    {indices : List (Fin m)} {entries entries' : Fin m → BlockSector}
    {w w' : Fin m → Nat} {new : List BlockSector}
    (hgrown : ForestGrown ready synced own data fs fs' level indices entries
      entries' w w' new) :
    forestSize level indices w' = forestSize level indices w + new.length := by
  have hlength := hgrown.perm.length_eq
  simpa only [forestSize, List.length_append, List.length_flatMap,
    length_treeSectors] using hlength

theorem TreeGrown.size_eq {fs fs' : FileSys σ} {level w w' : Nat}
    {entry entry' : BlockSector} {new : List BlockSector}
    (hgrown : TreeGrown ready synced own data fs fs' level entry entry' w w' new) :
    treeSize 128 level w' = treeSize 128 level w + new.length := by
  have hlength := hgrown.perm.length_eq
  simpa only [List.length_append, length_treeSectors] using hlength

/-- After part of the growth there is room for the rest. -/
theorem Allocated.room {fs fs' : FileSys σ} {new touched : List BlockSector}
    (halloc : Allocated ready synced own data fs fs' new touched)
    {before after rest rest' : Nat} (hsize : after = before + new.length)
    (hroom : fs.Room (before + rest) (after + rest')) : fs'.Room rest rest' := by
  obtain ⟨hcount, hmemory⟩ := hroom
  have hfree := halloc.count
  exact ⟨by omega, halloc.memory hmemory⟩

/-- Visiting the entries grows the trees below them, or an allocation fails
for want of room. -/
theorem forEntries_spec (hsub : data ⊆ own) {m : Nat} (level : Nat)
    {n : Fin m → Nat}
    {visit : Fin m → BlockSector → FileSys σ → Option (BlockSector × FileSys σ)}
    {indices : List (Fin m)}
    (hvisit : ∀ i ∈ indices,
      VisitSpec ready synced own data level (n i) (visit i))
    (hmono : ∀ i entry fs entry' fs', visit i entry fs = some (entry', fs') →
      fs.allocFailures ≤ fs'.allocFailures)
    (hnodup : indices.Nodup)
    {entries : Fin m → BlockSector} {w : Fin m → Nat} {fs : FileSys σ}
    (hfs : AllocReady ready own fs)
    (hready : ForestReady own fs level indices entries w) :
    (∃ entries' fs' new, forEntries visit indices entries fs =
        some (entries', fs') ∧
      ForestGrown ready synced own data fs fs' level indices entries entries' w
        (fun i => max (w i) (n i)) new) ∨
    (¬ fs.Room (forestSize level indices w)
        (forestSize level indices fun i => max (w i) (n i)) ∧
      FailsMore fs (forEntries visit indices entries fs)) := by
  have hle : ∀ i, w i ≤ max (w i) (n i) := fun i => Nat.le_max_left _ _
  induction indices generalizing entries fs with
  | nil =>
      refine Or.inl ⟨entries, fs, [], rfl, fun _ _ => rfl, by simp, ?_, by simp⟩
      exact Allocated.refl hfs
  | cons i rest ih =>
      rw [List.nodup_cons] at hnodup
      rw [List.forall_mem_cons] at hvisit
      rcases hvisit.1 fs (entries i) (w i) hfs
          (hready.tree i List.mem_cons_self) with
        ⟨entry, fs₁, new₁, hrun, hfirst⟩ | ⟨hfull, hfail⟩
      · obtain ⟨-, hready₁⟩ := hready.tail hsub hnodup.1 hfirst
        rcases ih hvisit.2 hnodup.2 hfirst.alloc.ready hready₁ with
          ⟨entries', fs₂, new₂, hruns, hrest⟩ | ⟨hfull, hfail⟩
        · refine Or.inl ⟨entries', fs₂, new₁ ++ new₂, ?_,
            ForestGrown.cons hsub hfs hnodup.1 hle hready hfirst hrest⟩
          simp [forEntries, hrun, hruns]
        · refine Or.inr ⟨fun hroom => hfull ?_, fun entries' fs' hall => ?_⟩
          · exact hfirst.alloc.room hfirst.size_eq hroom
          · simp only [forEntries, hrun, Option.bind_eq_bind,
              Option.bind_some] at hall
            exact hfirst.alloc.allocFailures ▸ hfail entries' fs' hall
      · refine Or.inr ⟨fun hroom => hfull ?_, fun entries' fs' hall => ?_⟩
        · have hmonoSize := forestSize_mono level rest hle
          obtain ⟨hcount, hmemory⟩ := hroom
          simp only [forestSize, List.map_cons, List.sum_cons] at hcount hmonoSize
          exact ⟨by omega, hmemory⟩
        · simp only [forEntries, Option.bind_eq_bind,
            Option.bind_eq_some_iff] at hall
          obtain ⟨⟨entry, fs₁⟩, hrun, hall⟩ := hall
          exact Nat.lt_of_lt_of_le (hfail entry fs₁ hrun)
            (forEntries_mono hmono hall)

/-- The trees of further entries, for which nothing is left, stay. -/
theorem ForestGrown.append (hsub : data ⊆ own) {m : Nat} {fs fs' : FileSys σ}
    {level : Nat} {first second : List (Fin m)}
    {entries entries' : Fin m → BlockSector} {w w' : Fin m → Nat}
    {new : List BlockSector} (hnodup : (first ++ second).Nodup)
    (hready : ForestReady own fs level (first ++ second) entries w)
    (hsame : ∀ i ∈ second, w' i = w i)
    (hgrown : ForestGrown ready synced own data fs fs' level first entries
      entries' w w' new) :
    ForestGrown ready synced own data fs fs' level (first ++ second) entries
      entries' w w' new := by
  have hdisjoint := hready.disjoint
  rw [List.flatMap_append, List.nodup_append'] at hdisjoint
  have hentry : ∀ i ∈ second, entries' i = entries i := fun i hi =>
    hgrown.other i fun hfirst => List.disjoint_of_nodup_append hnodup hfirst hi
  have hview : ∀ i ∈ second, ∀ s ∈ treeSectors fs.kids level (entries i) (w i),
      fs'.view s = fs.view s := by
    intro i hi s hs
    have htree := hready.tree i (List.mem_append_right _ hi)
    refine hgrown.alloc.frame s (fun hmem => ?_)
      (fun hdata => htree.foreign s hs (hsub hdata))
    rcases List.mem_append.mp (hgrown.perm.mem_iff.mp hmem) with hmem | hmem
    · exact hdisjoint.2.2 hmem (List.mem_flatMap.mpr ⟨i, hi, hs⟩)
    · exact hgrown.alloc.free s hmem (htree.used s hs)
  have hsectors : second.flatMap (fun i =>
        treeSectors fs'.kids level (entries' i) (w' i)) =
      second.flatMap fun i => treeSectors fs.kids level (entries i) (w i) := by
    apply List.flatMap_congr
    intro i hi
    rw [hentry i hi, hsame i hi, treeSectors_of_view_eq (hview i hi)]
  refine ⟨fun i hi => hgrown.other i fun h => hi (List.mem_append_left _ h),
    fun i hi => ?_, hgrown.alloc.mono ?_, ?_⟩
  · rcases List.mem_append.mp hi with hi | hi
    · exact hgrown.grows i hi
    · have htree := hready.tree i (List.mem_append_right _ hi)
      rw [hentry i hi, hsame i hi]
      refine Grows.before (hview i hi) ⟨htree.ok, fun _ _ => ⟨rfl, rfl⟩, ?_⟩
        (Nat.le_refl _)
      intro k hk hk'
      omega
  · rw [List.flatMap_append]
    exact List.subset_append_left _ _
  · rw [List.flatMap_append, List.flatMap_append, hsectors, List.append_assoc]
    refine (hgrown.perm.append_right _).trans ?_
    rw [List.append_assoc]
    exact List.perm_append_comm.append_left _

theorem getElem_take_finRange {m l j : Nat}
    (hj : j < ((List.finRange m).take l).length) :
    (((List.finRange m).take l)[j]).val = j := by
  rw [List.getElem_take, List.getElem_finRange]
  rfl

theorem le_of_mem_drop_finRange {m l : Nat} {i : Fin m}
    (hi : i ∈ (List.finRange m).drop l) : l ≤ i.val := by
  obtain ⟨j, hj, rfl⟩ := List.getElem_of_mem hi
  rw [List.getElem_drop, List.getElem_finRange]
  exact Nat.le_add_right l j

theorem bytesToSectors_le_iff {n unit k : Nat} (hunit : 0 < unit) :
    bytesToSectors n unit ≤ k ↔ n ≤ k * unit := by
  rw [bytesToSectors, Nat.div_le_iff_le_mul_add_pred hunit, Nat.mul_comm]
  omega

/-- The first entries each cover one of `n` blocks. -/
theorem bytesToSectors_mono {m n unit : Nat} (hunit : 0 < unit) (hle : m ≤ n) :
    bytesToSectors m unit ≤ bytesToSectors n unit :=
  (bytesToSectors_le_iff hunit).mpr
    (hle.trans ((bytesToSectors_le_iff hunit).mp (Nat.le_refl _)))

theorem share_pos_of_mem_take {m n unit : Nat} (hunit : 0 < unit) {i : Fin m}
    (hi : i ∈ (List.finRange m).take (bytesToSectors n unit)) :
    0 < share unit n i := by
  obtain ⟨j, hj, rfl⟩ := List.getElem_of_mem hi
  rw [getElem_take_finRange hj]
  rw [List.length_take] at hj
  have hlt : ¬ bytesToSectors n unit ≤ j := by omega
  rw [bytesToSectors_le_iff hunit] at hlt
  simp only [share]
  omega

/-- The others cover none of them. -/
theorem share_eq_zero_of_mem_drop {m n unit : Nat} (hunit : 0 < unit) {i : Fin m}
    (hi : i ∈ (List.finRange m).drop (bytesToSectors n unit)) :
    share unit n i = 0 := by
  have hle := (bytesToSectors_le_iff hunit).mp (le_of_mem_drop_finRange hi)
  rw [share, Nat.sub_eq_zero_of_le hle, Nat.zero_min]

/-- The loop over the entries of an index, each of which is given a share of
`n` blocks, takes all the trees below them from `w` to `n` blocks. -/
theorem allocateEntries_spec (hsub : data ⊆ own) {m w : Nat} (level n : Nat)
    (allocate : BlockSector → Nat → FileSys σ → Option (BlockSector × FileSys σ))
    (hallocate : ∀ k, 0 < k → k ≤ 128 ^ level →
      VisitSpec ready synced own data level k fun entry => allocate entry k)
    (hmono : ∀ entry k fs entry' fs', allocate entry k fs = some (entry', fs') →
      fs.allocFailures ≤ fs'.allocFailures)
    {entries : Fin m → BlockSector} {fs : FileSys σ}
    (hn : n ≤ m * 128 ^ level) (hfs : AllocReady ready own fs)
    (hready : ForestReady own fs level (List.finRange m) entries
      fun i => share (128 ^ level) w i) :
    (∃ entries' fs' new,
      allocateEntries allocate (128 ^ level)
          ((List.finRange m).take (bytesToSectors n (128 ^ level))) n entries fs =
        some (entries', fs') ∧
      ForestGrown ready synced own data fs fs' level (List.finRange m) entries
        entries' (fun i => share (128 ^ level) w i)
        (fun i => share (128 ^ level) (max w n) i) new) ∨
    (¬ fs.Room
        (forestSize level (List.finRange m) fun i => share (128 ^ level) w i)
        (forestSize level (List.finRange m) fun i =>
          share (128 ^ level) (max w n) i) ∧
      FailsMore fs (allocateEntries allocate (128 ^ level)
        ((List.finRange m).take (bytesToSectors n (128 ^ level))) n entries
        fs)) := by
  have hunit : 0 < 128 ^ level := Nat.pow_pos (by decide)
  set l := bytesToSectors n (128 ^ level) with hl
  have hsplit : (List.finRange m).take l ++ (List.finRange m).drop l =
      List.finRange m := List.take_append_drop l _
  have hlm : l ≤ m := (bytesToSectors_le_iff hunit).mpr hn
  have hlength : ((List.finRange m).take l).length = l := by
    rw [List.length_take, List.length_finRange, Nat.min_eq_left hlm]
  have hloop := allocateEntries_eq allocate (128 ^ level) n 0
    ((List.finRange m).take l) entries fs
    (fun j hj => by rw [getElem_take_finRange, Nat.zero_add])
    (by rw [Nat.zero_add, hlength]; exact (bytesToSectors_le_iff hunit).mp hl.le)
  rw [Nat.zero_mul, Nat.sub_zero] at hloop
  have hshare : (fun i : Fin m => share (128 ^ level) (max w n) i) =
      fun i : Fin m => max (share (128 ^ level) w i) (share (128 ^ level) n i) := by
    funext i
    exact share_max _ _ _ _
  have hpositive : ∀ i ∈ (List.finRange m).take l, 0 < share (128 ^ level) n i :=
    fun i hi => share_pos_of_mem_take hunit hi
  have hnothing : ∀ i ∈ (List.finRange m).drop l,
      share (128 ^ level) (max w n) i = share (128 ^ level) w i := by
    intro i hi
    rw [share_max, share_eq_zero_of_mem_drop hunit hi, Nat.max_zero]
  rw [hloop]
  have htake : ForestReady own fs level ((List.finRange m).take l) entries
      fun i => share (128 ^ level) w i :=
    ⟨fun i _ => hready.tree i (List.mem_finRange i), by
      have hdisjoint := hready.disjoint
      rw [← hsplit, List.flatMap_append] at hdisjoint
      exact hdisjoint.of_append_left⟩
  rcases forEntries_spec hsub level
      (fun i hi => hallocate _ (hpositive i hi) (share_le _ _ _))
      (fun i => fun entry => hmono entry _)
      ((List.nodup_finRange m).sublist (List.take_sublist _ _)) hfs htake with
    ⟨entries', fs', new, hrun, hgrown⟩ | ⟨hfull, hfail⟩
  · refine Or.inl ⟨entries', fs', new, hrun, ?_⟩
    rw [← hshare] at hgrown
    have hwhole := ForestGrown.append hsub
      (by rw [hsplit]; exact List.nodup_finRange m)
      (by rw [hsplit]; exact hready) hnothing hgrown
    rwa [hsplit] at hwhole
  · refine Or.inr ⟨fun hroom => hfull ?_, hfail⟩
    obtain ⟨hcount, hmemory⟩ := hroom
    have hdrop : forestSize level ((List.finRange m).drop l)
          (fun i => share (128 ^ level) (max w n) i) =
        forestSize level ((List.finRange m).drop l)
          fun i => share (128 ^ level) w i := by
      simp only [forestSize]
      rw [List.map_congr_left fun i hi => by rw [hnothing i hi]]
    rw [← hsplit] at hcount
    simp only [forestSize, List.map_append, List.sum_append] at hcount hdrop
    rw [← hshare]
    refine ⟨?_, hmemory⟩
    simp only [forestSize]
    omega

end Forest

section Node

variable {bitmapWrite : FileSys σ → Option (Bool × FileSys σ)}
  {ready synced : FileSys σ → Prop} {own data : List BlockSector}

/-- The sector of an index is in place, with the trees below it as they were;
a fresh one is on `new`. -/
structure IndexReady (ready synced : FileSys σ → Prop)
    (own data : List BlockSector) (fs fs' : FileSys σ) (level : Nat)
    (entry entry' : BlockSector) (w : Nat) (new : List BlockSector) :
    Prop where
  ne_zero : entry' ≠ 0
  used : fs'.Used entry'
  foreign : entry' ∉ own
  alloc : Allocated ready synced own data fs fs' new new
  forest : ForestReady own fs' level (List.finRange 128) (fs'.kids entry')
    fun i => share (128 ^ level) w i
  not_mem : entry' ∉ forestSectors fs'.kids level (fs'.kids entry') w
  perm : (entry' :: forestSectors fs'.kids level (fs'.kids entry') w).Perm
    (treeSectors fs.kids (level + 1) entry w ++ new)
  keep : ∀ k < w, treeLeaf fs'.kids (level + 1) entry' k =
      treeLeaf fs.kids (level + 1) entry k ∧
    fs'.view (treeLeaf fs.kids (level + 1) entry k) =
      fs.view (treeLeaf fs.kids (level + 1) entry k)

theorem TreeReady.indexReady {fs : FileSys σ} {level w : Nat}
    {entry : BlockSector} (hfs : AllocReady ready own fs)
    (htree : TreeReady own fs (level + 1) entry w) (hw : 0 < w) :
    IndexReady ready synced own data fs fs level entry entry w [] := by
  have hsectors : treeSectors fs.kids (level + 1) entry w =
      entry :: forestSectors fs.kids level (fs.kids entry) w :=
    treeSectors_succ entry hw
  have hnodup := htree.nodup
  have hused := htree.used
  have hforeign := htree.foreign
  rw [hsectors] at hnodup hused hforeign
  rw [List.nodup_cons] at hnodup
  have hmem : ∀ i : Fin 128, ∀ s ∈ treeSectors fs.kids level
      (fs.kids entry i) (share (128 ^ level) w i),
      s ∈ entry :: forestSectors fs.kids level (fs.kids entry) w :=
    fun i s hs => List.mem_cons_of_mem _
      (List.mem_flatMap.mpr ⟨i, List.mem_finRange i, hs⟩)
  refine ⟨?_, hused _ List.mem_cons_self, hforeign _ List.mem_cons_self,
    Allocated.refl hfs, ⟨fun i _ => ⟨?_, ?_, ?_, ?_⟩, hnodup.2⟩, hnodup.1, ?_,
    fun _ _ => ⟨rfl, rfl⟩⟩
  · exact fun h => Nat.ne_of_gt hw (htree.ok.eq_zero_iff.mpr h)
  · exact htree.ok.2.2 hw i
  · exact (List.nodup_flatMap.mp hnodup.2).1 i (List.mem_finRange i)
  · exact fun s hs => hused s (hmem i s hs)
  · exact fun s hs => hforeign s (hmem i s hs)
  · rw [hsectors, List.append_nil]

/-- A cleared sector is an index of empty trees. -/
theorem Allocated.indexReady {fs fs' : FileSys σ} {level : Nat}
    {entry s : BlockSector} (hfs : AllocReady ready own fs) (hs : s ≠ 0)
    (halloc : Allocated ready synced own data fs fs' [s] [s])
    (hzeros : fs'.view s = zeros) :
    IndexReady ready synced own data fs fs' level entry s 0 [s] := by
  have hmem := List.mem_singleton_self s
  have hkids : ∀ i, fs'.kids s i = 0 := by
    intro i
    rw [FileSys.kids, hzeros, wordsOf_zeros]
  refine ⟨hs, (halloc.used s).mpr (Or.inr hmem),
    fun hown => halloc.free s hmem (hfs.own_used s hown), halloc,
    ⟨fun i _ => ⟨?_, by simp, by simp, by simp⟩, ?_⟩,
    by simp [forestSectors_zero], by simp [forestSectors_zero], by simp⟩
  · rw [share_zero, hkids]
    exact treeOk_zero level
  · change (forestSectors fs'.kids level (fs'.kids s) 0).Nodup
    rw [forestSectors_zero]
    exact List.nodup_nil

/-- The blocks of a tree are the blocks of the trees below its index. -/
theorem treeLeaf_succ {kids : BlockSector → Words} {level k : Nat}
    (entry : BlockSector) (hk : k < 128 ^ (level + 1)) :
    treeLeaf kids (level + 1) entry k =
      treeLeaf kids level (kids entry ⟨k / 128 ^ level, div_lt_of_lt_pow hk⟩)
        (k % 128 ^ level) := by
  rw [treeLeaf, dif_pos (div_lt_of_lt_pow hk)]

variable (hspec : FlushSpec bitmapWrite ready synced own data)
include hspec

theorem FlushSpec.indexReady_read {fs fs' : FileSys σ} {level w : Nat}
    {entry entry' : BlockSector} {new : List BlockSector}
    (hready : IndexReady ready synced own data fs fs' level entry entry' w new)
    (s : BlockSector) :
    IndexReady ready synced own data fs (fs'.cacheRead s).2 level entry entry' w
      new := by
  have hkids : (fs'.cacheRead s).2.kids = fs'.kids := by
    funext t
    rw [FileSys.kids, FileSys.cacheRead_view, FileSys.kids]
  have halloc := hready.alloc.trans (hspec.read hready.alloc.ready s)
  rw [List.append_nil] at halloc
  refine ⟨hready.ne_zero, hready.used, hready.foreign, halloc, ?_, ?_, ?_, ?_⟩
  · rw [hkids]
    refine ⟨fun i hi => ?_, ?_⟩
    · have htree := hready.forest.tree i hi
      exact htree.of_view_eq (fun t _ => by rw [FileSys.cacheRead_view])
        fun _ h => h
    · rw [hkids]
      exact hready.forest.disjoint
  · rw [hkids]
    exact hready.not_mem
  · rw [hkids]
    exact hready.perm
  · rw [hkids, FileSys.cacheRead_view]
    exact hready.keep

/-- Once the trees below it have grown and the index has been written back,
the tree has grown. -/
theorem FlushSpec.treeGrown_succ {fs fs₁ fs₂ : FileSys σ} {level w w' : Nat}
    {entry entry' : BlockSector} {entries' : Words}
    {new₁ new₂ : List BlockSector} (hw : 0 < w') (hle : w ≤ w')
    (hw' : w' ≤ 128 ^ (level + 1))
    (hready : IndexReady ready synced own data fs fs₁ level entry entry' w new₁)
    (hgrown : ForestGrown ready synced own data fs₁ fs₂ level
      (List.finRange 128) (fs₁.kids entry') entries'
      (fun i => share (128 ^ level) w i) (fun i => share (128 ^ level) w' i)
      new₂) :
    TreeGrown ready synced own data fs
      (fs₂.cacheWrite entry' (blockOf entries')) (level + 1) entry entry' w w'
      (new₁ ++ new₂) := by
  have hspan : 0 < 128 ^ level := Nat.pow_pos (by decide)
  set fs₃ := fs₂.cacheWrite entry' (blockOf entries') with hfs₃
  have hkids : fs₃.kids entry' = entries' := by
    rw [FileSys.kids, hfs₃, FileSys.cacheWrite_view, Function.update_self,
      wordsOf_blockOf]
  have hperm : (forestSectors fs₂.kids level entries' w').Perm
      (forestSectors fs₁.kids level (fs₁.kids entry') w ++ new₂) := hgrown.perm
  have hnot : entry' ∉ forestSectors fs₂.kids level entries' w' := by
    rw [hperm.mem_iff, List.mem_append, not_or]
    exact ⟨hready.not_mem, fun h => hgrown.alloc.free entry' h hready.used⟩
  have hview : ∀ (i : Fin 128) (s : BlockSector),
      s ∈ treeSectors fs₂.kids level (entries' i) (share (128 ^ level) w' i) →
        fs₃.view s = fs₂.view s := by
    intro i s hs
    rw [hfs₃, FileSys.cacheWrite_view, Function.update_of_ne]
    rintro rfl
    exact hnot (List.mem_flatMap.mpr ⟨i, List.mem_finRange i, hs⟩)
  have hgrows : ∀ i : Fin 128, Grows fs₁ fs₃ level (fs₁.kids entry' i)
      (entries' i) (share (128 ^ level) w i) (share (128 ^ level) w' i) :=
    fun i => Grows.before (hview i) (hgrown.grows i (List.mem_finRange i))
      (share_mono hle i)
  have hsectors : treeSectors fs₃.kids (level + 1) entry' w' =
      entry' :: forestSectors fs₂.kids level entries' w' := by
    rw [treeSectors_succ entry' hw, hkids]
    congr 1
    apply List.flatMap_congr
    intro i _
    exact treeSectors_of_view_eq (hview i)
  refine ⟨⟨⟨hw', ?_, fun _ i => ?_⟩, fun k hk => ?_, fun k hk hk' => ?_⟩, ?_, ?_⟩
  · exact iff_of_false (Nat.ne_of_gt hw) hready.ne_zero
  · rw [hkids]
    exact (hgrows i).ok
  · have hk' : k < 128 ^ (level + 1) :=
      Nat.lt_of_lt_of_le hk (Nat.le_trans hle hw')
    obtain ⟨hleaf, hbytes⟩ := hready.keep k hk
    obtain ⟨hleaf', hbytes'⟩ := (hgrows ⟨_, div_lt_of_lt_pow hk'⟩).keep _
      (mod_lt_share hk hspan)
    rw [← treeLeaf_succ entry' hk'] at hleaf' hbytes'
    rw [treeLeaf_succ entry' hk', hkids, hleaf', ← hbytes, ← hleaf]
    exact ⟨rfl, hbytes'⟩
  · have hk'' : k < 128 ^ (level + 1) := Nat.lt_of_lt_of_le hk' hw'
    rw [treeLeaf_succ entry' hk'', hkids]
    exact (hgrows ⟨_, div_lt_of_lt_pow hk''⟩).zero _ (share_le_mod hk)
      (mod_lt_share hk' hspan)
  · have hwrite := hspec.write hgrown.alloc.ready hready.foreign
      (blockOf entries')
    have halloc := (hready.alloc.trans hgrown.alloc).trans hwrite
    rw [List.append_nil] at halloc
    rw [hsectors]
    refine halloc.mono (List.append_subset.mpr
      ⟨List.append_subset.mpr ⟨fun s hs => ?_, ?_⟩, ?_⟩)
    · have hmem := hready.perm.mem_iff.mpr (List.mem_append_right _ hs)
      rcases List.mem_cons.mp hmem with rfl | hmem
      · exact List.mem_cons_self
      · exact List.mem_cons_of_mem _
          (hperm.mem_iff.mpr (List.mem_append_left _ hmem))
    · exact List.subset_cons_self _ _
    · simp
  · rw [hsectors, ← List.append_assoc]
    exact (hperm.cons entry').trans (hready.perm.append_right new₂)

/-- The first lines of a level above zero see to the sector of the index. -/
theorem FlushSpec.allocateEntry_index {fs : FileSys σ} {level w : Nat}
    {entry : BlockSector} (hfs : AllocReady ready own fs)
    (htree : TreeReady own fs (level + 1) entry w) :
    (∃ entry' fs' new, allocateEntry bitmapWrite entry fs = some (entry', fs') ∧
      IndexReady ready synced own data fs fs' level entry entry' w new) ∨
    (w = 0 ∧ ¬ (0 < fs.freeCount ∧ fs.MemoryOk) ∧
      FailsMore fs (allocateEntry bitmapWrite entry fs)) := by
  by_cases hentry : entry = 0
  · have hw : w = 0 := htree.ok.eq_zero_iff.mpr hentry
    subst hentry hw
    rcases hspec.allocateEntry_spec hfs with
      ⟨s, fs', hrun, hs, halloc, hzeros⟩ | ⟨fs', hrun, hfail, hfull⟩
    · exact Or.inl ⟨s, fs', [s], hrun, halloc.indexReady hfs hs hzeros⟩
    · refine Or.inr ⟨rfl, hfull, fun entry' fs'' hrun' => ?_⟩
      rw [hrun, Option.some.injEq, Prod.mk.injEq] at hrun'
      exact hrun'.2 ▸ hfail
  · have hw : 0 < w :=
      Nat.pos_of_ne_zero fun h => hentry (htree.ok.eq_zero_iff.mp h)
    refine Or.inl ⟨entry, fs, [], ?_, htree.indexReady hfs hw⟩
    rw [allocateEntry, if_neg hentry]

/-- The lowest level: one sector. -/
theorem FlushSpec.allocateEntry_visit :
    VisitSpec ready synced own data 0 1
      fun entry fs => allocateEntry bitmapWrite entry fs := by
  intro fs entry w hfs htree
  obtain ⟨hle, hzero⟩ := htree.ok
  by_cases hentry : entry = 0
  · have hw : w = 0 := hzero.mpr hentry
    subst hentry hw
    rcases hspec.allocateEntry_spec hfs with
      ⟨s, fs', hrun, hs, halloc, hzeros⟩ | ⟨fs', hrun, hfail, hfull⟩
    · refine Or.inl ⟨s, fs', [s], hrun, ⟨⟨Nat.le_refl _, ?_⟩, by simp, ?_⟩,
        halloc, ?_⟩
      · simpa using hs
      · exact fun _ _ _ => hzeros
      · simp [treeSectors]
    · refine Or.inr ⟨fun hroom => hfull ?_, fun entry' fs'' hrun' => ?_⟩
      · obtain ⟨hcount, hmemory⟩ := hroom
        simp only [treeSize, Nat.zero_max, ↓reduceIte, Nat.one_ne_zero] at hcount
        exact ⟨by omega, hmemory⟩
      · simp only [hrun, Option.some.injEq, Prod.mk.injEq] at hrun'
        exact hrun'.2 ▸ hfail
  · have hw : w = 1 := by
      have : w ≠ 0 := fun h => hentry (hzero.mp h)
      omega
    subst hw
    refine Or.inl ⟨entry, fs, [], ?_, ⟨htree.ok, fun _ _ => ⟨rfl, rfl⟩, ?_⟩,
      (Allocated.refl hfs).mono (List.nil_subset _), by simp⟩
    · simp only [allocateEntry, if_neg hentry]
    · intro k hk hk'
      omega

/-- `inode_allocate_indirect` takes a tree to the blocks it is asked for. -/
theorem FlushSpec.inodeAllocateIndirect_visit (level n : Nat) (hlevel : level ≤ 2)
    (hpos : 0 < n) (hn : n ≤ 128 ^ level) :
    VisitSpec ready synced own data level n fun entry fs =>
      inodeAllocateIndirect bitmapWrite level entry n fs := by
  induction level generalizing n with
  | zero =>
      have hone : n = 1 := by omega
      subst hone
      exact hspec.allocateEntry_visit
  | succ level ih =>
      intro fs entry w hfs htree
      have hunit : (if level = 0 then 1 else 128) = 128 ^ level := by
        have hcases : level = 0 ∨ level = 1 := by omega
        rcases hcases with rfl | rfl <;> rfl
      have hsize : ∀ x, 0 < x → treeSize 128 (level + 1) x =
          1 + forestSize level (List.finRange 128)
            fun i => share (128 ^ level) x i := by
        intro x hx
        rw [treeSize, if_neg (Nat.ne_of_gt hx), forestSize]
      have hmax : 0 < max w n := Nat.lt_of_lt_of_le hpos (Nat.le_max_right _ _)
      simp only [inodeAllocateIndirect, hunit]
      rcases hspec.allocateEntry_index hfs htree with
        ⟨entry', fs₁, new₁, hentry, hready⟩ | ⟨rfl, hfull, hfail⟩
      · have hready' := hspec.indexReady_read hready entry'
        have hkids : (fs₁.cacheRead entry').2.kids entry' =
            wordsOf (fs₁.cacheRead entry').1 := by
          rw [FileSys.kids, FileSys.cacheRead_view, FileSys.cacheRead_fst]
        simp only [hentry, Option.bind_eq_bind, Option.bind_some]
        rw [← hkids]
        rcases allocateEntries_spec hspec.subset level n
            (inodeAllocateIndirect bitmapWrite level)
            (fun k hk hk' => ih k (by omega) hk hk')
            (fun _ _ _ _ _ h => inodeAllocateIndirect_mono hspec.mono h)
            (by rw [Nat.mul_comm, ← Nat.pow_succ]; exact hn) hready'.alloc.ready
            hready'.forest with
          ⟨entries', fs₂, new₂, hrun, hgrown⟩ | ⟨hfull, hfail⟩
        · refine Or.inl ⟨entry', fs₂.cacheWrite entry' (blockOf entries'),
            new₁ ++ new₂, by simp [hrun], ?_⟩
          exact hspec.treeGrown_succ hmax (Nat.le_max_left _ _)
            (Nat.max_le.mpr ⟨htree.ok.le, hn⟩) hready' hgrown
        · refine Or.inr ⟨fun hroom => hfull ?_, fun a fs' hrun => ?_⟩
          · have hlength := hready'.perm.length_eq
            rw [List.length_cons, List.length_append, length_treeSectors,
              forestSectors, List.length_flatMap] at hlength
            simp only [length_treeSectors] at hlength
            rw [hsize _ hmax] at hroom
            refine hready'.alloc.room hlength ⟨?_, hroom.2⟩
            have hcount := hroom.1
            simp only [forestSize] at hcount ⊢
            omega
          · simp only [Option.bind_eq_some_iff] at hrun
            obtain ⟨⟨entries', fs₂⟩, hloop, hrun⟩ := hrun
            simp only [Option.some.injEq, Prod.mk.injEq] at hrun
            have hlt := hfail entries' fs₂ hloop
            rw [hready'.alloc.allocFailures] at hlt
            exact hrun.2 ▸ hlt
      · refine Or.inr ⟨fun hroom => hfull ?_, fun a fs' hrun => ?_⟩
        · obtain ⟨hcount, hmemory⟩ := hroom
          rw [hsize _ hmax, treeSize_zero] at hcount
          exact ⟨by omega, hmemory⟩
        · simp only [Option.bind_eq_bind, Option.bind_eq_some_iff] at hrun
          obtain ⟨⟨entry', fs₁⟩, hentry, ⟨entries', fs₂⟩, hloop, hrun⟩ := hrun
          simp only [Option.some.injEq, Prod.mk.injEq] at hrun
          have hle := stepRel_allocFailures.allocateEntries_run
            (inodeAllocateIndirect_mono hspec.mono) hloop
          exact hrun.2 ▸ Nat.lt_of_lt_of_le (hfail entry' fs₁ hentry) hle

end Node

end PintosLabs
