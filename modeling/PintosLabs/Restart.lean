/-
Shutting the file system down and starting it again (filesys/filesys.c).  The
free map file is closed and the cache is written back; of all that has been in
memory, the next start finds only what is on the disk.
-/
import PintosLabs.DiskFormat

namespace PintosLabs

/-- `cache_close`. -/
def BufferCache.close (c : BufferCache) : BufferCache :=
  ⟨cacheClose c.1, (cacheClose_spec c.2).1⟩

/-- `cache_init`, whatever is in the slots. -/
def BufferCache.init (c : CacheState) : BufferCache :=
  ⟨cacheInit c, (cacheInit_spec c).1⟩

variable {σ : Type} [SectorStore σ BlockSector Block] {file : FreeMapFile}

/-- The free map file holds the free map, which has a bit for each sector. -/
structure Saved (file : FreeMapFile) (cnt : Nat) (fs : FileSys σ) : Prop where
  synced : file.Synced fs
  length_eq : fs.freeMap.length = cnt

section Saved

variable {cnt : Nat} {fs fs' : FileSys σ} (h : Saved file cnt fs)
include h

theorem Saved.congr (hready : file.Ready fs) (hmap : fs'.freeMap = fs.freeMap)
    (hview : fs'.view = fs.view) : Saved file cnt fs' :=
  ⟨hready.synced_congr h.synced hmap fun s _ => congrFun hview s,
    hmap ▸ h.length_eq⟩

theorem Saved.allocated {new touched : List BlockSector}
    (halloc : Allocated file.Ready file.Synced file.own file.data fs fs' new
      touched) : Saved file cnt fs' :=
  ⟨halloc.synced h.synced, halloc.length_eq.trans h.length_eq⟩

theorem Saved.released {old : List BlockSector} (hmemory : fs.MemoryOk)
    (hrel : Released file fs fs' old) : Saved file cnt fs' :=
  ⟨hrel.synced hmemory h.synced, hrel.length_eq.trans h.length_eq⟩

end Saved

namespace World.Inv

variable {w w' : World σ} {cnt : Nat} (h : w.Inv file)
  (hsaved : Saved file cnt w.fs)
include h hsaved

end World.Inv

namespace RestartWitness

/-- A cache in front of an empty disk. -/
def slots : CacheState :=
  ⟨fun _ => ⟨false, 0, zeros, false, false⟩, ⟨0, Nat.zero_lt_succ 63⟩, fun _ => zeros⟩

/-- A disk of sixty-four sectors is formatted, with what the `malloc`s of the
bounce buffer answer. -/
def formatted (memory : List Bool) : Option (FileSys BufferCache) :=
  filesysInit true 64 (BufferCache.init slots) memory

end RestartWitness

end PintosLabs
