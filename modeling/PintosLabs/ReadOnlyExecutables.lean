/-
Whether running executables can be written.  An executable is closed as soon
as it has been loaded, and only a process that opens it under its own name
denies writes to it.
-/
import PintosLabs.Executables

namespace PintosLabs.Executables

open SystemCalls (OpenFile fileDenyWrite)
open Directory

variable {σ : Type} [SectorStore σ BlockSector Block] {file : FreeMapFile}

/-! Open files by their inodes. -/

def isOn (s : BlockSector) (f : OpenFile) : Bool := f.sector == s

def deniesOn (s : BlockSector) (f : OpenFile) : Bool :=
  f.sector == s && f.denyWrite

theorem countP_deniesOn_le (s : BlockSector) (opened : List OpenFile) :
    opened.countP (deniesOn s) ≤ opened.countP (isOn s) :=
  List.countP_mono_left fun _ _ h => (Bool.and_eq_true_iff.mp h).1

/-- The open inodes account for some open files: each is counted by its inode,
and so is each that denies writes. -/
def Counted (fs : FileSys σ) (opened : List OpenFile) : Prop :=
  ∀ s, opened.countP (isOn s) ≤ fs.openCount s ∧
    opened.countP (deniesOn s) ≤ fs.denyCount s

section Counted

variable {fs fs' : FileSys σ} {opened opened' : List OpenFile}

omit [SectorStore σ BlockSector Block]

theorem Counted.perm (h : Counted fs opened) (hperm : opened.Perm opened') :
    Counted fs opened' := by
  intro s
  rw [← hperm.countP_eq, ← hperm.countP_eq]
  exact h s

theorem Counted.tail {f : OpenFile} (h : Counted fs (f :: opened)) :
    Counted fs opened := by
  intro s
  obtain ⟨hopen, hdeny⟩ := h s
  rw [List.countP_cons] at hopen hdeny
  omega

/-- The files on one inode change, and so do its counters. -/
theorem Counted.setInode {a b : List OpenFile} (h : Counted fs (a ++ opened))
    {s : BlockSector} {inode : Option Inode}
    (hinodes : fs'.openInodes = Function.update fs.openInodes s inode)
    (ha : ∀ g ∈ a, g.sector = s) (hb : ∀ g ∈ b, g.sector = s)
    (hopen : (b ++ opened).countP (isOn s) ≤ inode.elim 0 Inode.openCnt)
    (hdeny : (b ++ opened).countP (deniesOn s) ≤
      inode.elim 0 Inode.denyWriteCnt) :
    Counted fs' (b ++ opened) := by
  intro t
  rw [FileSys.openCount, FileSys.denyCount, hinodes]
  by_cases hts : t = s
  · rw [hts, Function.update_self]
    exact ⟨hopen, hdeny⟩
  · rw [Function.update_of_ne hts]
    have hnone : ∀ l : List OpenFile, (∀ g ∈ l, g.sector = s) →
        l.countP (isOn t) = 0 := fun l hl => by
      rw [List.countP_eq_zero]
      intro g hg hon
      exact hts ((beq_iff_eq.mp hon).symm.trans (hl g hg))
    have hzero := hnone a ha
    have hzero' := hnone b hb
    have hle := countP_deniesOn_le t a
    have hle' := countP_deniesOn_le t b
    obtain ⟨hopen', hdeny'⟩ := h t
    rw [FileSys.openCount, List.countP_append] at hopen'
    rw [FileSys.denyCount, List.countP_append] at hdeny'
    rw [List.countP_append, List.countP_append]
    omega

end Counted

/-- The kernel in order, with the files that are open: the files on the disk
are in order, the names in the directory and the running processes speak of
live inodes, and every open file is counted by its inode. -/
structure Inv (file : FreeMapFile) (m : Machine σ) (opened : List OpenFile) :
    Prop where
  files : FilesOk file m.fs m.live
  named : ∀ name s, m.names name = some s → s ∈ m.live ∧ s ≠ freeMapSector
  kept : ∀ name s inode, m.names name = some s →
    m.fs.openInodes s = some inode → inode.removed = false
  unique : ∀ name name' s, m.names name = some s → m.names name' = some s →
    name = name'
  counted : Counted m.fs opened
  foreign : ∀ f ∈ opened, f.sector ≠ freeMapSector
  executables : ∀ s, m.Executable s → s ∈ m.live ∧ s ≠ freeMapSector

namespace Inv

variable {m m' : Machine σ} {opened opened' : List OpenFile}
  {s : BlockSector}

/-- The store is in another state, with the same contents. -/
theorem setStore (h : Inv file m opened) {st : σ}
    (hview : SectorStore.view st = m.fs.view) :
    Inv file { m with fs := { m.fs with store := st } } opened :=
  { h with files := h.files.setStore hview }

theorem perm (h : Inv file m opened) (hperm : opened.Perm opened') :
    Inv file m opened' :=
  { h with
    counted := h.counted.perm hperm
    foreign := fun f hf => h.foreign f (hperm.mem_iff.mpr hf) }

/-- A `struct file` is lost. -/
theorem tail {f : OpenFile} (h : Inv file m (f :: opened)) :
    Inv file m opened :=
  { h with
    counted := h.counted.tail
    foreign := fun g hg => h.foreign g (List.mem_cons_of_mem f hg) }

theorem setFiles (h : Inv file m opened) (files : List ControlBlock) :
    Inv file { m with files := files } opened :=
  { h with executables := h.executables }

/-- Names are taken from the directory. -/
theorem forget (h : Inv file m opened) {names : List UInt8 → Option BlockSector}
    (hnames : ∀ name s, names name = some s → m.names name = some s) :
    Inv file { m with names := names } opened :=
  { h with
    named := fun name s hs => h.named name s (hnames name s hs)
    kept := fun name s inode hs => h.kept name s inode (hnames name s hs)
    unique := fun name name' s hs hs' =>
      h.unique name name' s (hnames name s hs) (hnames name' s hs')
    executables := h.executables }

/-- The files on one inode change, and so does its entry in the table. -/
theorem setInode {a b : List OpenFile} (h : Inv file m (a ++ opened))
    (hne : s ≠ freeMapSector) {inode : Option Inode} {fs : FileSys σ}
    (hinodes : fs.openInodes = Function.update m.fs.openInodes s inode)
    (hfiles : FilesOk file fs m.live)
    (hkept : ∀ i, inode = some i → i.removed = true →
      ∀ name, m.names name ≠ some s)
    (ha : ∀ g ∈ a, g.sector = s) (hb : ∀ g ∈ b, g.sector = s)
    (hopen : (b ++ opened).countP (isOn s) ≤ inode.elim 0 Inode.openCnt)
    (hdeny : (b ++ opened).countP (deniesOn s) ≤
      inode.elim 0 Inode.denyWriteCnt) :
    Inv file { m with fs := fs } (b ++ opened) where
  files := hfiles
  named := h.named
  kept name t i hname ht := by
    change fs.openInodes t = some i at ht
    rw [hinodes] at ht
    by_cases hts : t = s
    · rw [hts, Function.update_self] at ht
      rw [hts] at hname
      exact Bool.eq_false_iff.mpr fun hremoved =>
        hkept i ht hremoved name hname
    · rw [Function.update_of_ne hts] at ht
      exact h.kept name t i hname ht
  unique := h.unique
  counted := h.counted.setInode hinodes ha hb hopen hdeny
  foreign g hg := by
    rcases List.mem_append.mp hg with hg | hg
    · exact hb g hg ▸ hne
    · exact h.foreign g (List.mem_append_right a hg)
  executables := h.executables

/-! The inode layer. -/

/-- An inode is opened for a new file. -/
theorem inodeOpen (h : Inv file m opened) (hs : s ∈ m.live)
    (hne : s ≠ freeMapSector) (memory : Bool) {success : Bool} {fs : FileSys σ}
    (hrun : PintosLabs.inodeOpen s memory m.fs = (success, fs)) :
    (success = false ∧ fs = m.fs) ∨
      success = true ∧ Inv file { m with fs := fs } (⟨s, 0, false⟩ :: opened) := by
  rcases h.files.inodeOpen_cases hs hne memory with
    hopen | ⟨st, inode, hview, hopen, hfiles, hcnt, hdeny, hremoved⟩
  · rw [hrun, Prod.mk.injEq] at hopen
    exact Or.inl hopen
  · rw [hrun, Prod.mk.injEq] at hopen
    obtain ⟨rfl, rfl⟩ := hopen
    refine Or.inr ⟨rfl, ?_⟩
    have hcounted := h.counted s
    refine (h.setStore hview).setInode (a := []) (b := [_]) hne rfl hfiles ?_
      (by simp) (by simp) ?_ ?_
    · intro _ hi hmarked name hname
      rw [← Option.some.inj hi] at hmarked
      obtain ⟨i, hi, htrue⟩ := hremoved hmarked
      rw [h.kept name s i hname hi] at htrue
      contradiction
    · change _ ≤ inode.openCnt
      rw [hcnt]
      simp only [List.singleton_append, List.countP_cons, isOn, BEq.rfl,
        ↓reduceIte]
      exact Nat.succ_le_succ hcounted.1
    · change _ ≤ inode.denyWriteCnt
      rw [hdeny]
      simp only [List.singleton_append, List.countP_cons, deniesOn, Bool.and_false,
        Bool.false_eq_true, ↓reduceIte]
      exact hcounted.2

/-- The marks and counters of an open inode change. -/
theorem modifyInode {a b : List OpenFile} (h : Inv file m (a ++ opened))
    (hne : s ≠ freeMapSector) {inode inode' : Inode}
    (hopen : m.fs.openInodes s = some inode)
    (hsector : inode'.sector = inode.sector) (hdata : inode'.data = inode.data)
    (hcnt : 0 < inode'.openCnt)
    (hkept : inode'.removed = true → ∀ name, m.names name ≠ some s)
    (ha : ∀ g ∈ a, g.sector = s) (hb : ∀ g ∈ b, g.sector = s)
    (hopened : (b ++ opened).countP (isOn s) ≤ inode'.openCnt)
    (hdenied : (b ++ opened).countP (deniesOn s) ≤ inode'.denyWriteCnt) :
    Inv file { m with fs := m.fs.setInode s (some inode') } (b ++ opened) :=
  h.setInode hne rfl (h.files.setInode hne
    (h.files.proper_modify hopen hsector hdata hcnt))
    (fun _ hi => Option.some.inj hi ▸ hkept) ha hb hopened hdenied

theorem counted_open (h : Inv file m opened) {inode : Inode}
    (hopen : m.fs.openInodes s = some inode) :
    opened.countP (isOn s) ≤ inode.openCnt ∧
      opened.countP (deniesOn s) ≤ inode.denyWriteCnt := by
  have hcounted := h.counted s
  rw [FileSys.openCount, FileSys.denyCount, hopen] at hcounted
  exact hcounted

theorem not_named (h : Inv file m opened) {inode : Inode}
    (hopen : m.fs.openInodes s = some inode) (hremoved : inode.removed = true)
    (name : List UInt8) : m.names name ≠ some s := by
  intro hname
  rw [h.kept name s inode hname hopen] at hremoved
  contradiction

/-- `inode_remove`, of an inode that no name stands for. -/
theorem inodeRemove (h : Inv file m opened) (hne : s ≠ freeMapSector)
    (hnames : ∀ name, m.names name ≠ some s) {fs : FileSys σ}
    (hrun : PintosLabs.inodeRemove s m.fs = some fs) :
    Inv file { m with fs := fs } opened := by
  simp only [PintosLabs.inodeRemove, Option.bind_eq_bind,
    Option.bind_eq_some_iff, Option.some.injEq] at hrun
  obtain ⟨inode, hopen, rfl⟩ := hrun
  obtain ⟨hopened, hdenied⟩ := h.counted_open hopen
  exact h.modifyInode (a := []) (b := []) hne hopen rfl rfl
    (h.files.proper s inode hopen).opened (fun _ => hnames) (by simp) (by simp)
    hopened hdenied

/-- `file_deny_write`. -/
theorem denyWrite {f : OpenFile} (h : Inv file m (f :: opened))
    {f' : Option OpenFile} {fs : FileSys σ}
    (hrun : fileDenyWrite (some f) m.fs = some (f', fs)) :
    ∃ g, f' = some g ∧ Inv file { m with fs := fs } (g :: opened) := by
  simp only [fileDenyWrite, Option.bind_eq_bind, Option.bind_some] at hrun
  cases hdeny : f.denyWrite with
  | true =>
      rw [hdeny, if_pos rfl, Option.some.injEq, Prod.mk.injEq] at hrun
      obtain ⟨rfl, rfl⟩ := hrun
      exact ⟨f, rfl, h⟩
  | false =>
      rw [hdeny, if_neg Bool.false_ne_true] at hrun
      simp only [inodeDenyWrite, Option.bind_eq_bind, Option.bind_eq_some_iff,
        Option.some.injEq, Prod.mk.injEq] at hrun
      obtain ⟨_, ⟨inode, hopen, hstep⟩, rfl, rfl⟩ := hrun
      split at hstep
      case isFalse => contradiction
      case isTrue =>
        rw [← Option.some.inj hstep]
        refine ⟨_, rfl, ?_⟩
        have hne := h.foreign f List.mem_cons_self
        obtain ⟨hopened, hdenied⟩ := h.counted_open hopen
        refine h.modifyInode (a := [f]) (b := [_]) hne hopen rfl rfl
          (h.files.proper _ inode hopen).opened
          (fun hremoved => h.not_named hopen hremoved) (by simp) (by simp) ?_ ?_
        · exact hopened
        · simp only [List.countP_cons, deniesOn, hdeny, Bool.and_false,
            Bool.false_eq_true, ↓reduceIte, Nat.add_zero] at hdenied
          simp only [List.singleton_append, List.countP_cons, deniesOn, BEq.rfl,
            Bool.and_self, ↓reduceIte]
          exact Nat.succ_le_succ hdenied

/-- `file_allow_write`, before a file is closed. -/
theorem allowWrite {f : OpenFile} (h : Inv file m (f :: opened))
    (hdeny : f.denyWrite = true) {fs : FileSys σ}
    (hrun : inodeAllowWrite f.sector m.fs = some fs) :
    Inv file { m with fs := fs } ({ f with denyWrite := false } :: opened) := by
  simp only [inodeAllowWrite, Option.bind_eq_bind, Option.bind_eq_some_iff] at hrun
  obtain ⟨inode, hopen, hstep⟩ := hrun
  split at hstep
  case isFalse => contradiction
  case isTrue =>
    rw [← Option.some.inj hstep]
    have hne := h.foreign f List.mem_cons_self
    obtain ⟨hopened, hdenied⟩ := h.counted_open hopen
    refine h.modifyInode (a := [f]) (b := [_]) hne hopen rfl rfl
      (h.files.proper _ inode hopen).opened
      (fun hremoved => h.not_named hopen hremoved) (by simp) (by simp) ?_ ?_
    · exact hopened
    · simp only [List.countP_cons, deniesOn, hdeny, BEq.rfl, Bool.and_self,
        ↓reduceIte] at hdenied
      simp only [List.singleton_append, List.countP_cons, deniesOn, Bool.and_false,
        Bool.false_eq_true, ↓reduceIte, Nat.add_zero]
      exact Nat.le_sub_one_of_lt hdenied

/-- The last close of a removed inode: whoever it was the executable of, it is
no more. -/
theorem release (h : Inv file m opened) (hs : s ∈ m.live) (hne : s ≠ freeMapSector)
    (hnames : ∀ name, m.names name ≠ some s)
    (hnone : opened.countP (isOn s) = 0) {fs : FileSys σ}
    (hrel : Released file (m.fs.setInode s none) fs (m.fs.sectorsOf s)) :
    Inv file
      { m with
        fs := fs
        live := m.live.erase s
        processes := fun pid => (m.processes pid).map fun p =>
          if p.executable = some s then { p with executable := none } else p }
      opened := by
  have hmem : ∀ t, t ∈ m.live → t ≠ s → t ∈ m.live.erase s := fun t ht hts =>
    h.files.live_nodup.mem_erase_iff.mpr ⟨hts, ht⟩
  have hinodes : fs.openInodes = (m.fs.setInode s none).openInodes :=
    hrel.openInodes
  have hopenInodes : ∀ t i, fs.openInodes t = some i →
      t ≠ s ∧ m.fs.openInodes t = some i := fun t i ht => by
    rw [hinodes] at ht
    change Function.update m.fs.openInodes s none t = _ at ht
    by_cases hts : t = s
    · rw [hts, Function.update_self] at ht
      contradiction
    · rw [Function.update_of_ne hts] at ht
      exact ⟨hts, ht⟩
  refine ⟨(h.files.release hs hne hrel).2, fun name t hname => ?_,
    fun name t i hname ht => h.kept name t i hname (hopenInodes t i ht).2,
    h.unique, fun t => ?_, h.foreign, ?_⟩
  · obtain ⟨hlive, hforeign⟩ := h.named name t hname
    exact ⟨hmem t hlive fun hts => hnames name (hts ▸ hname), hforeign⟩
  · exact h.counted.setInode (a := []) (b := []) hinodes (by simp) (by simp)
      (Nat.le_of_eq hnone) (Nat.le_of_eq (Nat.eq_zero_of_le_zero
        (hnone ▸ countP_deniesOn_le s opened))) t
  · rintro t ⟨pid, p, hp, hexecutable⟩
    obtain ⟨q, hq, rfl⟩ := Option.map_eq_some_iff.mp hp
    split at hexecutable
    case isTrue => contradiction
    case isFalse hother =>
      obtain ⟨hlive, hforeign⟩ := h.executables t ⟨pid, q, hq, hexecutable⟩
      exact ⟨hmem t hlive fun hts => hother (hts ▸ hexecutable), hforeign⟩

/-- `inode_close`, for a file that does not deny writes any more. -/
theorem inodeClose {f : OpenFile} (h : Inv file m (f :: opened))
    (hdeny : f.denyWrite = false) (hrun : m.inodeClose f.sector = some m') :
    Inv file m' opened ∧ m'.names = m.names ∧ m'.files = m.files := by
  simp only [Machine.inodeClose, Option.bind_eq_bind,
    Option.bind_eq_some_iff] at hrun
  obtain ⟨inode, hopen, fs, hclose, hrun⟩ := hrun
  have hne := h.foreign f List.mem_cons_self
  obtain ⟨hopened, hdenied⟩ := h.counted_open hopen
  simp only [List.countP_cons, isOn, deniesOn, hdeny, BEq.rfl, Bool.and_false,
    Bool.false_eq_true, ↓reduceIte, Nat.add_zero] at hopened hdenied
  by_cases hlast : inode.openCnt - 1 = 0
  · have hnone : opened.countP (isOn f.sector) = 0 := by
      omega
    by_cases hremoved : inode.removed = true
    · rw [if_pos ⟨hlast, hremoved⟩, Option.some.injEq] at hrun
      obtain ⟨fs', hclosed, hrel⟩ :=
        h.files.inodeClose_removed hne hopen hlast hremoved
      rw [hclose, Option.some.injEq] at hclosed
      subst hclosed hrun
      exact ⟨h.tail.release (h.files.proper _ inode hopen).live hne
        (h.not_named hopen hremoved) hnone hrel, rfl, rfl⟩
    · rw [if_neg fun hboth => hremoved hboth.2, Option.some.injEq] at hrun
      simp only [PintosLabs.inodeClose, hopen, hlast, hremoved,
        Option.bind_eq_bind, Option.bind_some, Bool.false_eq_true, ↓reduceIte,
        Option.some.injEq] at hclose
      subst hclose hrun
      refine ⟨h.setInode (a := [f]) (b := []) hne rfl
        (h.files.setInode hne (by simp)) (by simp) (by simp) (by simp)
        (Nat.le_of_eq hnone) (Nat.le_of_eq (Nat.eq_zero_of_le_zero ?_)), rfl, rfl⟩
      exact hnone ▸ countP_deniesOn_le f.sector opened
  · rw [if_neg fun hboth => hlast hboth.1, Option.some.injEq] at hrun
    simp only [PintosLabs.inodeClose, hopen, hlast, Option.bind_eq_bind,
      Option.bind_some, ↓reduceIte, Option.some.injEq] at hclose
    subst hclose hrun
    exact ⟨h.modifyInode (a := [f]) (b := []) hne hopen rfl rfl
      (Nat.pos_of_ne_zero hlast) (fun hremoved => h.not_named hopen hremoved)
      (by simp) (by simp) (Nat.le_sub_one_of_lt hopened) hdenied, rfl, rfl⟩

/-! Files. -/

/-- `file_close`. -/
theorem fileClose {f : OpenFile} (h : Inv file m (f :: opened))
    (hrun : m.fileClose f = some m') :
    Inv file m' opened ∧ m'.names = m.names ∧ m'.files = m.files := by
  simp only [Machine.fileClose, Option.bind_eq_bind,
    Option.bind_eq_some_iff] at hrun
  obtain ⟨fs, hallow, hclose⟩ := hrun
  cases hdeny : f.denyWrite with
  | true =>
      rw [hdeny, if_pos rfl] at hallow
      have hallowed := h.allowWrite hdeny hallow
      exact hallowed.inodeClose rfl hclose
  | false =>
      rw [hdeny, if_neg Bool.false_ne_true, Option.some.injEq] at hallow
      subst hallow
      exact h.inodeClose hdeny hclose

/-- `filesys_open`. -/
theorem filesysOpen (h : Inv file m opened) {name : List UInt8}
    {inode memory : Bool} {f : Option OpenFile}
    (hrun : m.filesysOpen name inode memory = some (f, m')) :
    m'.names = m.names ∧ m'.files = m.files ∧
      ((f = none ∧ Inv file m' opened) ∨
        ∃ g, f = some g ∧ m.names name = some g.sector ∧
          Inv file m' (g :: opened)) := by
  unfold Machine.filesysOpen at hrun
  cases hname : m.names name with
  | none =>
      simp only [hname, Option.some.injEq, Prod.mk.injEq] at hrun
      obtain ⟨rfl, rfl⟩ := hrun
      exact ⟨rfl, rfl, Or.inl ⟨rfl, h⟩⟩
  | some s =>
      obtain ⟨hlive, hne⟩ := h.named name s hname
      generalize hopen : PintosLabs.inodeOpen s inode m.fs = result at hrun
      obtain ⟨success, fs⟩ := result
      simp only [hname, hopen] at hrun
      rcases h.inodeOpen hlive hne inode hopen with ⟨rfl, rfl⟩ | ⟨rfl, hopened⟩
      · simp only [Bool.false_eq_true, ↓reduceIte, Option.some.injEq,
          Prod.mk.injEq] at hrun
        obtain ⟨rfl, rfl⟩ := hrun
        exact ⟨rfl, rfl, Or.inl ⟨rfl, h⟩⟩
      · cases memory with
        | true =>
            simp only [↓reduceIte, Option.some.injEq, Prod.mk.injEq] at hrun
            obtain ⟨rfl, rfl⟩ := hrun
            exact ⟨rfl, rfl, Or.inr ⟨_, rfl, rfl, hopened⟩⟩
        | false =>
            simp only [Bool.false_eq_true, ↓reduceIte, Option.bind_eq_bind,
              Option.bind_eq_some_iff, Option.some.injEq, Prod.mk.injEq] at hrun
            obtain ⟨_, hclose, rfl, rfl⟩ := hrun
            obtain ⟨hinv, hnames, hfiles⟩ := hopened.inodeClose rfl hclose
            exact ⟨hnames, hfiles, Or.inl ⟨rfl, hinv⟩⟩

theorem readAll (h : Inv file m opened) {reads : List (Int32 × Int32)}
    {fs : FileSys σ} (hrun : Machine.readAll s reads m.fs = some fs) :
    Inv file { m with fs := fs } opened := by
  induction reads generalizing m with
  | nil =>
      rw [Machine.readAll, Option.some.injEq] at hrun
      subst hrun
      exact h
  | cons read rest ih =>
      simp only [Machine.readAll, inodeReadAt, Option.bind_eq_bind,
        Option.bind_eq_some_iff, Option.some.injEq] at hrun
      obtain ⟨_, ⟨inode, hopen, rfl⟩, hrest⟩ := hrun
      have hread := h.setStore (readLoop_view m.fs.store inode.data true read.1
        read.2 [])
      have hrest' := ih hread hrest
      exact hrest'

/-- `load`. -/
theorem load (h : Inv file m opened) {name : List UInt8} {inode memory : Bool}
    {reads : List (Int32 × Int32)} {success : Bool} {loaded : Option BlockSector}
    (hrun : m.load name inode memory reads success = some (loaded, m')) :
    Inv file m' opened ∧ m'.files = m.files ∧
      ∀ s, loaded = some s → s ∈ m'.live ∧ s ≠ freeMapSector := by
  simp only [Machine.load, Option.bind_eq_bind, Option.bind_eq_some_iff] at hrun
  obtain ⟨⟨f, m₁⟩, hopen, hrun⟩ := hrun
  obtain ⟨hnames₁, hfiles₁, hcase⟩ := h.filesysOpen hopen
  rcases hcase with ⟨rfl, hinv⟩ | ⟨g, rfl, hname, hinv⟩
  · simp only [Option.some.injEq, Prod.mk.injEq] at hrun
    obtain ⟨rfl, rfl⟩ := hrun
    exact ⟨hinv, hfiles₁, by simp⟩
  · simp only [Option.bind_eq_some_iff, Option.some.injEq, Prod.mk.injEq] at hrun
    obtain ⟨fs, hread, m₂, hclose, rfl, rfl⟩ := hrun
    obtain ⟨hinv₂, hnames₂, hfiles₂⟩ := (hinv.readAll hread).fileClose hclose
    refine ⟨hinv₂, hfiles₂.trans hfiles₁, fun s hs => ?_⟩
    split at hs
    case isFalse => contradiction
    case isTrue =>
      rw [← Option.some.inj hs]
      refine hinv₂.named name g.sector ?_
      rw [hnames₂, ← hname]
      exact congrFun hnames₁ name

end Inv

/-! The list of open files. -/

/-- The element found is the one that is taken out. -/
theorem perm_eraseP {p : ControlBlock → Bool} {files : List ControlBlock}
    {c : ControlBlock} (hfind : files.find? p = some c) :
    files.Perm (c :: files.eraseP p) := by
  induction files with
  | nil => contradiction
  | cons d rest ih =>
      cases hp : p d with
      | true =>
          rw [List.find?_cons_of_pos hp, Option.some.injEq] at hfind
          rw [List.eraseP_cons_of_pos hp, hfind]
      | false =>
          have hneg : ¬ p d = true := Bool.eq_false_iff.mp hp
          rw [List.find?_cons_of_neg hneg] at hfind
          rw [List.eraseP_cons_of_neg hneg]
          exact ((ih hfind).cons d).trans (List.Perm.swap c d _)

/-- What a change leaves alone is the same in all files. -/
theorem modifyFirst_map {α : Type} {f : ControlBlock → ControlBlock}
    {g : ControlBlock → α} (p : ControlBlock → Bool) (files : List ControlBlock)
    (hsame : ∀ c, g (f c) = g c) :
    (modifyFirst p f files).map g = files.map g := by
  induction files with
  | nil => rfl
  | cons d rest ih =>
      rw [modifyFirst]
      split
      · rw [List.map_cons, List.map_cons, hsame]
      · rw [List.map_cons, List.map_cons, ih]

/-- The kernel is in order, with the open files of all processes. -/
def Machine.InOrder (file : FreeMapFile) (m : Machine σ) : Prop :=
  Inv file m (m.files.map ControlBlock.file)

namespace Machine.InOrder

variable {m m' : Machine σ} {s : BlockSector}

/-- A position in an open file changes. -/
theorem setPos (h : m.InOrder file) (pid fd : Nat) (pos : Int32) :
    (m.setPos pid fd pos).InOrder file := by
  have hcount : ∀ (q : OpenFile → Bool),
      (∀ c : ControlBlock, q { c.file with pos := pos } = q c.file) →
      ((m.setPos pid fd pos).files.map ControlBlock.file).countP q =
        (m.files.map ControlBlock.file).countP q := fun q hq => by
    have hmap := modifyFirst_map (isDescriptor pid fd) m.files
      (f := fun c => { c with file := { c.file with pos := pos } })
      (g := fun c => q c.file) hq
    have hcounts := congrArg (List.countP id) hmap
    rw [List.countP_map, List.countP_map] at hcounts ⊢
    exact hcounts
  have hsectors := modifyFirst_map (isDescriptor pid fd) m.files
    (f := fun c => { c with file := { c.file with pos := pos } })
    (g := fun c => c.file.sector) fun _ => rfl
  refine { h.setFiles _ with counted := fun t => ?_, foreign := fun f hf => ?_ }
  · rw [hcount (isOn t) fun _ => rfl, hcount (deniesOn t) fun _ => rfl]
    exact h.counted t
  · obtain ⟨c, hc, rfl⟩ := List.mem_map.mp hf
    have hmem : c.file.sector ∈ m.files.map fun c => c.file.sector :=
      hsectors ▸ List.mem_map_of_mem hc
    obtain ⟨d, hd, hsector⟩ := List.mem_map.mp hmem
    exact hsector ▸ h.foreign d.file (List.mem_map_of_mem hd)

theorem taken (h : m.InOrder file) {p : ControlBlock → Bool} {c : ControlBlock}
    (hfind : m.files.find? p = some c) :
    Inv file m (c.file :: (m.files.eraseP p).map ControlBlock.file) := by
  have hperm := (perm_eraseP hfind).map ControlBlock.file
  exact Inv.perm h hperm

/-- A file is closed and taken out of the list. -/
theorem fileClose (h : m.InOrder file) {p : ControlBlock → Bool}
    {c : ControlBlock} (hfind : m.files.find? p = some c)
    (hrun : m.fileClose c.file = some m') :
    ({ m' with files := m'.files.eraseP p } : Machine σ).InOrder file := by
  obtain ⟨hinv, -, hfiles⟩ := (h.taken hfind).fileClose hrun
  rw [hfiles]
  exact hinv.setFiles _

theorem closeFiles (h : m.InOrder file) {pid n : Nat}
    (hrun : closeFiles pid n m = some m') : m'.InOrder file := by
  induction n generalizing m with
  | zero =>
      rw [Machine.closeFiles, Option.some.injEq] at hrun
      exact hrun ▸ h
  | succ n ih =>
      rw [Machine.closeFiles] at hrun
      cases hfind : m.files.find? (isOwnedBy pid) with
      | none =>
          simp only [hfind, Option.some.injEq] at hrun
          exact hrun ▸ h
      | some c =>
          simp only [hfind, Option.bind_eq_bind, Option.bind_eq_some_iff] at hrun
          obtain ⟨m₁, hclose, hrest⟩ := hrun
          exact ih (h.fileClose hfind hclose) hrest

/-- Processes come and go, with executables that are there. -/
theorem setProcesses (h : m.InOrder file) (processes : Nat → Option Process)
    (hexecutables : ∀ pid p s, processes pid = some p → p.executable = some s →
      m.Executable s ∨ s ∈ m.live ∧ s ≠ freeMapSector) :
    ({ m with processes := processes } : Machine σ).InOrder file :=
  { h with
    executables := fun s hs => by
      obtain ⟨pid, p, hp, hexecutable⟩ := hs
      exact (hexecutables pid p s hp hexecutable).elim (h.executables s) id }

theorem exit (h : m.InOrder file) {pid : Nat} (hrun : m.exit pid = some m') :
    m'.InOrder file := by
  refine closeFiles (h.setProcesses _ fun q p s hp hs => Or.inl ?_) hrun
  by_cases hq : q = pid
  · rw [hq, Function.update_self] at hp
    contradiction
  · rw [Function.update_of_ne hq] at hp
    exact ⟨q, p, hp, hs⟩

/-- No file is touched, but sectors may have been lost. -/
theorem restate (h : m.InOrder file) {fs : FileSys σ}
    (hready : AllocReady file.Ready file.own fs)
    (hused : ∀ x, m.fs.Used x → fs.Used x)
    (hview : ∀ x, m.fs.Used x → x ∉ file.data → fs.view x = m.fs.view x)
    (hinodes : fs.openInodes = m.fs.openInodes) :
    ({ m with fs := fs } : Machine σ).InOrder file where
  files := h.files.restate hready hused hview (hinodes ▸ h.files.proper)
  named := h.named
  kept := by
    change ∀ name s inode, m.names name = some s → fs.openInodes s = _ → _
    rw [hinodes]
    exact h.kept
  unique := h.unique
  counted t := by
    change _ ≤ (fs.openInodes t).elim 0 _ ∧ _ ≤ (fs.openInodes t).elim 0 _
    rw [hinodes]
    exact h.counted t
  foreign := h.foreign
  executables := h.executables

/-! The system calls. -/

theorem create_step (h : m.InOrder file) {name : List UInt8}
    {initialSize : UInt32} {memory added : Bool} {eax : Int32}
    (hrun : m.step (.create name initialSize memory added) = some (eax, m'))
    (hroom : m'.fs.allocFailures = m.fs.allocFailures) : m'.InOrder file := by
  simp only [step, Option.bind_eq_bind, Option.bind_eq_some_iff] at hrun
  obtain ⟨⟨created, fs⟩, hcreate, hrun⟩ := hrun
  rcases FilesOk.filesysCreate_cases h.files.ready hcreate with
    hfail | ⟨rfl, hrel⟩ | ⟨s, new, rfl, hnew, halloc, hperm⟩
  · -- what comes after the failure does not take it back
    exfalso
    cases created with
    | none =>
        simp only [Option.some.injEq, Prod.mk.injEq] at hrun
        rw [← hrun.2] at hroom
        exact Nat.ne_of_gt hfail hroom
    | some s =>
        simp only at hrun
        split at hrun
        · rw [Option.some.injEq, Prod.mk.injEq] at hrun
          rw [← hrun.2] at hroom
          exact Nat.ne_of_gt hfail hroom
        · simp only [Option.bind_eq_some_iff, Option.some.injEq,
            Prod.mk.injEq] at hrun
          obtain ⟨fs', hrelease, -, rfl⟩ := hrun
          have hle := freeMapRelease_mono file.flushSpec.mono hrelease
          exact Nat.ne_of_gt (hfail.trans_le hle) hroom
  · simp only [Option.some.injEq, Prod.mk.injEq] at hrun
    rw [← hrun.2]
    refine h.restate hrel.ready (fun x hx => ?_) (fun x _ => hrel.frame x)
      hrel.openInodes
    exact (hrel.used x).mpr ⟨hx, List.not_mem_nil⟩
  obtain ⟨hfresh, -, hfiles⟩ := h.files.create hnew halloc hperm
  simp only at hrun
  split at hrun
  · -- the file has its name
    rename_i hname
    rw [Option.some.injEq, Prod.mk.injEq] at hrun
    rw [← hrun.2]
    have hnames : ∀ name' t, Function.update m.names name (some s) name' = some t →
        name' = name ∧ t = s ∨ m.names name' = some t := fun name' t ht => by
      by_cases heq : name' = name
      · rw [heq, Function.update_self, Option.some.injEq] at ht
        exact Or.inl ⟨heq, ht.symm⟩
      · rw [Function.update_of_ne heq] at ht
        exact Or.inr ht
    have hzero : s ≠ freeMapSector := fun hzero => halloc.free s
      (hperm.mem_iff.mp List.mem_cons_self) (hzero ▸ h.files.ready.zero_used)
    refine ⟨hfiles, fun name' t ht => ?_, fun name' t i ht hi => ?_,
      fun name₁ name₂ t h₁ h₂ => ?_, fun t => ?_, h.foreign, fun t ht => ?_⟩
    · rcases hnames name' t ht with ⟨-, rfl⟩ | hold
      · exact ⟨List.mem_cons_self, hzero⟩
      · exact (h.named name' t hold).imp_left (List.mem_cons_of_mem s)
    · change fs.openInodes t = some i at hi
      rw [halloc.openInodes] at hi
      rcases hnames name' t ht with ⟨-, rfl⟩ | hold
      · exact absurd (h.files.proper t i hi).live hfresh
      · exact h.kept name' t i hold hi
    · rcases hnames name₁ t h₁ with ⟨rfl, rfl⟩ | hold₁
      · rcases hnames name₂ t h₂ with ⟨rfl, -⟩ | hold₂
        · rfl
        · exact absurd (h.named name₂ t hold₂).1 hfresh
      · rcases hnames name₂ t h₂ with ⟨rfl, rfl⟩ | hold₂
        · exact absurd (h.named name₁ t hold₁).1 hfresh
        · exact h.unique name₁ name₂ t hold₁ hold₂
    · change _ ≤ (fs.openInodes t).elim 0 _ ∧ _ ≤ (fs.openInodes t).elim 0 _
      rw [halloc.openInodes]
      exact h.counted t
    · exact (h.executables t ht).imp_left (List.mem_cons_of_mem s)
  · -- only the sector of the inode is given back
    simp only [Option.bind_eq_some_iff, Option.some.injEq, Prod.mk.injEq] at hrun
    obtain ⟨fs', hrelease, -, rfl⟩ := hrun
    obtain ⟨fs₂, hgiven, hrel⟩ := freeMapRelease_spec halloc.ready
      hnew.used hnew.foreign
    rw [hrelease, Option.some.injEq] at hgiven
    subst hgiven
    have hfree : ∀ x, m.fs.Used x → x ∉ fs.sectorsOf s := fun x hx hmem =>
      halloc.free x (hperm.mem_iff.mp hmem) hx
    refine h.restate hrel.ready (fun x hx => (hrel.used x).mpr ?_)
      (fun x hx hdata => ?_) (hrel.openInodes.trans halloc.openInodes)
    · exact ⟨halloc.used_mono hx, fun hmem =>
        hfree x hx (List.mem_singleton.mp hmem ▸ List.mem_cons_self)⟩
    · rw [hrel.frame x hdata, halloc.frame x (hfree x hx) hdata]

theorem remove_step (h : m.InOrder file) {name : List UInt8}
    {inode erased : Bool} {eax : Int32}
    (hrun : m.step (.remove name inode erased) = some (eax, m')) :
    m'.InOrder file := by
  simp only [step] at hrun
  cases hname : m.names name with
  | none =>
      simp only [hname, Option.some.injEq, Prod.mk.injEq] at hrun
      exact hrun.2 ▸ h
  | some s =>
      obtain ⟨hlive, hne⟩ := h.named name s hname
      generalize hopen : inodeOpen s inode m.fs = result at hrun
      obtain ⟨success, fs⟩ := result
      simp only [hname, hopen] at hrun
      rcases Inv.inodeOpen h hlive hne inode hopen with ⟨rfl, rfl⟩ | ⟨rfl, hopened⟩
      · simp only [Bool.false_eq_true, ↓reduceIte, Option.some.injEq,
          Prod.mk.injEq] at hrun
        exact hrun.2 ▸ h
      · cases erased with
        | false =>
            simp only [Bool.false_eq_true, ↓reduceIte, Option.bind_eq_bind,
              Option.bind_eq_some_iff, Option.some.injEq, Prod.mk.injEq] at hrun
            obtain ⟨m₁, hclose, -, rfl⟩ := hrun
            obtain ⟨hinv, -, hfiles⟩ := hopened.inodeClose rfl hclose
            rw [Machine.InOrder, hfiles]
            exact hinv
        | true =>
            simp only [↓reduceIte, Option.bind_eq_bind, Option.bind_eq_some_iff,
              Option.some.injEq, Prod.mk.injEq] at hrun
            obtain ⟨fs', hremove, m₁, hclose, -, rfl⟩ := hrun
            have hnames : ∀ name' t,
                Function.update m.names name none name' = some t →
                  t ≠ s ∧ m.names name' = some t := fun name' t ht => by
              by_cases heq : name' = name
              · rw [heq, Function.update_self] at ht
                contradiction
              · rw [Function.update_of_ne heq] at ht
                exact ⟨fun hts => heq (h.unique name' name s (hts ▸ ht) hname), ht⟩
            have herased := hopened.forget fun name' t ht => (hnames name' t ht).2
            have hremoved := herased.inodeRemove hne
              (fun name' ht => (hnames name' s ht).1 rfl) hremove
            obtain ⟨hinv, -, hfiles⟩ := hremoved.inodeClose rfl hclose
            rw [Machine.InOrder, hfiles]
            exact hinv

theorem exec_step (h : m.InOrder file) {child : Nat} {cmdline : List UInt8}
    {inode memory : Bool} {reads : List (Int32 × Int32)} {success : Bool}
    {eax : Int32}
    (hrun : m.step (.exec child cmdline inode memory reads success) =
      some (eax, m')) : m'.InOrder file := by
  simp only [step] at hrun
  cases hchild : m.processes child with
  | some p =>
      simp only [hchild] at hrun
      contradiction
  | none =>
  simp only [hchild] at hrun
  split at hrun
  case isTrue =>
    rw [Option.some.injEq, Prod.mk.injEq] at hrun
    exact hrun.2 ▸ h
  case isFalse =>
    simp only [Option.bind_eq_bind, Option.bind_eq_some_iff] at hrun
    obtain ⟨⟨loaded, m₁⟩, hload, hrun⟩ := hrun
    obtain ⟨hinv, hfiles, hlive⟩ := Inv.load h hload
    rw [← hfiles] at hinv
    cases loaded with
    | none =>
        simp only [Option.some.injEq, Prod.mk.injEq] at hrun
        exact hrun.2 ▸ hinv
    | some s =>
        simp only [Option.some.injEq, Prod.mk.injEq] at hrun
        rw [← hrun.2]
        refine setProcesses hinv _ fun q p t hp ht => ?_
        by_cases hq : q = child
        · rw [hq, Function.update_self, Option.some.injEq] at hp
          rw [← hp] at ht
          exact Or.inr (Option.some.inj ht ▸ hlive s rfl)
        · rw [Function.update_of_ne hq] at hp
          exact Or.inl ⟨q, p, hp, ht⟩

/-- A new descriptor. -/
theorem addFile {f : OpenFile}
    (h : Inv file m (f :: m.files.map ControlBlock.file)) (pid fd : Nat) :
    (m.addFile pid fd f).InOrder file := by
  have hperm : (f :: m.files.map ControlBlock.file).Perm
      ((m.files ++ [ControlBlock.mk pid fd f]).map ControlBlock.file) := by
    rw [List.map_append, List.map_cons, List.map_nil]
    exact (List.perm_append_singleton f _).symm
  have hfiles : Machine.InOrder file { m with files := m.files ++ [⟨pid, fd, f⟩] } :=
    (h.perm hperm).setFiles _
  refine hfiles.setProcesses _ fun q p s hp hs => Or.inl ?_
  split at hp
  · obtain ⟨p₀, hp₀, rfl⟩ := Option.map_eq_some_iff.mp hp
    exact ⟨q, p₀, hp₀, hs⟩
  · exact ⟨q, p, hp, hs⟩

theorem open_step (h : m.InOrder file) {pid : Nat} {name : List UInt8}
    {inode memory page : Bool} {eax : Int32}
    (hrun : m.step (.openFile pid name inode memory page) = some (eax, m')) :
    m'.InOrder file := by
  simp only [step, Option.bind_eq_bind, Option.bind_eq_some_iff] at hrun
  obtain ⟨p, -, ⟨f, m₁⟩, hopen, ⟨f', fs⟩, hdeny, hrun⟩ := hrun
  obtain ⟨-, hfiles, hcase⟩ := Inv.filesysOpen h hopen
  rw [← hfiles] at hcase
  rcases hcase with ⟨rfl, hinv⟩ | ⟨g, rfl, -, hinv⟩
  · split at hdeny
    · contradiction
    · rw [Option.some.injEq, Prod.mk.injEq] at hdeny
      obtain ⟨rfl, rfl⟩ := hdeny
      simp only [Option.some.injEq, Prod.mk.injEq] at hrun
      exact hrun.2 ▸ hinv
  · have hopened : ∃ g', f' = some g' ∧ Inv file { m₁ with fs := fs }
        (g' :: m₁.files.map ControlBlock.file) := by
      split at hdeny
      · exact hinv.denyWrite hdeny
      · rw [Option.some.injEq, Prod.mk.injEq] at hdeny
        obtain ⟨rfl, rfl⟩ := hdeny
        exact ⟨g, rfl, hinv⟩
    obtain ⟨g', rfl, hinv'⟩ := hopened
    cases page with
    | true =>
        simp only [↓reduceIte, Option.some.injEq, Prod.mk.injEq] at hrun
        rw [← hrun.2]
        exact addFile hinv' pid p.fd
    | false =>
        simp only [Bool.false_eq_true, ↓reduceIte, Option.some.injEq,
          Prod.mk.injEq] at hrun
        exact hrun.2 ▸ hinv'.tail

theorem read_step (h : m.InOrder file) {pid fd : Nat} {length : UInt32}
    {memory : Bool} {eax : Int32}
    (hrun : m.step (.read pid fd length memory) = some (eax, m')) :
    m'.InOrder file := by
  simp only [step] at hrun
  split at hrun
  · rw [Option.some.injEq, Prod.mk.injEq] at hrun
    exact hrun.2 ▸ h
  cases hfile : m.getFile pid fd with
  | none =>
      simp only [hfile, Option.some.injEq, Prod.mk.injEq] at hrun
      exact hrun.2 ▸ h
  | some f =>
      simp only [hfile, inodeReadAt, Option.bind_eq_bind,
        Option.bind_eq_some_iff, Option.some.injEq, Prod.mk.injEq] at hrun
      obtain ⟨_, ⟨inode, -, rfl⟩, -, rfl⟩ := hrun
      have hread : Machine.InOrder file { m with fs := { m.fs with
          store := (readLoop m.fs.store inode.data memory length.toInt32 f.pos
            []).2 } } :=
        Inv.setStore h (readLoop_view _ _ _ _ _ _)
      exact hread.setPos pid fd _

/-- A call of `write`: nothing happens, or nothing but the state of the store
and the position change, or the file has been written. -/
theorem write_cases (h : m.InOrder file) {pid fd : Nat} {buffer : Nat → UInt8}
    {size : UInt32} {memory : Bool}
    (hok : (Call.write pid fd buffer size memory).Ok m) {eax : Int32}
    (hrun : m.step (.write pid fd buffer size memory) = some (eax, m')) :
    m' = m ∨
    ∃ (f : OpenFile) (inode : Inode) (fs : FileSys σ) (pos : Int32),
      m.fs.openInodes f.sector = some inode ∧ f.sector ≠ freeMapSector ∧
      m' = ({ m with fs := fs } : Machine σ).setPos pid fd pos ∧
      ((∃ st, fs = { m.fs with store := st } ∧
          SectorStore.view st = m.fs.view) ∨
        ¬ m.Executable f.sector ∧ ∃ mid id' offset n new,
          fs = mid.setInode f.sector (some { inode with data := id' }) ∧
          FileWritten file.Ready file.Synced file.own file.data m.fs mid f.sector
            inode.data id' offset n buffer new) := by
  obtain ⟨hallowed, hroom⟩ := hok
  have hroom := hroom m' (by rw [next, hrun, Option.map_some])
  simp only [step] at hrun
  split at hrun
  · rw [Option.some.injEq, Prod.mk.injEq] at hrun
    exact Or.inl hrun.2.symm
  split at hrun
  · rw [Option.some.injEq, Prod.mk.injEq] at hrun
    exact Or.inl hrun.2.symm
  cases hfile : m.getFile pid fd with
  | none =>
      simp only [hfile, Option.some.injEq, Prod.mk.injEq] at hrun
      exact Or.inl hrun.2.symm
  | some f =>
  simp only [hfile] at hrun
  split at hrun
  · rw [Option.some.injEq, Prod.mk.injEq] at hrun
    exact Or.inl hrun.2.symm
  rename_i hwritable
  obtain ⟨hrange, hprotected⟩ := (hallowed f hfile).resolve_left hwritable
  simp only [Option.bind_eq_bind, Option.bind_eq_some_iff, Option.some.injEq,
    Prod.mk.injEq] at hrun
  obtain ⟨⟨written, fs⟩, hwrite, -, rfl⟩ := hrun
  obtain ⟨c, hc, rfl⟩ := Option.map_eq_some_iff.mp hfile
  have hmem := List.mem_map_of_mem (f := ControlBlock.file)
    (List.mem_of_find?_eq_some hc)
  have hne := h.foreign c.file hmem
  cases hopen : m.fs.openInodes c.file.sector with
  | none =>
      rw [inodeWriteAt, inodeWriteAtWith, hopen] at hwrite
      contradiction
  | some inode =>
      refine Or.inr ⟨c.file, inode, fs, _, hopen, hne, rfl, ?_⟩
      rcases h.files.inodeWriteAt_cases hne hopen (hrange inode hopen) hwrite with
        hfail | hstore | ⟨hdeny, hwritten⟩
      · exact absurd hroom (Nat.ne_of_gt hfail)
      · exact Or.inl hstore
      · refine Or.inr ⟨fun hexecutable => ?_, hwritten⟩
        obtain ⟨d, hd, hsector, hdenies⟩ := hprotected hexecutable
        have hcounted := (Inv.counted_open h hopen).2
        rw [hdeny, Nat.le_zero, List.countP_eq_zero] at hcounted
        refine hcounted d.file (List.mem_map_of_mem hd) ?_
        rw [deniesOn, hsector, hdenies, BEq.rfl, Bool.and_self]

theorem write_step (h : m.InOrder file) {pid fd : Nat} {buffer : Nat → UInt8}
    {size : UInt32} {memory : Bool}
    (hok : (Call.write pid fd buffer size memory).Ok m) {eax : Int32}
    (hrun : m.step (.write pid fd buffer size memory) = some (eax, m')) :
    m'.InOrder file := by
  rcases h.write_cases hok hrun with
    rfl | ⟨f, inode, fs, pos, hopen, hne, rfl, hcase⟩
  · exact h
  suffices hinv : Machine.InOrder file { m with fs := fs } from
    hinv.setPos pid fd pos
  rcases hcase with ⟨st, rfl, hview⟩ | ⟨-, mid, id', offset, n, new, rfl, hwritten⟩
  · exact Inv.setStore h hview
  · have hinodes : (mid.setInode f.sector
        (some { inode with data := id' })).openInodes =
        Function.update m.fs.openInodes f.sector
          (some { inode with data := id' }) := by
      rw [FileSys.setInode_openInodes, hwritten.alloc.openInodes]
    obtain ⟨hopened, hdenied⟩ := Inv.counted_open h hopen
    refine Inv.setInode (a := []) (b := []) h hne hinodes
      (h.files.write hne hopen hwritten).2.2.2 (fun i hi hremoved => ?_)
      (by simp) (by simp) hopened hdenied
    rw [← Option.some.inj hi] at hremoved
    exact Inv.not_named h hopen hremoved

/-- Whatever happens, as far as it is allowed, keeps the kernel in order. -/
theorem next (h : m.InOrder file) {call : Call} (hok : call.Ok m)
    (hnext : m.next call = some m') : m'.InOrder file := by
  obtain ⟨⟨eax, m₁⟩, hstep, rfl⟩ := Option.map_eq_some_iff.mp hnext
  cases call with
  | exec child cmdline inode memory reads success => exact h.exec_step hstep
  | create name initialSize memory added =>
      exact h.create_step hstep (hok.2 m₁ hnext)
  | remove name inode erased => exact h.remove_step hstep
  | openFile pid name inode memory page => exact h.open_step hstep
  | read pid fd length memory => exact h.read_step hstep
  | write pid fd buffer size memory => exact h.write_step hok hstep
  | seek pid fd position =>
      simp only [step] at hstep
      split at hstep
      · rw [Option.some.injEq, Prod.mk.injEq] at hstep
        exact hstep.2 ▸ h
      · split at hstep
        · rw [Option.some.injEq, Prod.mk.injEq] at hstep
          exact hstep.2 ▸ h.setPos pid fd _
        · contradiction
  | close pid fd =>
      simp only [step] at hstep
      split at hstep
      · simp only [Option.bind_eq_bind, Option.bind_eq_some_iff,
          Option.some.injEq, Prod.mk.injEq] at hstep
        obtain ⟨_, hexit, -, rfl⟩ := hstep
        exact h.exit hexit
      · rename_i c hfind
        simp only [Option.bind_eq_bind, Option.bind_eq_some_iff,
          Option.some.injEq, Prod.mk.injEq] at hstep
        obtain ⟨_, hclose, -, rfl⟩ := hstep
        exact h.fileClose hfind hclose
  | exit pid =>
      simp only [step, Option.bind_eq_bind, Option.bind_eq_some_iff,
        Option.some.injEq, Prod.mk.injEq] at hstep
      obtain ⟨_, hexit, -, rfl⟩ := hstep
      exact h.exit hexit

/-- A call of `write` leaves the executables of running processes alone. -/
theorem write_kept (h : m.InOrder file) {pid fd : Nat} {buffer : Nat → UInt8}
    {size : UInt32} {memory : Bool}
    (hok : (Call.write pid fd buffer size memory).Ok m) {eax : Int32}
    (hrun : m.step (.write pid fd buffer size memory) = some (eax, m'))
    (hexecutable : m.Executable s) :
    contents m'.fs (m'.fs.inodeAt s) = contents m.fs (m.fs.inodeAt s) := by
  obtain ⟨hlive, hne⟩ := h.executables s hexecutable
  rcases h.write_cases hok hrun with
    rfl | ⟨f, inode, fs, pos, hopen, -, rfl, hcase⟩
  · rfl
  change contents fs (fs.inodeAt s) = _
  refine (contents_kept h.files hlive hne fun x hx hdata => ?_).2
  rcases hcase with ⟨st, rfl, hview⟩ |
    ⟨hother, mid, id', offset, n, new, rfl, hwritten⟩
  · exact congrFun hview x
  · have hsf : s ≠ f.sector := fun heq => hother (heq ▸ hexecutable)
    exact hwritten.alloc.frame x (fun hmem => hwritten.alloc.free x
      (h.files.touched_new hopen hwritten hlive hsf x hx hmem)
      (h.files.used_of_mem hlive hx)) hdata

end Machine.InOrder

/-- The kernel is in order when the disk has been formatted. -/
theorem start_inOrder {fs : FileSys σ} (h : (World.formatted fs).Inv file) :
    (Machine.start fs).InOrder file where
  files := h.filesOk
  named _ _ hs := by contradiction
  kept _ _ _ hs := by contradiction
  unique _ _ _ hs := by contradiction
  counted _ := ⟨Nat.zero_le _, Nat.zero_le _⟩
  foreign _ hf := by contradiction
  executables s := by
    rintro ⟨pid, p, hp, hs⟩
    change (if pid = 1 then _ else none) = some p at hp
    split at hp
    · rw [← Option.some.inj hp] at hs
      contradiction
    · contradiction

/-- In every run in which no write goes, through a descriptor that may write,
to the executable of a running process that nobody has open under its own name,
no write changes a byte or the length of the executable of a running process. -/
theorem executables_read_only {cnt : BlockSector} {store : σ}
    {memory : List Bool} {fs : FileSys σ}
    (hformat : filesysInit true cnt store memory = some fs)
    (hnofail : fs.allocFailures = 0) {calls : List Call} {m m' : Machine σ}
    (hrun : Run Machine.next (fun m call => call.Ok m) (Machine.start fs) calls m)
    {pid fd : Nat} {buffer : Nat → UInt8} {size : UInt32} {bounce : Bool}
    {eax : Int32} (hok : (Call.write pid fd buffer size bounce).Ok m)
    (hwrite : m.step (.write pid fd buffer size bounce) = some (eax, m'))
    {s : BlockSector} (hrunning : m.Executable s) :
    contents m'.fs (m'.fs.inodeAt s) = contents m.fs (m.fs.inodeAt s) := by
  obtain ⟨file, hformatted⟩ := filesysInit_inv hformat hnofail
  have hinv := hrun.invariant (Machine.InOrder file)
    (fun h hok hstep => h.next hok hstep) (start_inOrder hformatted)
  exact hinv.write_kept hok hwrite hrunning

namespace ExecutablesWitness

abbrev State := Machine (BlockSector → Block)

def prog : List UInt8 := [112, 114, 111, 103]

def writer : List UInt8 := [119, 114, 105, 116, 101, 114]

/-- A file of one sector is created. -/
theorem create_made {m : State} (h : m.InOrder file) (name : List UInt8)
    (hname : name ≠ [] ∧ name.length ≤ nameMax ∧ m.names name = none)
    (hroom : 2 ≤ m.fs.freeCount) (hmemory : m.fs.MemoryOk) :
    ∃ s fs, m.step (.create name 512 true true) =
        some (1,
          { m with
            fs := fs
            live := s :: m.live
            names := Function.update m.names name (some s) }) ∧
      fs.openInodes = m.fs.openInodes ∧ m.fs.openInodes s = none ∧
      fs.allocFailures = m.fs.allocFailures ∧
      fs.freeCount + 2 = m.fs.freeCount ∧ fs.MemoryOk ∧
      (fs.inodeAt s).length = 512 ∧ fileByte fs.view (fs.inodeAt s) 0 = 0 := by
  have hsectors : sectorsFor (bytesToSectors (512 : Int32).toInt.toNat
      blockSectorSize) = 1 := sectorsFor_direct (by decide)
  rcases filesysCreate_spec h.files.ready (by decide : 0 ≤ (512 : Int32).toInt)
      (by decide) with
    ⟨s, fs, new, hcreate, hlength, hnew, -, halloc, hperm, hzero⟩ | ⟨hfull, -⟩
  case inr =>
    rw [hsectors] at hfull
    exact absurd ⟨by omega, hmemory⟩ hfull
  have hblocks : (fs.inodeAt s).blocks = 1 := by
    rw [InodeDisk.blocks, hlength]
    rfl
  have hcount := halloc.count
  rw [hnew, hblocks, sectorsFor_direct (by decide)] at hcount
  refine ⟨s, fs, ?_, halloc.openInodes, ?_, halloc.allocFailures, hcount,
    halloc.memory hmemory, hlength, hzero 0 (by rw [hblocks]; decide)⟩
  · have hcreate' : filesysCreate (512 : UInt32).toInt32 true m.fs =
        some (some s, fs) := hcreate
    simp only [Machine.step, hcreate', hname, ne_eq, not_false_eq_true, and_self,
      ↓reduceIte, Option.bind_eq_bind, Option.bind_some]
  · cases hopen : m.fs.openInodes s with
    | none => rfl
    | some inode =>
        exact absurd (h.files.used_of_mem (h.files.proper s inode hopen).live
          List.mem_cons_self)
          (halloc.free s (hperm.mem_iff.mp List.mem_cons_self))

/-- A program is loaded. -/
theorem exec_loaded (m : State) (child : Nat) (cmdline : List UInt8)
    {s : BlockSector} (hchild : m.processes child = none)
    (htoken : firstToken (copyToPage cmdline) ≠ [])
    (hname : m.names (loadName cmdline) = some s)
    (hclosed : m.fs.openInodes s = none) :
    m.step (.exec child cmdline true true [] true) =
      some (Int32.ofNat child,
        { m with
          processes := Function.update m.processes child
            (some ⟨threadName cmdline, some s, 2⟩) }) := by
  have hopen := inodeOpen_closed hclosed
  have hread : (m.fs.cacheRead s).2 = m.fs := rfl
  rw [hread] at hopen
  have hopened : (m.fs.setInode s (some (openedInode s (m.fs.inodeAt s)))).openInodes
      s = some (openedInode s (m.fs.inodeAt s)) := Function.update_self _ _ _
  have hback : (m.fs.setInode s (some (openedInode s (m.fs.inodeAt s)))).setInode s
      none = m.fs := by
    rw [FileSys.setInode, FileSys.setInode_openInodes, Function.update_idem,
      ← hclosed, Function.update_eq_self]
    rfl
  generalize hinode : openedInode s (m.fs.inodeAt s) = inode at hopen hopened hback
  have hlast : inode.openCnt - 1 = 0 := by rw [← hinode]; rfl
  have hkept : inode.removed = false := by rw [← hinode]; rfl
  simp only [Machine.step, hchild, htoken, ↓reduceIte, Machine.load,
    Machine.filesysOpen, hname, hopen, Machine.readAll, Machine.fileClose,
    Machine.inodeClose, inodeClose, hopened, hlast, hkept, hback,
    Option.bind_eq_bind, Option.bind_some, Bool.false_eq_true, and_false]

/-- A file that is not open is opened by a process of that name, or of
another. -/
theorem open_opened {m : State} {pid : Nat} {p : Process} {name : List UInt8}
    {s : BlockSector} (hprocess : m.processes pid = some p)
    (hname : m.names name = some s) (hclosed : m.fs.openInodes s = none)
    (denies : Bool) (hdenies : denies = true ↔ name = p.name) :
    m.step (.openFile pid name true true true) =
      some (Int32.ofNat p.fd, ({ m with fs := m.fs.setInode s (some
        { openedInode s (m.fs.inodeAt s) with denyWriteCnt := denies.toNat }) } :
          State).addFile pid p.fd ⟨s, 0, denies⟩) := by
  have hopen := inodeOpen_closed hclosed
  have hread : (m.fs.cacheRead s).2 = m.fs := rfl
  rw [hread] at hopen
  have hopened : (m.fs.setInode s (some (openedInode s (m.fs.inodeAt s)))).openInodes
      s = some (openedInode s (m.fs.inodeAt s)) := Function.update_self _ _ _
  have hagain : ∀ i, (m.fs.setInode s (some (openedInode s
      (m.fs.inodeAt s)))).setInode s i = m.fs.setInode s i := fun i => by
    rw [FileSys.setInode, FileSys.setInode_openInodes, Function.update_idem]
    rfl
  cases denies with
  | false =>
      have hne : ¬ name = p.name := fun heq => by simp [heq] at hdenies
      simp only [Machine.step, hprocess, Machine.filesysOpen, hname, hopen, hne,
        ↓reduceIte, Option.bind_eq_bind, Option.bind_some]
      rfl
  | true =>
      have heq : name = p.name := hdenies.mp rfl
      have hone : (openedInode s (m.fs.inodeAt s)).denyWriteCnt + 1 ≤
          (openedInode s (m.fs.inodeAt s)).openCnt := Nat.le_refl 1
      subst heq
      simp only [Machine.step, hprocess, Machine.filesysOpen, hname, hopen,
        ↓reduceIte, Option.bind_eq_bind, Option.bind_some, fileDenyWrite,
        inodeDenyWrite, hopened, hone, Bool.false_eq_true, hagain]
      rfl

theorem run_next {m₀ m m' : State} {calls : List Call} {call : Call} {eax : Int32}
    (hrun : Run Machine.next (fun m call => call.Ok m) m₀ calls m)
    (hstep : m.step call = some (eax, m')) (hallowed : call.Allowed m)
    (hsame : m'.fs.allocFailures = m.fs.allocFailures) :
    Run Machine.next (fun m call => call.Ok m) m₀ (calls ++ [call]) m' := by
  have hnext : m.next call = some m' := by rw [Machine.next, hstep, Option.map_some]
  refine hrun.snoc ⟨hallowed, fun m₁ h => ?_⟩ hnext
  rw [hnext, Option.some.injEq] at h
  rw [← h, hsame]

/-- Two processes run, one of them from a file of zeros that nobody has
open. -/
structure TwoRunning (fs : FileSys (BlockSector → Block)) (calls : List Call)
    (m : State) (s t : BlockSector) : Prop where
  format : filesysInit true 64 (fun _ => zeros) [] = some fs
  nofail : fs.allocFailures = 0
  run : Run Machine.next (fun m call => call.Ok m) (Machine.start fs) calls m
  named : m.names prog = some s
  closed : m.fs.openInodes s = none
  files : m.files = []
  first : m.processes 2 = some ⟨prog, some s, 2⟩
  second : m.processes 3 = some ⟨writer, some t, 2⟩
  memory : m.fs.MemoryOk
  length_eq : (m.fs.inodeAt s).length = 512
  zero : fileByte m.fs.view (m.fs.inodeAt s) 0 = 0

theorem two_running : ∃ fs calls m s t, TwoRunning fs calls m s t := by
  obtain ⟨file, fs, hformat, hformatted, hnofail, hcount, hmemory⟩ := formatted_disk
  have hstart := start_inOrder hformatted
  have hkept : ∀ {calls : List Call} {m : State},
      Run Machine.next (fun m call => call.Ok m) (Machine.start fs) calls m →
        m.InOrder file := fun hrun =>
    hrun.invariant (Machine.InOrder file) (fun h hok hstep => h.next hok hstep)
      hstart
  have hroom : 2 ≤ (Machine.start fs).fs.freeCount := by
    change 2 ≤ fs.freeCount
    omega
  obtain ⟨t, fs₁, hstep₁, hinodes₁, hclosed₁, hfail₁, hcount₁, hmemory₁, -⟩ :=
    create_made hstart writer ⟨by decide, by decide, rfl⟩ hroom hmemory
  have hrun₁ := run_next (Run.nil _) hstep₁ trivial hfail₁
  generalize hm₁ : ({ Machine.start fs with
    fs := fs₁
    live := t :: (Machine.start fs).live
    names := Function.update (Machine.start fs).names writer (some t) } :
      State) = m₁ at hrun₁
  have hfs₁ : m₁.fs = fs₁ := by rw [← hm₁]
  have hnames₁ : m₁.names = Function.update (fun _ => none) writer (some t) := by
    rw [← hm₁]
    rfl
  have hprog₁ : m₁.names prog = none := by
    rw [hnames₁]
    rfl
  have hroom₁ : 2 ≤ m₁.fs.freeCount := by
    rw [hfs₁]
    change fs₁.freeCount + 2 = fs.freeCount at hcount₁
    omega
  obtain ⟨s, fs₂, hstep₂, hinodes₂, hclosed₂, hfail₂, hcount₂, hmemory₂, hlength,
      hzero⟩ :=
    create_made (hkept hrun₁) prog ⟨by decide, by decide, hprog₁⟩ hroom₁
      (hfs₁ ▸ hmemory₁)
  have hrun₂ := run_next hrun₁ hstep₂ trivial hfail₂
  generalize hm₂ : ({ m₁ with
    fs := fs₂
    live := s :: m₁.live
    names := Function.update m₁.names prog (some s) } : State) = m₂ at hrun₂
  have hprocesses₂ : m₂.processes = (Machine.start fs).processes := by
    rw [← hm₂, ← hm₁]
  have hwriter : m₂.names writer = some t := by
    rw [← hm₂]
    change Function.update m₁.names prog (some s) writer = _
    rw [Function.update_of_ne (by decide), hnames₁, Function.update_self]
  have hwriter_closed : m₂.fs.openInodes t = none := by
    rw [← hm₂]
    change fs₂.openInodes t = none
    rw [hinodes₂, hfs₁, hinodes₁, hclosed₁]
  have hstep₃ := exec_loaded m₂ 3 writer (by rw [hprocesses₂]; rfl) (by decide)
    hwriter hwriter_closed
  have hrun₃ := run_next hrun₂ hstep₃ trivial rfl
  generalize hm₃ : ({ m₂ with
    processes := Function.update m₂.processes 3
      (some ⟨threadName writer, some t, 2⟩) } : State) = m₃ at hrun₃
  have hprocesses₃ : m₃.processes = Function.update m₂.processes 3
      (some ⟨writer, some t, 2⟩) := by
    rw [← hm₃]
    rfl
  have hfs₃ : m₃.fs = fs₂ := by rw [← hm₃, ← hm₂]
  have hprog : m₃.names prog = some s := by
    rw [← hm₃, ← hm₂]
    change Function.update m₁.names prog (some s) prog = _
    rw [Function.update_self]
  have hprog_closed : m₃.fs.openInodes s = none := by
    rw [hfs₃, hinodes₂, hclosed₂]
  have hstep₄ := exec_loaded m₃ 2 prog (by
    rw [hprocesses₃, Function.update_of_ne (by decide), hprocesses₂]
    rfl) (by decide) hprog hprog_closed
  have hrun₄ := run_next hrun₃ hstep₄ trivial rfl
  refine ⟨fs, _, _, s, t, hformat, hnofail, hrun₄, hprog, hprog_closed, ?_, ?_,
    ?_, ?_, ?_, ?_⟩
  · rw [← hm₃, ← hm₂, ← hm₁]
    rfl
  · exact Function.update_self 2 _ m₃.processes
  · change m₃.processes 3 = _
    rw [hprocesses₃, Function.update_self]
  · exact hfs₃ ▸ hmemory₂
  · exact hfs₃ ▸ hlength
  · exact hfs₃ ▸ hzero

/-- A process that opens its own executable cannot write to it. -/
theorem executables_read_only_own : ∃ (m m' : State) (s : BlockSector),
    m.Executable s ∧
      m.step (.write 2 2 (fun _ => 1) 1 true) = some (0, m') ∧
      contents m'.fs (m'.fs.inodeAt s) = contents m.fs (m.fs.inodeAt s) := by
  obtain ⟨fs, calls, m, s, t, h⟩ := two_running
  have hopen := open_opened h.first h.named h.closed true (by simp)
  have hrun := run_next h.run hopen trivial rfl
  generalize hm' : Machine.addFile _ _ _ _ = m' at hopen hrun
  have hfile : m'.getFile 2 2 = some ⟨s, 0, true⟩ := by
    rw [← hm', Machine.getFile, Machine.addFile, h.files]
    rfl
  have hrunning : m'.Executable s := by
    refine ⟨2, ⟨prog, some s, 3⟩, ?_, rfl⟩
    rw [← hm', Machine.addFile]
    change Option.map _ (m.processes 2) = _
    rw [h.first]
    rfl
  have hwrite : m'.step (.write 2 2 (fun _ => 1) 1 true) = some (0, m') := by
    simp only [Machine.step, hfile]
    rfl
  have hok : (Call.write 2 2 (fun _ => 1) 1 true).Ok m' := by
    refine ⟨fun f hf => Or.inl ?_, fun m'' hnext => ?_⟩
    · rw [hfile, Option.some.injEq] at hf
      rw [← hf]
    · rw [Machine.next, hwrite, Option.map_some, Option.some.injEq] at hnext
      rw [← hnext]
  exact ⟨m', m', s, hrunning, hwrite,
    executables_read_only h.format h.nofail hrun hok hwrite hrunning⟩

/-- A process that opens the executable of another can write to it: no process
has it open under its own name. -/
theorem executable_written :
    ¬ ∀ (fs : FileSys (BlockSector → Block)) (calls : List Call) (m m' : State)
      (pid fd : Nat) (buffer : Nat → UInt8) (size : UInt32) (eax : Int32)
      (s : BlockSector), filesysInit true 64 (fun _ => zeros) [] = some fs →
      fs.allocFailures = 0 →
      Run Machine.next (fun m call => call.Ok m) (Machine.start fs) calls m →
      (∀ f inode, m.getFile pid fd = some f →
        m.fs.openInodes f.sector = some inode →
        WriteAllowed inode.data.length.toInt size.toInt32.toInt f.pos.toInt) →
      m.step (.write pid fd buffer size true) = some (eax, m') →
      m'.fs.allocFailures = m.fs.allocFailures → m.Executable s →
      contents m'.fs (m'.fs.inodeAt s) = contents m.fs (m.fs.inodeAt s) := by
  intro hclaim
  obtain ⟨fs, calls, m₀, s, t, h⟩ := two_running
  have hopen := open_opened h.second h.named h.closed false
    (iff_of_false Bool.false_ne_true (by decide : prog ≠ writer))
  have hrun := run_next h.run hopen trivial rfl
  obtain ⟨file, hformatted⟩ := filesysInit_inv h.format h.nofail
  have hinv := hrun.invariant (Machine.InOrder file)
    (fun h hok hstep => h.next hok hstep) (start_inOrder hformatted)
  generalize hm : Machine.addFile _ _ _ _ = m at hopen hrun hinv
  have hfs : m.fs = m₀.fs.setInode s (some (openedInode s (m₀.fs.inodeAt s))) := by
    rw [← hm]
    rfl
  have hopened : m.fs.openInodes s = some (openedInode s (m₀.fs.inodeAt s)) := by
    rw [hfs, FileSys.setInode_openInodes, Function.update_self]
  have hsame : m.fs.inodeAt s = m₀.fs.inodeAt s := by
    rw [hfs]
    rfl
  have hfile : m.getFile 3 2 = some ⟨s, 0, false⟩ := by
    rw [← hm, Machine.getFile, Machine.addFile, h.files]
    rfl
  have hrunning : m.Executable s := by
    refine ⟨2, ⟨prog, some s, 2⟩, ?_, rfl⟩
    rw [← hm]
    exact h.first
  have hmemory : m.fs.MemoryOk := by
    rw [hfs]
    exact h.memory
  have hne : s ≠ freeMapSector := (hinv.executables s hrunning).2
  have hblocks : (m₀.fs.inodeAt s).blocks = 1 := by
    rw [InodeDisk.blocks, h.length_eq]
    rfl
  rcases file.flushSpec.inodeWriteAtWith_spec hinv.files.ready hopened rfl rfl
      (hinv.files.openFile hne hopened) (fun _ => 1) true
      (by decide : 0 < (1 : Int32).toInt) (by decide : 0 ≤ (0 : Int32).toInt)
      (by decide) with
    ⟨written, mid, id', n, new, hwrite, -, -, hall, hlength, -, hdone⟩ | ⟨hfull, -⟩
  case inr =>
    refine hfull ⟨?_, hmemory⟩
    change _ ≤ sectorsFor (m₀.fs.inodeAt s).blocks + _
    rw [hblocks]
    exact Nat.le_add_right _ _
  have hstep : m.step (.write 3 2 (fun _ => 1) 1 true) = some (written,
      ({ m with fs := mid.setInode s (some { openedInode s (m₀.fs.inodeAt s) with
        data := id' }) } : State).setPos 3 2 (0 + written)) := by
    have hwrite' : inodeWriteAt s (fun _ => 1) (1 : UInt32).toInt32 0 true m.fs =
        some (written, _) := hwrite
    simp only [Machine.step, hfile, hwrite', Bool.false_eq_true, ↓reduceIte,
      Option.bind_eq_bind, Option.bind_some]
    rfl
  have hcontents := hclaim fs _ m _ 3 2 _ 1 _ s h.format h.nofail hrun
    (fun f inode hf hinode => ?_) hstep hdone.alloc.allocFailures hrunning
  · have hstored : mid.view s = id'.toBlock :=
      hdone.stored (hinv.files.view_eq hopened)
    have hid : mid.inodeAt s = id' := by
      rw [FileSys.inodeAt, hstored, InodeDisk.ofBlock_toBlock]
    have hlt : 0 < id'.length.toInt := by
      rw [hlength]
      exact lt_of_lt_of_le (by decide) (le_max_right _ _)
    have hbyte := congrArg (fun f : ByteFile => f.byte 0) hcontents
    change (contents mid (mid.inodeAt s)).byte 0 =
      (contents m.fs (m.fs.inodeAt s)).byte 0 at hbyte
    rw [hid, hsame] at hbyte
    have hold : (contents m.fs (m₀.fs.inodeAt s)).byte 0 = 0 := by
      have hzero : fileByte m.fs.view (m₀.fs.inodeAt s) 0 = 0 := by
        rw [hfs]
        exact h.zero
      change (if _ then fileByte m.fs.view (m₀.fs.inodeAt s) 0 else 0) = 0
      rw [hzero, ite_self]
    have hnew : (contents mid id').byte 0 = 1 := by
      have hpos : 0 < id'.blocks * blockSectorSize := by
        have hle := id'.length_le_blocks
        have hle' : (0 : Int) < id'.blocks * blockSectorSize := hlt.trans_le hle
        exact_mod_cast hle'
      have hwritten := hdone.bytes 0 hpos
      rw [hall rfl] at hwritten
      change (if 0 < id'.length.toInt.toNat then fileByte mid.view id' 0 else 0) = 1
      rw [if_pos (by omega), hwritten]
      rfl
    rw [hnew, hold] at hbyte
    exact absurd hbyte (by decide)
  · rw [hfile, Option.some.injEq] at hf
    rw [← hf] at hinode ⊢
    change WriteAllowed _ (1 : Int32).toInt (0 : Int32).toInt
    exact ⟨by decide, by decide, Or.inl (by decide)⟩

end ExecutablesWitness
end PintosLabs.Executables
