/-
The file descriptors of a process: `add_file`, `get_file` and `close_file`.
The table is a doubly linked list of pages, one for each open file.  Both
lookups copy the header of the list into a local variable, follow the pointers
of the copy, and compare them with the address of the copy's own tail.
-/
import PintosLabs.KernelList

namespace PintosLabs

namespace FileDescriptors

variable {F : Type}

/-- The list elements a process has to do with: the header elements of its
`file_list`, those of the local copy, and the element inside of each page. -/
inductive Elem
  | head
  | tail
  | localHead
  | localTail
  | page (n : Nat)
deriving Repr, DecidableEq

def fileList : ListHeader Elem := ⟨.head, .tail⟩

def localList : ListHeader Elem := ⟨.localHead, .localTail⟩

structure FileControlBlock (F : Type) where
  processFile : F
  fd : Int

/-- How pointers read as an `int`: kernel addresses lie in the upper part of
memory.  `before` is the word in front of a list header. -/
structure Layout where
  addr : Elem → Int
  kernel : ∀ e, addr e < 0
  before : Int

def Layout.word (w : Layout) : Option Elem → Int
  | none => 0
  | some e => w.addr e

/-- The fields of a process that belong to its files, and the memory behind
them.  `used` are the pages it has from the page allocator. -/
structure Process (F : Type) where
  links : ListLinks Elem
  block : Nat → FileControlBlock F
  used : Nat → Bool
  fd : Int
  fileNum : Int

/-- A new process, on whatever memory there is. -/
def Process.init (m : ListLinks Elem) (block : Nat → FileControlBlock F) :
    Process F where
  links := m.listInit fileList
  block := block
  used := fun _ => false
  fd := 2
  fileNum := 0

/-- `add_file`, with the page that the allocator hands out. -/
def Process.addFile (f : F) (page : Option Nat) (p : Process F) :
    Option (Int × Process F) :=
  match page with
  | none => some (-1, p)
  | some n => do
      let links ← p.links.listPushBack fileList (.page n)
      pure (p.fd, { p with
        links := links
        block := Function.update p.block n ⟨f, p.fd⟩
        used := Function.update p.used n true
        fd := Int.bmod (p.fd + 1) (2 ^ 32)
        fileNum := p.fileNum + 1 })

/-- `list_entry (e, struct file_control_block, file_elem)->fd`: the word in
front of the element.  In front of a tail stands the head's next pointer. -/
def entryFd (w : Layout) (m : ListLinks Elem)
    (block : Nat → FileControlBlock F) : Elem → Int
  | .page n => (block n).fd
  | .tail => w.word (m .head).next
  | .localTail => w.word (m .localHead).next
  | .head | .localHead => w.before

/-- `list_entry (e, struct file_control_block, file_elem)->process_file`:
there is a file only inside of a page. -/
def entryFile (block : Nat → FileControlBlock F) : Elem → Option F
  | .page n => some (block n).processFile
  | _ => none

/-- How a call ends. -/
inductive Reply (R : Type)
  | returns (r : R)
  | assertionFails

/-- The loop over the copied list that both lookups run. -/
def Process.search (w : Layout) (fuel : Nat) (fd : Int) (p : Process F) :
    Option (List Elem × ListLinks.ScanEnd Elem) := do
  let m := p.links.copyList localList fileList
  let first ← m.listBegin localList
  m.scan (fun e => fd = entryFd w m p.block e) (ListLinks.listEnd localList)
    fuel first

/-- `get_file`, with the elements it reads. -/
def Process.getFile (w : Layout) (fuel : Nat) (fd : Int) (p : Process F) :
    Option (List Elem × Reply (Option F)) :=
  if fd > p.fd ∨ fd < 0 then some ([], .returns none)
  else do
    let (reads, stop) ← p.search w fuel fd
    match stop with
    | .found e => pure (reads, .returns (entryFile p.block e))
    | .ended => pure (reads, .returns none)
    | .failed => pure (reads, .assertionFails)

/-- What `close_file` leaves: its result, the file it passes to `file_close`,
and the process. -/
structure Closing (F : Type) where
  result : Bool
  closed : Option F
  process : Process F

/-- `close_file`, with the elements it reads. -/
def Process.closeFile (w : Layout) (fuel : Nat) (fd : Int) (p : Process F) :
    Option (List Elem × Reply (Closing F)) :=
  if fd > p.fd ∨ fd < 0 then some ([], .returns ⟨false, none, p⟩)
  else if p.fileNum = 0 then some ([], .returns ⟨false, none, p⟩)
  else do
    let (reads, stop) ← p.search w fuel fd
    match stop with
    | .found (.page n) =>
        let links ← p.links.listRemove (.page n)
        pure (reads, .returns ⟨true, some (p.block n).processFile, { p with
          links := links
          used := Function.update p.used n false
          fileNum := p.fileNum - 1 }⟩)
    | .found _ => none
    | .ended => pure (reads, .returns ⟨false, none, p⟩)
    | .failed => pure (reads, .assertionFails)

/-! What the calls of a process are for. -/

/-- A call that has returned. -/
inductive Event (F : Type)
  | added (fd : Int) (f : F)
  | closed (fd : Int) (result : Bool)

/-- The descriptors handed out, the latest first. -/
def descriptors : List (Event F) → List Int
  | [] => []
  | .added fd _ :: log =>
      if fd = -1 then descriptors log else fd :: descriptors log
  | .closed _ _ :: log => descriptors log

/-- The files that are open after these calls, the latest call first. -/
def openFiles : List (Event F) → List (Int × F)
  | [] => []
  | .added fd f :: log =>
      if fd = -1 then openFiles log else openFiles log ++ [(fd, f)]
  | .closed fd result :: log =>
      if result then (openFiles log).filter (·.1 ≠ fd) else openFiles log

/-- The file of the not yet closed call that returned `fd`. -/
def openFile (log : List (Event F)) (fd : Int) : Option F :=
  (openFiles log).lookup fd

/-- The calls of a process up to now, the latest first.  The page allocator
never hands out a page twice, and the counter is not at its last value when a
file is added. -/
inductive Process.Run (w : Layout) : List (Event F) → Process F → Prop
  | init (m : ListLinks Elem) (block : Nat → FileControlBlock F) :
      Run w [] (.init m block)
  | addFile {log p p' f page fd} (hrun : Run w log p)
      (hpage : ∀ n, page = some n → p.used n = false)
      (hcount : p.fd < 2 ^ 31 - 1)
      (hstep : p.addFile f page = some (fd, p')) :
      Run w (.added fd f :: log) p'
  | closeFile {log p fuel fd reads c} (hrun : Run w log p)
      (hstep : p.closeFile w fuel fd = some (reads, .returns c)) :
      Run w (.closed fd c.result :: log) c.process

def Process.Owns (p : Process F) (e : Elem) : Prop :=
  ∃ n, e = .page n ∧ p.used n = true

/-- The process's list in memory has these entries, in this order. -/
def Process.Lists (p : Process F) (entries : List (Int × F)) : Prop :=
  ∃ pages : List Nat, p.links.Holds fileList (pages.map .page) ∧
    entries = pages.map fun n => ((p.block n).fd, (p.block n).processFile)

/-- What `get_file` is to do after these calls: give the file that `fd` stands
for, or none, and read nothing but entries of the process's own list. -/
def Process.GetsFile (w : Layout) (p : Process F) (log : List (Event F))
    (fd : Int) : Prop :=
  ∃ fuel reads,
    p.getFile w fuel fd = some (reads, .returns (openFile log fd)) ∧
    ∀ e ∈ reads, p.Owns e

/-- What `close_file` is to do: close the file that `fd` stands for and remove
its entry and no other, or return false and change nothing. -/
def Process.ClosesFile (w : Layout) (p : Process F) (log : List (Event F))
    (fd : Int) : Prop :=
  ∃ fuel reads c,
    p.closeFile w fuel fd = some (reads, .returns c) ∧
    (∀ e ∈ reads, p.Owns e) ∧
    c.result = (openFile log fd).isSome ∧ c.closed = openFile log fd ∧
    c.process.Lists ((openFiles log).filter (·.1 ≠ fd)) ∧
    (openFile log fd = none → c.process = p)

/-! The table that a process keeps, and the calls on it. -/

section Table

variable {w : Layout} {log : List (Event F)} {p p' : Process F} {fd d : Int}
  {f : F} {xs ys pages : List Nat} {n : Nat}

def Process.entry (p : Process F) (n : Nat) : Int × F :=
  ((p.block n).fd, (p.block n).processFile)

def elems (pages : List Nat) : List Elem := pages.map .page

/-- The list in memory holds the open files, in the order in which they were
opened, each in a page of its own. -/
structure Process.Table (p : Process F) (log : List (Event F))
    (pages : List Nat) : Prop where
  list : p.links.Holds fileList (elems pages)
  entries : pages.map p.entry = openFiles log
  used : ∀ n, p.used n = true ↔ n ∈ pages
  fileNum : p.fileNum = pages.length

/-- The descriptors handed out are those from 2 to the counter. -/
structure Process.Counts (p : Process F) (log : List (Event F)) : Prop where
  descriptors_eq : (descriptors log).reverse =
    (List.range (descriptors log).length).map fun k : Nat => (2 + k : Int)
  fd_eq : p.fd = 2 + (descriptors log).length
  sorted : ((openFiles log).map Prod.fst).Pairwise (· < ·)
  bounds : ∀ d ∈ (openFiles log).map Prod.fst, 2 ≤ d ∧ d < p.fd

/-- Looking a descriptor up in the list of open files is looking for the first
page that carries it. -/
theorem lookup_entries (pages : List Nat) :
    (pages.map p.entry).lookup fd =
      (pages.find? fun n => fd == (p.block n).fd).map
        fun n => (p.block n).processFile := by
  induction pages with
  | nil => rfl
  | cons n rest ih =>
      rw [List.map_cons, Process.entry, List.lookup_cons, List.find?_cons]
      cases fd == (p.block n).fd with
      | true => rfl
      | false => exact ih

theorem openFile_isSome_iff :
    (openFile log fd).isSome ↔ fd ∈ (openFiles log).map Prod.fst := by
  rw [openFile]
  induction openFiles log with
  | nil => simp
  | cons entry rest ih =>
      rw [List.lookup_cons, List.map_cons, List.mem_cons, ← ih]
      by_cases h : fd = entry.1
      · simp [h]
      · simp [beq_eq_false_iff_ne.mpr h, h]

/-- The page of an open file. -/
theorem Process.Table.exists_page (htable : p.Table log pages)
    (hopen : openFile log fd = some f) :
    ∃ xs n ys, pages = xs ++ n :: ys ∧ (p.block n).fd = fd ∧
      (p.block n).processFile = f ∧ ∀ k ∈ xs, (p.block k).fd ≠ fd := by
  rw [openFile, ← htable.entries, lookup_entries, Option.map_eq_some_iff] at hopen
  obtain ⟨n, hfind, hfile⟩ := hopen
  obtain ⟨hn, xs, ys, hpages, hbefore⟩ := List.find?_eq_some_iff_append.mp hfind
  refine ⟨xs, n, ys, hpages, (beq_iff_eq.mp hn).symm, hfile, fun k hk => ?_⟩
  have hne := hbefore k hk
  simp only [Bool.not_eq_eq_eq_not, Bool.not_true, beq_eq_false_iff_ne] at hne
  exact Ne.symm hne

theorem Process.Table.fd_ne (htable : p.Table log pages)
    (hclosed : ¬ (openFile log fd).isSome) (hn : n ∈ pages) :
    (p.block n).fd ≠ fd := by
  intro heq
  apply hclosed
  rw [openFile_isSome_iff, ← htable.entries, List.map_map, List.mem_map]
  exact ⟨n, hn, heq⟩

/-- Making the local copy does not touch the list. -/
theorem Process.Table.copied (htable : p.Table log pages) :
    (p.links.copyList localList fileList).Holds fileList (elems pages) :=
  htable.list.copyList (by simp [elems, fileList, localList])
    (by simp [elems, fileList, localList])

/-- The pointers of the copy lead into the list itself. -/
theorem Process.Table.listBegin_copy (htable : p.Table log pages) :
    (p.links.copyList localList fileList).listBegin localList =
      (elems pages ++ [Elem.tail]).head? := by
  rw [ListLinks.listBegin, ListLinks.copyList_head (by simp [localList])]
  exact htable.list.listBegin_eq

theorem Process.Table.search_eq (htable : p.Table log pages) {a : Elem}
    (hfirst : (elems pages ++ [Elem.tail]).head? = some a) {fuel : Nat} :
    p.search w fuel fd = (p.links.copyList localList fileList).scan
      (fun e => fd = entryFd w (p.links.copyList localList fileList) p.block e)
      .localTail fuel a := by
  simp only [Process.search, htable.listBegin_copy, hfirst]
  rfl

/-- The search for an open file reads the entries up to its own. -/
theorem Process.Table.search_found (htable : p.Table log (xs ++ n :: ys))
    (hn : (p.block n).fd = fd) (hbefore : ∀ k ∈ xs, (p.block k).fd ≠ fd) :
    p.search w ((elems xs).length + 1) fd =
      some (elems xs ++ [.page n], .found (.page n)) := by
  have hchain := htable.copied.isChain_listNext
  have hfull : elems (xs ++ n :: ys) ++ [Elem.tail] =
      elems xs ++ Elem.page n :: (elems ys ++ [Elem.tail]) := by
    simp [elems]
  obtain ⟨a, ha⟩ : ∃ a, (elems (xs ++ n :: ys) ++ [Elem.tail]).head? = some a := by
    cases h : elems (xs ++ n :: ys) <;> simp
  rw [htable.search_eq ha]
  change (elems (xs ++ n :: ys) ++ [Elem.tail]).IsChain _ at hchain
  rw [hfull] at hchain ha
  refine ListLinks.scan_found hchain ha (fun c hc => ?_) (fun c hc => ?_) ?_
  · rintro rfl
    simp [elems] at hc
  · obtain ⟨k, hk, rfl⟩ := List.mem_map.mp hc
    exact fun heq => hbefore k hk (of_decide_eq_true heq).symm
  · simp [entryFd, hn]

/-- The search for a descriptor that is not open runs on to the tail of the
process's own list, which is not the tail of the copy, reads there as if it
were an entry, and fails in `list_next`. -/
theorem Process.Table.search_failed (htable : p.Table log pages)
    (hfd : 0 ≤ fd) (hclosed : ¬ (openFile log fd).isSome) {fuel : Nat} :
    p.search w fuel fd = if fuel ≤ pages.length then none
      else some (elems pages ++ [.tail], .failed) := by
  have hchain := htable.copied.isChain_listNext
  obtain ⟨a, ha⟩ : ∃ a, (elems pages ++ [Elem.tail]).head? = some a := by
    cases h : elems pages <;> simp
  have hlength : pages.length = (elems pages).length := by simp [elems]
  rw [htable.search_eq ha, hlength]
  refine ListLinks.scan_past_end hchain
    (ListLinks.listNext_of_tail htable.copied.tail_next) ha
    (fun c hc => ?_) (fun c hc => ?_)
  · rintro rfl
    simp [elems] at hc
  · rcases List.mem_append.mp hc with hc | hc
    · obtain ⟨k, hk, rfl⟩ := List.mem_map.mp hc
      exact fun heq => htable.fd_ne hclosed hk (of_decide_eq_true heq).symm
    · obtain rfl := List.mem_singleton.mp hc
      -- the word in front of the tail is a pointer, and so negative
      have hhead : (p.links.copyList localList fileList Elem.head).next =
          some a := (htable.copied.listBegin_eq).trans ha
      have hneg := w.kernel a
      simp only [entryFd, hhead, Layout.word, decide_eq_true_eq]
      omega

theorem Process.search_unique {fuel fuel' : Nat}
    {r r' : List Elem × ListLinks.ScanEnd Elem}
    (h : p.search w fuel fd = some r) (h' : p.search w fuel' fd = some r') :
    r = r' := by
  simp only [Process.search, Option.bind_eq_bind,
    Option.bind_eq_some_iff] at h h'
  obtain ⟨a, ha, h⟩ := h
  obtain ⟨b, hb, h'⟩ := h'
  obtain rfl := Option.some.inj (ha.symm.trans hb)
  exact ListLinks.scan_unique h h'

theorem Process.Table.init (m : ListLinks Elem)
    (block : Nat → FileControlBlock F) :
    (Process.init m block).Table [] [] where
  list := by
    refine ⟨?_, ?_, ?_, ?_⟩ <;>
      simp [elems, fileList, Process.init, ListLinks.listInit, ListLinks.Linked]
  entries := rfl
  used := by simp [Process.init]
  fileNum := rfl

theorem Process.Counts.init (m : ListLinks Elem)
    (block : Nat → FileControlBlock F) : (Process.init m block).Counts [] where
  descriptors_eq := rfl
  fd_eq := rfl
  sorted := .nil
  bounds := by simp [openFiles]

/-- A new file is behind all the others, in a page that no other file has. -/
theorem Process.Table.addFile (htable : p.Table log pages) (hn : p.used n = false)
    (hfd : p.fd ≠ -1) (hstep : p.addFile f (some n) = some (fd, p')) :
    p'.Table (.added fd f :: log) (pages ++ [n]) := by
  have hnew : n ∉ pages := fun hmem => by
    rw [(htable.used n).mpr hmem] at hn
    cases hn
  obtain ⟨links, hpush, hlist⟩ := htable.list.pushBack
    (e := Elem.page n) (by simpa [elems, fileList] using hnew)
  simp only [Process.addFile, hpush, Option.bind_eq_bind, Option.bind_some,
    Option.pure_def, Option.some.injEq, Prod.mk.injEq] at hstep
  obtain ⟨rfl, rfl⟩ := hstep
  refine ⟨by simpa [elems] using hlist, ?_, fun k => ?_, ?_⟩
  · rw [openFiles, if_neg hfd, List.map_append, ← htable.entries]
    congr 1
    · refine List.map_congr_left fun k hk => ?_
      have hkn : k ≠ n := ne_of_mem_of_not_mem hk hnew
      simp [Process.entry, hkn]
    · simp [Process.entry]
  · by_cases hk : k = n
    · simp [hk]
    · simp [hk, htable.used k]
  · simp [htable.fileNum]

/-- The entry that is closed leaves the list, and its page is free again. -/
theorem Process.Table.closeFile (htable : p.Table log (xs ++ n :: ys))
    (hsorted : ((openFiles log).map Prod.fst).Pairwise (· < ·))
    {links : ListLinks Elem} (hlist : links.Holds fileList (elems (xs ++ ys))) :
    Process.Table { p with
      links := links
      used := Function.update p.used n false
      fileNum := p.fileNum - 1 } (.closed (p.block n).fd true :: log)
      (xs ++ ys) := by
  have hkeys : ((xs ++ n :: ys).map fun k => (p.block k).fd).Nodup := by
    rw [← htable.entries, List.map_map] at hsorted
    exact hsorted.imp fun hlt => Int.ne_of_lt hlt
  have hnodup : (n :: (xs ++ ys)).Nodup :=
    List.perm_middle.nodup_iff.mp hkeys.of_map
  have hother : ∀ k ∈ xs ++ ys, (p.block k).fd ≠ (p.block n).fd := by
    intro k hk heq
    have hmem : k ∈ xs ++ n :: ys := List.perm_middle.mem_iff.mpr
      (List.mem_cons_of_mem n hk)
    have hkn := List.inj_on_of_nodup_map hkeys hmem (by simp) heq
    exact (List.nodup_cons.mp hnodup).1 (hkn ▸ hk)
  refine ⟨hlist, ?_, fun k => ?_, ?_⟩
  · have hkeep : ∀ zs : List Nat, zs ⊆ xs ++ ys →
        (zs.map p.entry).filter (·.1 ≠ (p.block n).fd) = zs.map p.entry := by
      intro zs hzs
      refine List.filter_eq_self.mpr fun entry hentry => ?_
      obtain ⟨k, hk, rfl⟩ := List.mem_map.mp hentry
      exact decide_eq_true (hother k (hzs hk))
    have hself : ¬ decide ((p.entry n).1 ≠ (p.block n).fd) := by
      simp [Process.entry]
    rw [openFiles, if_pos rfl, ← htable.entries]
    change (xs ++ ys).map p.entry = _
    rw [List.map_append, List.map_append, List.map_cons, List.filter_append,
      List.filter_cons, if_neg hself, hkeep xs (by simp), hkeep ys (by simp)]
  · by_cases hk : k = n
    · subst hk
      simpa using (List.nodup_cons.mp hnodup).1
    · simp [hk, htable.used k]
  · have hlength := htable.fileNum
    simp only [List.length_append, List.length_cons] at hlength ⊢
    omega

theorem Process.Counts.closed (hcounts : p.Counts log) {b : Bool} {links used}
    {k : Int} : Process.Counts { p with
      links := links
      used := used
      fileNum := k } (.closed d b :: log) := by
  have hsub : (openFiles (.closed d b :: log)).Sublist (openFiles log) := by
    cases b
    · exact List.Sublist.refl _
    · exact List.filter_sublist
  exact ⟨hcounts.descriptors_eq, hcounts.fd_eq,
    hcounts.sorted.sublist (hsub.map _),
    fun d hd => hcounts.bounds d ((hsub.map _).subset hd)⟩

theorem Process.Counts.added (hcounts : p.Counts log)
    (hcount : p.fd < 2 ^ 31 - 1)
    (hstep : p.addFile f (some n) = some (fd, p')) :
    p'.Counts (.added fd f :: log) := by
  have hfd := hcounts.fd_eq
  have hnext : Int.bmod (p.fd + 1) (2 ^ 32) = p.fd + 1 :=
    Int.bmod_eq_of_le (by omega) (by omega)
  have hne : p.fd ≠ -1 := by omega
  simp only [Process.addFile, Option.bind_eq_bind, Option.bind_eq_some_iff,
    Option.pure_def, Option.some.injEq, Prod.mk.injEq] at hstep
  obtain ⟨links, -, rfl, rfl⟩ := hstep
  refine ⟨?_, ?_, ?_, ?_⟩
  · rw [descriptors, if_neg hne, List.reverse_cons, hcounts.descriptors_eq,
      List.length_cons, List.range_succ, List.map_append, hfd]
    rfl
  · rw [descriptors, if_neg hne, List.length_cons]
    simp only [hnext]
    omega
  · rw [openFiles, if_neg hne, List.map_append, List.pairwise_append]
    refine ⟨hcounts.sorted, by simp, fun d hd e he => ?_⟩
    obtain rfl : e = p.fd := by simpa using he
    exact (hcounts.bounds d hd).2
  · intro d hd
    rw [openFiles, if_neg hne, List.map_append, List.mem_append] at hd
    simp only [hnext]
    rcases hd with hd | hd
    · have hbounds := hcounts.bounds d hd
      omega
    · obtain rfl : d = p.fd := by simpa using hd
      omega

theorem Process.Table.lists (htable : p.Table log pages) :
    p.Lists (openFiles log) :=
  ⟨pages, htable.list, htable.entries.symm⟩

theorem Process.Table.owns (htable : p.Table log (xs ++ n :: ys)) :
    ∀ e ∈ elems xs ++ [.page n], p.Owns e := by
  intro e he
  rcases List.mem_append.mp he with he | he
  · obtain ⟨k, hk, rfl⟩ := List.mem_map.mp he
    exact ⟨k, rfl, (htable.used k).mpr (List.mem_append_left _ hk)⟩
  · exact ⟨n, List.mem_singleton.mp he, (htable.used n).mpr (by simp)⟩

/-- No descriptor outside of the range that the lookups check is open. -/
theorem Process.Counts.openFile_none (hcounts : p.Counts log)
    (hrange : fd > p.fd ∨ fd < 0) : openFile log fd = none := by
  rw [← Option.not_isSome_iff_eq_none, openFile_isSome_iff]
  intro hmem
  have hbounds := hcounts.bounds fd hmem
  omega

theorem Process.Table.openFiles_nil (htable : p.Table log pages)
    (hzero : p.fileNum = 0) : openFiles log = [] := by
  have hlength := htable.fileNum
  have hpages : pages = [] := List.eq_nil_of_length_eq_zero (by omega)
  rw [← htable.entries, hpages]
  rfl

theorem Process.Table.fileNum_eq_zero (htable : p.Table log pages)
    (hnil : openFiles log = []) : p.fileNum = 0 := by
  rw [← htable.entries, List.map_eq_nil_iff] at hnil
  rw [htable.fileNum, hnil]
  rfl

/-- What is closed when `close_file` finds its entry. -/
theorem Process.Table.closeFile_open (htable : p.Table log pages)
    (hcounts : p.Counts log) (hopen : openFile log fd = some f) :
    ∃ fuel reads c pages', p.closeFile w fuel fd = some (reads, .returns c) ∧
      (∀ e ∈ reads, p.Owns e) ∧ c.result = true ∧ c.closed = some f ∧
      c.process.Table (.closed fd true :: log) pages' ∧
      c.process.Counts (.closed fd true :: log) := by
  obtain ⟨xs, n, ys, rfl, rfl, rfl, hbefore⟩ := htable.exists_page hopen
  have hrange : ¬ ((p.block n).fd > p.fd ∨ (p.block n).fd < 0) := fun h => by
    simp [hcounts.openFile_none h] at hopen
  have hzero : p.fileNum ≠ 0 := fun h => by
    rw [openFile, htable.openFiles_nil h] at hopen
    simp at hopen
  have hlist := htable.list
  rw [elems, List.map_append, List.map_cons] at hlist
  obtain ⟨links, hremove, hlist⟩ := hlist.remove
  refine ⟨(elems xs).length + 1, elems xs ++ [.page n], ⟨true,
    some (p.block n).processFile, { p with
      links := links
      used := Function.update p.used n false
      fileNum := p.fileNum - 1 }⟩, xs ++ ys, ?_, htable.owns, rfl, rfl,
    htable.closeFile hcounts.sorted (by rwa [elems, List.map_append]),
    hcounts.closed⟩
  rw [Process.closeFile, if_neg hrange, if_neg hzero,
    htable.search_found rfl hbefore]
  simp only [Option.bind_eq_bind, Option.bind_some, hremove]
  rfl

/-- What `close_file` returns is the same for every bound on its loop. -/
theorem Process.closeFile_unique {fuel fuel' : Nat}
    {r r' : List Elem × Reply (Closing F)}
    (h : p.closeFile w fuel fd = some r)
    (h' : p.closeFile w fuel' fd = some r') : r = r' := by
  unfold Process.closeFile at h h'
  split_ifs at h h' with hrange hzero
  · exact Option.some.inj (h.symm.trans h')
  · exact Option.some.inj (h.symm.trans h')
  · obtain ⟨found, hsearch, h⟩ := Option.bind_eq_some_iff.mp h
    obtain ⟨found', hsearch', h'⟩ := Option.bind_eq_some_iff.mp h'
    obtain rfl := Process.search_unique hsearch hsearch'
    exact Option.some.inj (h.symm.trans h')

/-- A call of `close_file` that returns for a descriptor that is not open has
not searched. -/
theorem Process.Table.closeFile_closed (htable : p.Table log pages)
    (hclosed : openFile log fd = none) {fuel : Nat} {reads : List Elem}
    {c : Closing F}
    (h : p.closeFile w fuel fd = some (reads, .returns c)) :
    reads = [] ∧ c = ⟨false, none, p⟩ ∧
      (fd > p.fd ∨ fd < 0 ∨ p.fileNum = 0) := by
  unfold Process.closeFile at h
  split_ifs at h with hrange hzero
  · obtain ⟨rfl, ⟨⟩⟩ := Prod.mk.inj (Option.some.inj h)
    exact ⟨rfl, rfl, by tauto⟩
  · obtain ⟨rfl, ⟨⟩⟩ := Prod.mk.inj (Option.some.inj h)
    exact ⟨rfl, rfl, by tauto⟩
  · obtain ⟨found, hsearch, h⟩ := Option.bind_eq_some_iff.mp h
    rw [htable.search_failed (by omega) (by simp [hclosed])] at hsearch
    split_ifs at hsearch
    obtain rfl := Option.some.inj hsearch
    cases h

end Table

/-- After every run the list in memory is the table of the open files. -/
theorem Process.Run.table {w : Layout} {log : List (Event F)} {p : Process F}
    (hrun : Process.Run w log p) :
    (∃ pages, p.Table log pages) ∧ p.Counts log := by
  induction hrun with
  | init m block => exact ⟨⟨[], .init m block⟩, .init m block⟩
  | @addFile log p p' f page fd hrun hpage hcount hstep ih =>
      obtain ⟨⟨pages, htable⟩, hcounts⟩ := ih
      have hne : p.fd ≠ -1 := by
        have hfd := hcounts.fd_eq
        omega
      cases page with
      | none =>
          obtain ⟨rfl, rfl⟩ := Prod.mk.inj (Option.some.inj hstep)
          exact ⟨⟨pages, htable.list, htable.entries, htable.used,
            htable.fileNum⟩, hcounts.descriptors_eq, hcounts.fd_eq,
            hcounts.sorted, hcounts.bounds⟩
      | some n =>
          exact ⟨⟨pages ++ [n], htable.addFile (hpage n rfl) hne hstep⟩,
            hcounts.added hcount hstep⟩
  | @closeFile log p fuel fd reads c hrun hstep ih =>
      obtain ⟨⟨pages, htable⟩, hcounts⟩ := ih
      cases hopen : openFile log fd with
      | none =>
          obtain ⟨-, rfl, -⟩ := htable.closeFile_closed hopen hstep
          exact ⟨⟨pages, htable.list, htable.entries, htable.used,
            htable.fileNum⟩, hcounts.closed⟩
      | some f =>
          obtain ⟨fuel', reads', c', pages', hstep', -, hresult, -, htable',
            hcounts'⟩ := htable.closeFile_open (w := w) hcounts hopen
          have heq := Process.closeFile_unique hstep hstep'
          obtain ⟨rfl, ⟨⟩⟩ := Prod.mk.inj heq
          rw [hresult]
          exact ⟨⟨pages', htable'⟩, hcounts'⟩

section

variable {w : Layout} {log : List (Event F)} {p : Process F} {fd : Int}
  {pages : List Nat}

/-- `get_file` does what it is for exactly on the descriptors that are out of
range and on those that are open. -/
theorem Process.Table.getsFile_iff (htable : p.Table log pages)
    (hcounts : p.Counts log) : p.GetsFile w log fd ↔
      fd < 0 ∨ p.fd < fd ∨ (openFile log fd).isSome := by
  constructor
  · rintro ⟨fuel, reads, hget, -⟩
    by_contra hout
    simp only [not_or] at hout
    rw [Process.getFile, if_neg (by omega),
      htable.search_failed (by omega) hout.2.2] at hget
    split_ifs at hget <;> simp at hget
  · intro h
    by_cases hrange : fd > p.fd ∨ fd < 0
    · refine ⟨0, [], ?_, by simp⟩
      rw [Process.getFile, if_pos hrange, hcounts.openFile_none hrange]
    · obtain ⟨f, hopen⟩ : ∃ f, openFile log fd = some f :=
        Option.isSome_iff_exists.mp (by tauto)
      obtain ⟨xs, n, ys, rfl, rfl, rfl, hbefore⟩ := htable.exists_page hopen
      refine ⟨(elems xs).length + 1, elems xs ++ [.page n], ?_, htable.owns⟩
      rw [Process.getFile, if_neg hrange, htable.search_found rfl hbefore, hopen]
      rfl

/-- `close_file` does what it is for on these descriptors, and on all of them
when no file is open. -/
theorem Process.Table.closesFile_iff (htable : p.Table log pages)
    (hcounts : p.Counts log) : p.ClosesFile w log fd ↔
      fd < 0 ∨ p.fd < fd ∨ (openFile log fd).isSome ∨ openFiles log = [] := by
  cases hopen : openFile log fd with
  | some f =>
      obtain ⟨fuel, reads, c, pages', hclose, howns, hresult, hclosed, htable',
        -⟩ := htable.closeFile_open (w := w) hcounts hopen
      refine ⟨fun _ => by simp, fun _ => ⟨fuel, reads, c, hclose, howns, ?_, ?_,
        htable'.lists, by simp [hopen]⟩⟩
      · rw [hresult, hopen]
        rfl
      · rw [hclosed, hopen]
  | none =>
      constructor
      · rintro ⟨fuel, reads, c, hclose, -⟩
        obtain ⟨-, -, hout⟩ := htable.closeFile_closed hopen hclose
        rcases hout with hout | hout | hout
        · exact .inr (.inl hout)
        · exact .inl hout
        · exact .inr (.inr (.inr (htable.openFiles_nil hout)))
      · intro h
        have hlists : p.Lists ((openFiles log).filter (·.1 ≠ fd)) := by
          have hkeep : (openFiles log).filter (·.1 ≠ fd) = openFiles log := by
            refine List.filter_eq_self.mpr fun entry hentry => ?_
            have hnot : fd ∉ (openFiles log).map Prod.fst := by
              rw [← openFile_isSome_iff, hopen]
              simp
            exact decide_eq_true fun heq =>
              hnot (heq ▸ List.mem_map_of_mem hentry)
          rw [hkeep]
          exact htable.lists
        refine ⟨0, [], ⟨false, none, p⟩, ?_, by simp, by simp [hopen],
          by simp [hopen], hlists, fun _ => rfl⟩
        by_cases hrange : fd > p.fd ∨ fd < 0
        · rw [Process.closeFile, if_pos hrange]
        · have hnil : openFiles log = [] := by
            simp only [Option.isSome_none, Bool.false_eq_true, false_or] at h
            tauto
          rw [Process.closeFile, if_neg hrange,
            if_pos (htable.fileNum_eq_zero hnil)]

/-- The descriptors handed out are those from 2 on, each one once, and the list
in memory holds the open files.  The lookups are right about every descriptor
that they find or turn down without a search, and about no other. -/
theorem file_descriptor_table (hrun : Process.Run w log p) :
    (descriptors log).reverse =
        (List.range (descriptors log).length).map (fun k : Nat => (2 + k : Int)) ∧
      p.Lists (openFiles log) ∧
      ∀ fd : Int,
        (p.GetsFile w log fd ↔
          fd < 0 ∨ p.fd < fd ∨ (openFile log fd).isSome) ∧
        (p.ClosesFile w log fd ↔
          fd < 0 ∨ p.fd < fd ∨ (openFile log fd).isSome ∨
            openFiles log = []) := by
  obtain ⟨⟨pages, htable⟩, hcounts⟩ := hrun.table
  exact ⟨hcounts.descriptors_eq, htable.lists, fun fd =>
    ⟨htable.getsFile_iff hcounts, htable.closesFile_iff hcounts⟩⟩

end

namespace FileDescriptorWitness

def layout : Layout := ⟨fun _ => -1, by simp, 0⟩

def start : Process Nat := .init (fun _ => ⟨none, none⟩) fun _ => ⟨0, 0⟩

/-- Two files are opened, and the first of them is closed. -/
def log : List (Event Nat) := [.closed 2 true, .added 3 8, .added 2 7]

theorem exists_run : ∃ p, Process.Run layout log p := by
  have hstart : Process.Run layout [] start := .init _ _
  have hfirst := hstart.addFile
    (by simp [start, Process.init] : ∀ n, some 0 = some n → start.used n = false)
    (by decide) (rfl : start.addFile 7 (some 0) = some (2, _))
  have hsecond := hfirst.addFile
    (by simp [start, Process.init] : ∀ n, some 1 = some n → _ = false)
    (by decide) (rfl : Process.addFile 8 (some 1) _ = some (3, _))
  exact ⟨_, hsecond.closeFile (rfl : Process.closeFile layout 5 2 _ = _)⟩

/-- Closing the first file again, and looking it up, fails an assertion. -/
theorem closed_file_not_looked_up : ∃ p, Process.Run layout log p ∧
    ¬ p.GetsFile layout log 2 ∧ ¬ p.ClosesFile layout log 2 := by
  obtain ⟨p, hrun⟩ := exists_run
  obtain ⟨⟨pages, htable⟩, hcounts⟩ := hrun.table
  have hfd : p.fd = 4 := hcounts.fd_eq
  have hopen : openFile log 2 = none := by decide
  have hopenFiles : openFiles log ≠ [] := by decide
  refine ⟨p, hrun, ?_, ?_⟩
  · rw [htable.getsFile_iff hcounts, hopen, hfd]
    simp
  · rw [htable.closesFile_iff hcounts, hopen, hfd]
    simp [hopenFiles]

theorem file_descriptor_table_second : ∃ p, Process.Run layout log p ∧
    p.GetsFile layout log 3 := by
  obtain ⟨p, hrun⟩ := exists_run
  exact ⟨p, hrun, ((file_descriptor_table hrun).2.2 3).1.mpr
    (.inr (.inr (by decide)))⟩

end FileDescriptorWitness

end FileDescriptors

end PintosLabs
