/-
`process_execute` and `start_process` (userprog/process.c): the two pages, the
name that `strtok_r` cuts out of one of them, and the semaphore on which the
parent waits for the load.  What `palloc_get_page`, `thread_create`, `load` and
`malloc` come to is given.
-/
import PintosLabs.ArgumentPassing
import PintosLabs.Machine

namespace PintosLabs

namespace ProcessExecute

open Exec

/-- `TID_ERROR` -/
def tidError : Int := -1

/-- A page of the kernel pool. -/
structure Page where
  address : Nat
  contents : Bytes
  aligned : address % pgsize = 0
  ne_null : address ≠ 0
  length_eq : contents.length = pgsize

/-- What the functions come to that `process_execute` and the child call. -/
structure Outcome where
  fnCopy : Option Page
  nameTmp : Option Page
  /-- `palloc_get_page` does not give out a page that is in use. -/
  distinct : ∀ p ∈ fnCopy, ∀ q ∈ nameTmp, p.address ≠ q.address
  /-- The thread of `thread_create`. -/
  thread : Option Nat
  /-- `load` succeeds. -/
  loads : Bool
  /-- There is memory for a `struct child_process`. -/
  memory : Bool

inductive ParentPc where
  | getFnCopy
  | getNameTmp
  | tokenise
  | create
  /-- Before or in `sema_down (&cur->exec_sema)`. -/
  | down
  | freeNameTmp
  | freeFnCopy
  | status
  | record
  | returned (tid : Int)
  /-- An assertion has failed. -/
  | panicked
deriving DecidableEq

inductive ChildPc where
  /-- There is no child. -/
  | absent
  | load
  /-- Before the assignment of `p->child_status`. -/
  | report (success : Bool)
  | freeFnCopy (success : Bool)
  /-- Before `sema_up (&p->exec_sema)`. -/
  | up (success : Bool)
  | running
  | exited
  | panicked
deriving DecidableEq

structure State where
  parent : ParentPc
  child : ChildPc
  fnCopy : Nat
  nameTmp : Nat
  /-- What stands in the page of `name_tmp`. -/
  name : Bytes
  tid : Int
  execSema : Nat
  childStatus : Int
  children : List Int
  /-- The pages that `process_execute` has and that are in use. -/
  inUse : List Nat
  obtained : List Nat
  freed : List Nat
deriving DecidableEq

/-- The call of `process_execute`. -/
def start : State where
  parent := .getFnCopy
  child := .absent
  fnCopy := 0
  nameTmp := 0
  name := []
  tid := 0
  execSema := 0
  childStatus := 0
  children := []
  inUse := []
  obtained := []
  freed := []

namespace State

/-- `palloc_free_page (page)`, where its assertions hold. -/
def pallocFreePage (s : State) (page : Nat) : Option State :=
  if page % pgsize ≠ 0 then none
  else if page = 0 then some s
  else if page ∈ s.inUse then
    some { s with inUse := s.inUse.erase page, freed := s.freed ++ [page] }
  else none

/-- `page` becomes a page of `process_execute`. -/
def obtain (s : State) (page : Page) : State :=
  { s with
    inUse := page.address :: s.inUse
    obtained := s.obtained ++ [page.address] }

def parentFree (s : State) (page : Nat) (next : ParentPc) : State :=
  match s.pallocFreePage page with
  | none => { s with parent := .panicked }
  | some s => { s with parent := next }

/-- A step of `process_execute`. -/
def parentStep (command : CString) (o : Outcome) (s : State) : Option State :=
  match s.parent with
  | .getFnCopy =>
      match o.fnCopy with
      | none => some { s with parent := .returned tidError }
      | some page =>
          match strlcpy page.contents 0 command pgsize with
          | none => some { s with parent := .panicked }
          | some _ =>
              some { s.obtain page with fnCopy := page.address, parent := .getNameTmp }
  | .getNameTmp =>
      match o.nameTmp with
      | none => some { s with parent := .returned tidError }
      | some page =>
          match strlcpy page.contents 0 command pgsize with
          | none => some { s with parent := .panicked }
          | some name =>
              some { s.obtain page with
                nameTmp := page.address
                name := name
                parent := .tokenise }
  | .tokenise =>
      match strtokR s.name 0 with
      | none => some { s with parent := .panicked }
      | some (name, none, _) =>
          some ({ s with nameTmp := 0, name := name }.parentFree 0 (.returned tidError))
      | some (name, some token, _) =>
          some { s with
            nameTmp := s.nameTmp + token
            name := name
            childStatus := 0
            parent := .create }
  | .create =>
      match o.thread with
      | none => some { s with tid := tidError, parent := .down }
      | some tid => some { s with tid := tid, child := .load, parent := .down }
  | .down =>
      if s.execSema = 0 then none
      else some { s with execSema := s.execSema - 1, parent := .freeNameTmp }
  | .freeNameTmp => some (s.parentFree s.nameTmp .freeFnCopy)
  | .freeFnCopy =>
      if s.tid = tidError then some (s.parentFree s.fnCopy .status)
      else some { s with parent := .status }
  | .status =>
      if s.childStatus = -1 then some { s with tid := tidError, parent := .record }
      else some { s with parent := .record }
  | .record =>
      if s.tid = tidError then some { s with parent := .returned s.tid }
      else if o.memory then
        some { s with children := s.children ++ [s.tid], parent := .returned s.tid }
      else some { s with parent := .returned tidError }
  | .returned _ | .panicked => none

/-- A step of the child in `start_process`. -/
def childStep (o : Outcome) (s : State) : Option State :=
  match s.child with
  | .load => some { s with child := .report o.loads }
  | .report success =>
      some { s with
        childStatus := if success then 1 else -1
        child := .freeFnCopy success }
  | .freeFnCopy success =>
      match s.pallocFreePage s.fnCopy with
      | none => some { s with child := .panicked }
      | some s => some { s with child := .up success }
  | .up success =>
      some { s with
        execSema := s.execSema + 1
        child := if success then .running else .exited }
  | .absent | .running | .exited | .panicked => none

end State

inductive Actor where
  | parent
  | child
deriving DecidableEq

/-- A step of one of the two; after a failed assertion there is none. -/
def step (command : CString) (o : Outcome) (s : State) (actor : Actor) : Option State :=
  if s.parent = .panicked ∨ s.child = .panicked then none
  else
    match actor with
    | .parent => s.parentStep command o
    | .child => s.childStep o

abbrev Reaches (command : CString) (o : Outcome) (actors : List Actor) (s : State) : Prop :=
  Run (step command o) (fun _ _ => True) start actors s

/-- `process_execute` has returned, what it should; each page that it got has
been freed once. -/
structure Ends (o : Outcome) (s : State) : Prop where
  returned : ∃ r, s.parent = .returned r ∧
    (s.child = .running → ∃ tid : Nat, o.thread = some tid ∧ r = tid) ∧
      (s.child ≠ .running → r = tidError)
  calm : s.child ≠ .panicked
  freed : s.freed.Perm s.obtained

/-- `process_execute` always returns, and it balances its pages. -/
structure Correct (command : CString) (o : Outcome) : Prop where
  bounded : ∃ n, ∀ actors s, Reaches command o actors s → actors.length ≤ n
  calm : ∀ actors s, Reaches command o actors s →
    s.parent ≠ .panicked ∧ s.child ≠ .panicked
  /-- Where neither of the two can go on, the call is over. -/
  ends : ∀ actors s, Reaches command o actors s →
    (∀ actor, step command o s actor = none) → Ends o s
  /-- What it returns while the child may still go on. -/
  returned : ∀ actors s r, Reaches command o actors s → s.parent = .returned r → Ends o s

def ParentPc.isInside : ParentPc → Bool
  | returned _ | panicked => false
  | _ => true

def ChildPc.isCalm : ChildPc → Bool
  | panicked => false
  | _ => true

/-- The call goes on. -/
structure State.GoesOn (s : State) : Prop where
  inside : s.parent.isInside
  calm : s.child.isCalm

theorem State.GoesOn.not_panicked {s : State} (h : s.GoesOn) :
    ¬ (s.parent = .panicked ∨ s.child = .panicked) := by
  rintro (hparent | hchild)
  · exact absurd (hparent ▸ h.inside) (by decide)
  · exact absurd (hchild ▸ h.calm) (by decide)

variable {command : CString} {o : Outcome} {s s' t : State} {n : Nat}

theorem correct_iff_ends (h : Forced (step command o) State.GoesOn start n t) :
    Correct command o ↔ Ends o t := by
  constructor
  · intro hcorrect
    obtain ⟨actors, hrun⟩ := h.run
    exact hcorrect.ends actors t hrun h.stuck
  · intro hends
    have hcases : ∀ {actors s}, Reaches command o actors s →
        s = t ∨ s.GoesOn ∧ ∃ actor, step command o s actor ≠ none := by
      intro actors s hrun
      obtain ⟨m, -, hforced⟩ := h.of_run hrun
      exact hforced.end_or_go
    obtain ⟨r, hreturned, -⟩ := hends.returned
    refine ⟨⟨n, fun actors s hrun => ?_⟩, fun actors s hrun => ?_,
      fun actors s hrun hstuck => ?_, fun actors s r hrun hparent => ?_⟩
    · obtain ⟨m, hlength, -⟩ := h.of_run hrun
      omega
    · rcases hcases hrun with rfl | ⟨hgoes, -⟩
      · exact ⟨fun hpanic => (by cases hreturned.symm.trans hpanic), hends.calm⟩
      · exact not_or.mp hgoes.not_panicked
    · rcases hcases hrun with rfl | ⟨-, actor, hgoes⟩
      · exact hends
      · exact absurd (hstuck actor) hgoes
    · rcases hcases hrun with rfl | ⟨hgoes, -⟩
      · exact hends
      · cases (hparent ▸ hgoes.inside : (ParentPc.returned r).isInside = true)

/-- The parent alone can go on. -/
theorem Forced.parent (hgoes : s.GoesOn) (htaken : s.parentStep command o = some s')
    (honly : s.childStep o = none) (hrest : Forced (step command o) State.GoesOn s' n t) :
    Forced (step command o) State.GoesOn s (n + 1) t := by
  have hcalm := hgoes.not_panicked
  refine .go .parent hgoes ((if_neg hcalm).trans htaken) (fun other hother => ?_) hrest
  cases other with
  | parent => exact absurd rfl hother
  | child => exact (if_neg hcalm).trans honly

/-- The child alone can go on. -/
theorem Forced.child (hgoes : s.GoesOn) (htaken : s.childStep o = some s')
    (honly : s.parentStep command o = none)
    (hrest : Forced (step command o) State.GoesOn s' n t) :
    Forced (step command o) State.GoesOn s (n + 1) t := by
  have hcalm := hgoes.not_panicked
  refine .go .child hgoes ((if_neg hcalm).trans htaken) (fun other hother => ?_) hrest
  cases other with
  | parent => exact (if_neg hcalm).trans honly
  | child => exact absurd rfl hother

/-! The name in the second page. -/

/-- The string that `strlcpy` makes of the command. -/
def copied (command : CString) : CString :=
  ⟨command.bytes.take (pgsize - 1), fun hmem => command.noNul (List.mem_of_mem_take hmem)⟩

/-- The command has a first character, which is not a space. -/
def StartsWithWord (command : CString) : Prop :=
  ∃ byte, command.bytes.head? = some byte ∧ byte ≠ space

theorem startsWithWord_copied : StartsWithWord (copied command) ↔ StartsWithWord command := by
  have hhead : (copied command).bytes.head? = command.bytes.head? := by
    rw [copied, List.head?_take, if_neg (by decide)]
  rw [StartsWithWord, hhead, StartsWithWord]

theorem strlcpy_copied (page : Page) : ∃ after,
    strlcpy page.contents 0 command pgsize = some ((copied command).bytes ++ 0 :: after) := by
  have hlength : (copied command).length ≤ pgsize - 1 := List.length_take_le _ _
  obtain ⟨after, hcopy⟩ := strlcpy_page page.length_eq hlength
  have hsame : strlcpy page.contents 0 command pgsize =
      strlcpy page.contents 0 (copied command) pgsize := by
    rw [strlcpy, strlcpy, copied, List.take_take, Nat.min_self]
  refine ⟨after, ?_⟩
  rw [hsame, hcopy, CString.stored, List.append_assoc]
  rfl

/-- Where `strtok_r` finds the name. -/
inductive Token (command : CString) (name : Bytes) : Prop
  | none {name' : Bytes} {save : Nat} (found : strtokR name 0 = some (name', none, save))
      (spaces : ¬ StartsWithWord command)
  | some {name' : Bytes} {token save : Nat}
      (found : strtokR name 0 = some (name', some token, save)) (lt : token < pgsize)
      (front : token = 0 ↔ StartsWithWord command)

theorem not_startsWithWord {spaces tail : Bytes} (hspaces : ∀ byte ∈ spaces, byte = space)
    (hline : (copied command).bytes = spaces ++ tail) (hne : spaces ≠ []) :
    ¬ StartsWithWord command := by
  rw [← startsWithWord_copied]
  rintro ⟨byte, hbyte, hword⟩
  obtain ⟨first, others, rfl⟩ := List.exists_cons_of_ne_nil hne
  rw [hline] at hbyte
  obtain rfl := Option.some.inj hbyte
  exact hword (hspaces first List.mem_cons_self)

theorem token_run {spaces run rest : Bytes} {byte : UInt8} {name : Bytes}
    (hspaces : ∀ b ∈ spaces, b = space) (hrun : space ∉ run) (hne : run ≠ [])
    (hbyte : byte = space ∨ byte = 0)
    (hline : ∃ tail, (copied command).bytes = spaces ++ (run ++ tail))
    (hname : name = spaces ++ (run ++ byte :: rest)) : Token command name := by
  obtain ⟨tail, hline⟩ := hline
  have hnul : (0 : UInt8) ∉ run := fun hmem =>
    (copied command).noNul (by rw [hline]; simp [hmem])
  have hfound := @strtokR_run [] spaces run rest byte hspaces hrun hnul hne hbyte
  rw [List.nil_append, ← hname, List.length_nil, Nat.zero_add] at hfound
  refine .some hfound ?_ ?_
  · have hlength : (copied command).bytes.length ≤ pgsize - 1 := List.length_take_le _ _
    rw [hline, List.length_append] at hlength
    have hpos : 0 < pgsize := by decide
    omega
  · rw [List.length_eq_zero_iff]
    constructor
    · rintro rfl
      rw [← startsWithWord_copied, StartsWithWord, hline]
      obtain ⟨first, others, rfl⟩ := List.exists_cons_of_ne_nil hne
      exact ⟨first, rfl, fun heq => hrun (heq ▸ List.mem_cons_self)⟩
    · intro hword
      by_contra hspace
      exact not_startsWithWord hspaces hline hspace hword

theorem token_of_copied (command : CString) (after : Bytes) :
    Token command ((copied command).bytes ++ 0 :: after) := by
  obtain ⟨spaces, tail, hline, hspaces, rfl | ⟨run, hrun, hne, -, rfl | ⟨rest, rfl⟩⟩⟩ :=
    words_cases (copied command).bytes
  · have hfound := @strtokR_spaces [] after spaces hspaces
    rw [List.append_nil] at hline
    rw [List.nil_append, ← hline] at hfound
    refine .none hfound ?_
    cases hempty : spaces with
    | nil =>
        rw [← startsWithWord_copied, StartsWithWord, hline, hempty]
        rintro ⟨byte, hbyte, -⟩
        cases hbyte
    | cons first others =>
        refine not_startsWithWord hspaces (hline.trans (List.append_nil _).symm) ?_
        rw [hempty]
        exact List.cons_ne_nil _ _
  · have hname : (copied command).bytes ++ 0 :: after = spaces ++ (tail ++ 0 :: after) := by
      rw [hline, List.append_assoc]
    exact token_run hspaces hrun hne (Or.inr rfl) ⟨[], by rw [hline, List.append_nil]⟩ hname
  · have hname : (copied command).bytes ++ 0 :: after =
        spaces ++ (run ++ space :: (rest ++ 0 :: after)) := by
      rw [hline, List.append_assoc, List.append_assoc]
      rfl
    exact token_run hspaces hrun hne (Or.inl rfl) ⟨_, hline⟩ hname

/-! The ways through the two functions. -/

/-- There is no first page; or both pages are there, the command starts with a
word, the thread is created, and there is memory for the record unless the load
fails. -/
def Orderly (command : CString) (o : Outcome) : Prop :=
  o.fnCopy = none ∨ o.fnCopy ≠ none ∧ o.nameTmp ≠ none ∧ StartsWithWord command ∧
    o.thread ≠ none ∧ (o.loads = true → o.memory = true)

section Ways

variable {p q : Page} {name : Bytes} {after : Bytes}

/-- Behind the first `palloc_get_page`. -/
def onePage (p : Page) : State :=
  { start.obtain p with fnCopy := p.address, parent := .getNameTmp }

/-- Behind the second one. -/
def twoPages (p q : Page) (name : Bytes) : State :=
  { (onePage p).obtain q with nameTmp := q.address, name := name, parent := .tokenise }

theorem forced_onePage (hfnCopy : o.fnCopy = some p)
    (hrest : Forced (step command o) State.GoesOn (onePage p) n t) :
    Forced (step command o) State.GoesOn start (n + 1) t := by
  obtain ⟨after, hcopy⟩ := @strlcpy_copied command p
  refine Forced.parent ⟨rfl, rfl⟩ ?_ rfl hrest
  rw [State.parentStep]
  simp only [start, hfnCopy, hcopy]
  rfl

theorem forced_twoPages (hfnCopy : o.fnCopy = some p) (hnameTmp : o.nameTmp = some q)
    (hcopy : strlcpy q.contents 0 command pgsize = some name)
    (hrest : Forced (step command o) State.GoesOn (twoPages p q name) n t) :
    Forced (step command o) State.GoesOn start (n + 2) t := by
  refine forced_onePage hfnCopy ?_
  refine Forced.parent ⟨rfl, rfl⟩ ?_ rfl hrest
  simp only [State.parentStep, onePage, hnameTmp, hcopy]
  rfl

/-- Behind `strtok_r`, which found the name at `token`. -/
def named (p q : Page) (name : Bytes) (token : Nat) : State :=
  { twoPages p q name with nameTmp := q.address + token, parent := .create }

/-- The child has loaded its program or failed to, and has waked the parent. -/
def woken (p q : Page) (name : Bytes) (token tid : Nat) (loads : Bool) : State :=
  { named p q name token with
    parent := .down
    child := if loads then .running else .exited
    tid := tid
    execSema := 1
    childStatus := if loads then 1 else -1
    inUse := [q.address]
    freed := [p.address] }

variable {name' : Bytes} {token tid save : Nat}

theorem forced_named (hfnCopy : o.fnCopy = some p) (hnameTmp : o.nameTmp = some q)
    (hcopy : strlcpy q.contents 0 command pgsize = some name)
    (hfound : strtokR name 0 = some (name', some token, save))
    (hrest : Forced (step command o) State.GoesOn (named p q name' token) n t) :
    Forced (step command o) State.GoesOn start (n + 3) t := by
  refine forced_twoPages hfnCopy hnameTmp hcopy ?_
  refine Forced.parent ⟨rfl, rfl⟩ ?_ rfl hrest
  simp only [State.parentStep, twoPages, hfound]
  rfl

theorem pallocFreePage_of_mem {s : State} {page : Page} (hmem : page.address ∈ s.inUse) :
    s.pallocFreePage page.address = some { s with
      inUse := s.inUse.erase page.address
      freed := s.freed ++ [page.address] } := by
  rw [State.pallocFreePage, if_neg (not_not.mpr page.aligned), if_neg page.ne_null,
    if_pos hmem]

theorem childStep_freeFnCopy {s : State} {page : Page} {success : Bool}
    (hchild : s.child = .freeFnCopy success) (hfnCopy : s.fnCopy = page.address)
    (hmem : page.address ∈ s.inUse) : s.childStep o = some { s with
      child := .up success
      inUse := s.inUse.erase page.address
      freed := s.freed ++ [page.address] } := by
  have hfree := pallocFreePage_of_mem hmem
  rw [← hfnCopy] at hfree ⊢
  simp only [State.childStep, hchild, hfree]

theorem erase_first (hdistinct : p.address ≠ q.address) :
    [q.address, p.address].erase p.address = [q.address] := by
  rw [List.erase_cons_tail (by simpa using hdistinct.symm), List.erase_cons_head]

/-- The child's part. -/
theorem forced_woken (hdistinct : p.address ≠ q.address) (hthread : o.thread = some tid)
    (hrest : Forced (step command o) State.GoesOn (woken p q name token tid o.loads) n t) :
    Forced (step command o) State.GoesOn (named p q name token) (n + 5) t := by
  obtain ⟨created, hcreated⟩ : ∃ created : State, created =
      { named p q name token with
        tid := (tid : Int)
        child := ChildPc.load
        parent := ParentPc.down } := ⟨_, rfl⟩
  have hup : Forced (step command o) State.GoesOn { created with
      childStatus := if o.loads then 1 else -1
      child := ChildPc.up o.loads
      inUse := [q.address]
      freed := [p.address] } (n + 1) t := by
    subst hcreated
    exact Forced.child ⟨rfl, rfl⟩ rfl rfl hrest
  have hfree : Forced (step command o) State.GoesOn { created with
      childStatus := if o.loads then 1 else -1
      child := ChildPc.freeFnCopy o.loads } (n + 2) t := by
    subst hcreated
    have hmem : p.address ∈ [q.address, p.address] := by simp
    refine Forced.child ⟨rfl, rfl⟩ (childStep_freeFnCopy rfl rfl hmem) rfl ?_
    exact (erase_first hdistinct).symm ▸ hup
  have hload : Forced (step command o) State.GoesOn created (n + 4) t := by
    subst hcreated
    exact Forced.child ⟨rfl, rfl⟩ rfl rfl (Forced.child ⟨rfl, rfl⟩ rfl rfl hfree)
  refine Forced.parent ⟨rfl, rfl⟩ ?_ rfl (hcreated ▸ hload)
  simp only [State.parentStep, named, hthread]

theorem parentFree_of_mem {s : State} {page : Page} {next : ParentPc}
    (hmem : page.address ∈ s.inUse) : s.parentFree page.address next = { s with
      parent := next
      inUse := s.inUse.erase page.address
      freed := s.freed ++ [page.address] } := by
  rw [State.parentFree, pallocFreePage_of_mem hmem]

/-- A page is not freed at an address inside of it. -/
theorem parentFree_of_offset {s : State} {page : Page} {next : ParentPc}
    (hpos : token ≠ 0) (hlt : token < pgsize) :
    s.parentFree (page.address + token) next = { s with parent := .panicked } := by
  have hoffset : (page.address + token) % pgsize ≠ 0 := by
    have haligned := page.aligned
    rwa [Nat.add_mod, haligned, Nat.zero_add, Nat.mod_mod, Nat.mod_eq_of_lt hlt]
  rw [State.parentFree, State.pallocFreePage, if_pos hoffset]

/-- What is left of `process_execute` when the name is in front of its page. -/
def balanced (p q : Page) (name : Bytes) (tid : Nat) (loads memory : Bool) : State :=
  { woken p q name 0 tid loads with
    parent := .returned (if loads ∧ memory then tid else tidError)
    tid := if loads then tid else tidError
    execSema := 0
    children := if loads ∧ memory then [(tid : Int)] else []
    inUse := []
    freed := [p.address, q.address] }

theorem woken_calm (p q : Page) (name : Bytes) (token tid : Nat) (loads : Bool) :
    (woken p q name token tid loads).child.isCalm := by
  cases loads <;> rfl

/-- The child has done its part. -/
theorem childStep_over {s : State} {loads : Bool}
    (hchild : s.child = if loads then .running else .exited) : s.childStep o = none := by
  rw [State.childStep, hchild]
  cases loads <;> rfl

theorem tid_ne_tidError (tid : Nat) : (tid : Int) ≠ tidError := by
  rw [tidError]
  omega

/-- `fn_copy` is left to the child. -/
theorem parentStep_freeFnCopy {s : State} (hparent : s.parent = .freeFnCopy)
    (htid : s.tid ≠ tidError) :
    s.parentStep command o = some { s with parent := .status } := by
  simp only [State.parentStep, hparent, if_neg htid]

/-- The test of `child_status`, and what follows it. -/
theorem forced_status : Forced (step command o) State.GoesOn
    { woken p q name 0 tid o.loads with
      parent := .status
      execSema := 0
      inUse := []
      freed := [p.address, q.address] } 2
    (balanced p q name tid o.loads o.memory) := by
  have hstuck : ∀ actor,
      step command o (balanced p q name tid o.loads o.memory) actor = none := by
    intro actor
    cases actor with
    | parent => exact ite_self none
    | child => exact (congrArg (ite _ none) (childStep_over rfl)).trans (ite_self none)
  have hcalm := woken_calm p q name 0 tid o.loads
  refine Forced.parent ⟨rfl, hcalm⟩ ?_ (childStep_over rfl)
    (Forced.parent (s := { woken p q name 0 tid o.loads with
      parent := .record
      tid := if o.loads then tid else tidError
      execSema := 0
      inUse := []
      freed := [p.address, q.address] }) ⟨rfl, hcalm⟩ ?_ (childStep_over rfl) (.stop hstuck))
  · cases hloads : o.loads
    · rfl
    · rfl
  · simp only [State.parentStep]
    cases hloads : o.loads
    · rfl
    · rw [if_pos rfl, if_neg (tid_ne_tidError tid)]
      cases hmemory : o.memory
      · rfl
      · rfl

theorem forced_balanced : Forced (step command o) State.GoesOn
    (woken p q name 0 tid o.loads) 5 (balanced p q name tid o.loads o.memory) := by
  have hcalm := woken_calm p q name 0 tid o.loads
  have hfreeFnCopy : Forced (step command o) State.GoesOn
      { woken p q name 0 tid o.loads with
        parent := .freeFnCopy
        execSema := 0
        inUse := []
        freed := [p.address, q.address] } 3
      (balanced p q name tid o.loads o.memory) :=
    Forced.parent ⟨rfl, hcalm⟩ (parentStep_freeFnCopy rfl (tid_ne_tidError tid))
      (childStep_over rfl) forced_status
  have hfreeNameTmp : Forced (step command o) State.GoesOn
      { woken p q name 0 tid o.loads with parent := .freeNameTmp, execSema := 0 } 4
      (balanced p q name tid o.loads o.memory) := by
    refine Forced.parent ⟨rfl, hcalm⟩ ?_ (childStep_over rfl) hfreeFnCopy
    have hmem : q.address ∈ [q.address] := List.mem_singleton_self _
    have herase : [q.address].erase q.address = [] := List.erase_cons_head _ _
    refine congrArg some ((parentFree_of_mem hmem).trans ?_)
    exact congrArg (fun inUse => { woken p q name 0 tid o.loads with
      parent := .freeFnCopy
      execSema := 0
      inUse := inUse
      freed := [p.address, q.address] }) herase
  exact Forced.parent ⟨rfl, hcalm⟩ rfl (childStep_over rfl) hfreeNameTmp

theorem forced_panicked (hpos : token ≠ 0) (hlt : token < pgsize) :
    Forced (step command o) State.GoesOn (woken p q name token tid o.loads) 2
      { woken p q name token tid o.loads with execSema := 0, parent := .panicked } := by
  have hcalm := woken_calm p q name token tid o.loads
  have hfree : Forced (step command o) State.GoesOn
      { woken p q name token tid o.loads with parent := .freeNameTmp, execSema := 0 } 1
      { woken p q name token tid o.loads with execSema := 0, parent := .panicked } :=
    Forced.parent ⟨rfl, hcalm⟩ (congrArg some (parentFree_of_offset hpos hlt)) (childStep_over rfl)
      (.stop fun _ => if_pos (Or.inl rfl))
  exact Forced.parent ⟨rfl, hcalm⟩ rfl (childStep_over rfl) hfree

end Ways

/-- Neither the parent nor the child, which there is not, goes on. -/
theorem stuck_of_absent {s : State} (hparent : s.parentStep command o = none)
    (hchild : s.child = .absent) (actor : Actor) : step command o s actor = none := by
  have hchildStep : s.childStep o = none := by
    rw [State.childStep, hchild]
  cases actor with
  | parent => exact (congrArg (ite _ none) hparent).trans (ite_self none)
  | child => exact (congrArg (ite _ none) hchildStep).trans (ite_self none)

/-- Pages that nobody has freed. -/
theorem not_ends_of_lost {s : State} {page : Nat} (hmem : page ∈ s.obtained)
    (hfreed : s.freed = []) : ¬ Ends o s := fun hends => by
  have hmem' := hends.freed.mem_iff.mpr hmem
  rw [hfreed] at hmem'
  exact List.not_mem_nil hmem'

theorem not_ends_of_inside {s : State} (hparent : ∀ r, s.parent ≠ .returned r) :
    ¬ Ends o s := fun hends => by
  obtain ⟨r, hreturned, -⟩ := hends.returned
  exact hparent r hreturned

theorem ends_balanced_iff {p q : Page} {name : Bytes} {tid : Nat}
    (hthread : o.thread = some tid) :
    Ends o (balanced p q name tid o.loads o.memory) ↔ (o.loads = true → o.memory = true) := by
  constructor
  · rintro ⟨⟨r, hreturned, hrunning, -⟩, -, -⟩ hloads
    by_contra hmemory
    have hchild : (balanced p q name tid o.loads o.memory).child = .running := by
      rw [hloads]
      rfl
    obtain ⟨tid', -, htid⟩ := hrunning hchild
    have hr : r = tidError := by
      have hparent : (balanced p q name tid o.loads o.memory).parent = .returned tidError :=
        congrArg ParentPc.returned (if_neg fun h => hmemory h.2)
      exact ParentPc.returned.inj (hreturned.symm.trans hparent)
    exact tid_ne_tidError tid' (htid.symm.trans hr)
  · intro hmemory
    refine ⟨⟨_, rfl, fun hchild => ⟨tid, hthread, ?_⟩, fun hchild => ?_⟩, ?_,
      List.Perm.refl _⟩
    · cases hloads : o.loads with
      | true => exact if_pos ⟨rfl, hmemory hloads⟩
      | false =>
          rw [hloads] at hchild
          cases hchild
    · cases hloads : o.loads with
      | true =>
          rw [hloads] at hchild
          exact absurd rfl hchild
      | false => exact if_neg fun h => (by cases h.1)
    · cases o.loads <;> exact fun h => by cases h

/-- Whatever the functions come to, there is one way through the two; it ends well
where the condition holds. -/
theorem forced_ends (command : CString) (o : Outcome) : ∃ n t,
    Forced (step command o) State.GoesOn start n t ∧ (Ends o t ↔ Orderly command o) := by
  cases hfnCopy : o.fnCopy with
  | none =>
      refine ⟨1, { start with parent := .returned tidError },
        Forced.parent ⟨rfl, rfl⟩ ?_ rfl (.stop (stuck_of_absent rfl rfl)), ?_⟩
      · simp only [State.parentStep, start, hfnCopy]
      · exact iff_of_true ⟨⟨tidError, rfl, fun h => (by cases h), fun _ => rfl⟩,
          fun h => (by cases h), List.Perm.refl _⟩ (Or.inl hfnCopy)
  | some p =>
      have horderly : Orderly command o ↔ o.nameTmp ≠ none ∧ StartsWithWord command ∧
          o.thread ≠ none ∧ (o.loads = true → o.memory = true) := by
        rw [Orderly, hfnCopy, or_iff_right (Option.some_ne_none p),
          and_iff_right (Option.some_ne_none p)]
      rw [horderly]
      cases hnameTmp : o.nameTmp with
      | none =>
          refine ⟨2, { onePage p with parent := .returned tidError },
            forced_onePage hfnCopy (Forced.parent ⟨rfl, rfl⟩ ?_ rfl
              (.stop (stuck_of_absent rfl rfl))), ?_⟩
          · simp only [State.parentStep, onePage, hnameTmp]
          · exact iff_of_false (not_ends_of_lost (List.mem_singleton_self p.address) rfl)
              fun h => h.1 rfl
      | some q =>
          obtain ⟨after, hcopy⟩ := @strlcpy_copied command q
          rcases token_of_copied command after with
            @⟨name', save, hfound, hspaces⟩ | @⟨name', token, save, hfound, hlt, hfront⟩
          · refine ⟨3, { twoPages p q name' with nameTmp := 0, parent := .returned tidError },
              forced_twoPages hfnCopy hnameTmp hcopy (Forced.parent ⟨rfl, rfl⟩ ?_ rfl
                (.stop (stuck_of_absent rfl rfl))), ?_⟩
            · simp only [State.parentStep, twoPages, hfound]
              rfl
            · exact iff_of_false (not_ends_of_lost List.mem_cons_self rfl)
                fun h => hspaces h.2.1
          · cases hthread : o.thread with
            | none =>
                refine ⟨4, { named p q name' token with tid := tidError, parent := .down },
                  forced_named hfnCopy hnameTmp hcopy hfound (Forced.parent ⟨rfl, rfl⟩ ?_ rfl
                    (.stop (stuck_of_absent rfl rfl))), ?_⟩
                · simp only [State.parentStep, named, hthread]
                · exact iff_of_false (not_ends_of_inside fun r h => (by cases h))
                    fun h => h.2.2.1 rfl
            | some tid =>
                have hdistinct := o.distinct p hfnCopy q hnameTmp
                by_cases hpos : token = 0
                · subst hpos
                  refine ⟨13, _, forced_named hfnCopy hnameTmp hcopy hfound
                    (forced_woken hdistinct hthread forced_balanced), ?_⟩
                  rw [ends_balanced_iff hthread]
                  exact ⟨fun h => ⟨Option.some_ne_none q, hfront.mp rfl,
                    Option.some_ne_none tid, h⟩, fun h => h.2.2.2⟩
                · refine ⟨10, _, forced_named hfnCopy hnameTmp hcopy hfound
                    (forced_woken hdistinct hthread (forced_panicked hpos hlt)), ?_⟩
                  exact iff_of_false (not_ends_of_inside fun r h => (by cases h))
                    fun h => hpos (hfront.mpr h.2.1)

/-- The calls of `process_execute` that return, balance their pages and fail no
assertion. -/
theorem process_execute_correct_iff (command : CString) (o : Outcome) :
    Correct command o ↔ Orderly command o := by
  obtain ⟨n, t, hforced, hends⟩ := forced_ends command o
  rw [correct_iff_ends hforced, hends]

namespace ProcessExecuteWitness

/-- A page of zeros. -/
def zeros (n : Nat) (hn : n ≠ 0) : Page where
  address := n * pgsize
  contents := List.replicate pgsize 0
  aligned := Nat.mul_mod_left n pgsize
  ne_null := Nat.mul_ne_zero hn (by decide)
  length_eq := List.length_replicate

/-- There is room for everything, and the program loads. -/
def outcome : Outcome where
  fnCopy := some (zeros 1 (by decide))
  nameTmp := some (zeros 2 (by decide))
  distinct p hp q hq := by
    obtain rfl := Option.some.inj hp
    obtain rfl := Option.some.inj hq
    decide
  thread := some 3
  loads := true
  memory := true

/-- `ls`, with a space in front of it. -/
def spaced : CString := ⟨[32, 108, 115], by decide⟩

/-- The way to the page of `name_tmp`, which is freed at its second byte. -/
def actors : List Actor :=
  List.replicate 4 Actor.parent ++ List.replicate 4 Actor.child ++
    List.replicate 2 Actor.parent

theorem leading_space_panics : ¬ ∀ (command : CString) (o : Outcome), Correct command o := by
  intro hcorrect
  have hrun : ((actors.foldlM (step spaced outcome) start).map State.parent) =
      some .panicked := by decide +kernel
  obtain ⟨s, hs, hpanicked⟩ := Option.map_eq_some_iff.mp hrun
  exact ((hcorrect spaced outcome).calm actors s (Run.of_foldlM hs)).1 hpanicked

end ProcessExecuteWitness

end ProcessExecute

end PintosLabs
