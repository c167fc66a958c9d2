/-
The readers and writers of lab6: each call of `sem_wait` and `sem_post` and each
access to `readcount` and to the buffer is one step, and the threads take their
steps in any order.
-/
import Mathlib.Data.List.Basic
import PintosLabs.Machine

namespace PintosLabs

/-- Where a reader is; what it has loaded of `readcount` it keeps. -/
inductive ReaderPc where
  | waitRc
  | loadCount
  | storeCount (loaded : Int)
  | waitDb
  | postRc
  | inside
  | waitRcAgain
  | loadCountAgain
  | storeCountAgain (loaded : Int)
  | postDb
  | postRcAgain
  | finished
  deriving DecidableEq

inductive WriterPc where
  | waitDb
  | loadBuffer
  | storeBuffer (loaded : Int)
  | printBuffer
  | postDb
  | finished
  deriving DecidableEq

structure ReadersWriters where
  db : Nat
  rc : Nat
  readcount : Int
  buffer : Int
  readers : List ReaderPc
  writers : List WriterPc

inductive ReadersWritersAct where
  | reader (i : Nat)
  | writer (i : Nat)

namespace ReadersWriters

/-- `sem_wait`; there is no step at 0. -/
def semWait : Nat → Option Nat
  | 0 => none
  | value + 1 => some value

def semPost (value : Nat) : Nat := value + 1

/-- A step of `reader`. -/
def reader (s : ReadersWriters) : ReaderPc → Option (ReadersWriters × ReaderPc)
  | .waitRc => do
      let rc ← semWait s.rc
      some ({ s with rc := rc }, .loadCount)
  | .loadCount => some (s, .storeCount s.readcount)
  | .storeCount loaded =>
      some ({ s with readcount := loaded + 1 },
        if loaded = 0 then .waitDb else .postRc)
  | .waitDb => do
      let db ← semWait s.db
      some ({ s with db := db }, .postRc)
  | .postRc => some ({ s with rc := semPost s.rc }, .inside)
  | .inside => some (s, .waitRcAgain)
  | .waitRcAgain => do
      let rc ← semWait s.rc
      some ({ s with rc := rc }, .loadCountAgain)
  | .loadCountAgain => some (s, .storeCountAgain s.readcount)
  | .storeCountAgain loaded =>
      some ({ s with readcount := loaded - 1 },
        if loaded - 1 = 0 then .postDb else .postRcAgain)
  | .postDb => some ({ s with db := semPost s.db }, .postRcAgain)
  | .postRcAgain => some ({ s with rc := semPost s.rc }, .finished)
  | .finished => none

/-- A step of `writer`. -/
def writer (s : ReadersWriters) : WriterPc → Option (ReadersWriters × WriterPc)
  | .waitDb => do
      let db ← semWait s.db
      some ({ s with db := db }, .loadBuffer)
  | .loadBuffer => some (s, .storeBuffer s.buffer)
  | .storeBuffer loaded => some ({ s with buffer := loaded + 1 }, .printBuffer)
  | .printBuffer => some (s, .postDb)
  | .postDb => some ({ s with db := semPost s.db }, .finished)
  | .finished => none

def step (s : ReadersWriters) : ReadersWritersAct → Option ReadersWriters
  | .reader i => do
      let pc ← s.readers[i]?
      let (s, pc) ← s.reader pc
      some { s with readers := s.readers.set i pc }
  | .writer i => do
      let pc ← s.writers[i]?
      let (s, pc) ← s.writer pc
      some { s with writers := s.writers.set i pc }

/-- The threads that `main` has created, none of which has run. -/
def start (readers writers : Nat) (buffer : Int) : ReadersWriters where
  db := 1
  rc := 1
  readcount := 0
  buffer := buffer
  readers := List.replicate readers .waitRc
  writers := List.replicate writers .waitDb

end ReadersWriters

/-- The reader has counted itself. -/
def ReaderPc.counted : ReaderPc → Bool
  | waitDb | postRc | inside | waitRcAgain | loadCountAgain | storeCountAgain _ => true
  | _ => false

/-- The reader is behind the code that lets it in and has not left. -/
def ReaderPc.entered : ReaderPc → Bool
  | postRc | inside | waitRcAgain | loadCountAgain | storeCountAgain _ => true
  | _ => false

/-- The reader has `rc` and neither waits for `db` nor is to return it. -/
def ReaderPc.holdsRc : ReaderPc → Bool
  | loadCount | storeCount _ | postRc | loadCountAgain | storeCountAgain _
  | postRcAgain => true
  | _ => false

def ReaderPc.waitsDb : ReaderPc → Bool
  | waitDb => true
  | _ => false

def ReaderPc.postsDb : ReaderPc → Bool
  | postDb => true
  | _ => false

def ReaderPc.loaded : ReaderPc → Option Int
  | storeCount loaded | storeCountAgain loaded => some loaded
  | _ => none

/-- The writer has `db`. -/
def WriterPc.entered : WriterPc → Bool
  | loadBuffer | storeBuffer _ | printBuffer | postDb => true
  | _ => false

def WriterPc.stored : WriterPc → Bool
  | printBuffer | postDb | finished => true
  | _ => false

def WriterPc.loaded : WriterPc → Option Int
  | storeBuffer loaded => some loaded
  | _ => none

theorem countP_set_add {α : Type} (p : α → Bool) {xs : List α} {i : Nat} {x : α}
    (hx : xs[i]? = some x) (y : α) :
    (xs.set i y).countP p + (if p x then 1 else 0) =
      xs.countP p + (if p y then 1 else 0) := by
  obtain ⟨hlt, rfl⟩ := List.getElem?_eq_some_iff.mp hx
  rw [List.countP_set hlt]
  by_cases hp : p xs[i] = true
  · have hpos : 0 < xs.countP p :=
      List.countP_pos_iff.mpr ⟨xs[i], List.getElem_mem hlt, hp⟩
    simp only [hp, ↓reduceIte]
    omega
  · simp only [hp, Bool.false_eq_true, ↓reduceIte]
    omega

/-- Two elements with the property count twice. -/
theorem eq_of_countP_le_one {α : Type} {p : α → Bool} {xs : List α} {i j : Nat} {x y : α}
    (hle : xs.countP p ≤ 1) (hx : xs[i]? = some x) (hpx : p x = true)
    (hy : xs[j]? = some y) (hpy : p y = true) : i = j := by
  induction xs generalizing i j with
  | nil => cases hx
  | cons z rest ih =>
      rw [List.countP_cons] at hle
      have hmem : ∀ {k : Nat} {w : α}, rest[k]? = some w → p w = true →
          0 < rest.countP p := fun hw hpw =>
        List.countP_pos_iff.mpr ⟨_, List.mem_of_getElem? hw, hpw⟩
      cases i with
      | zero =>
          cases j with
          | zero => rfl
          | succ j =>
              have hz := Option.some.inj hx
              subst hz
              have hpos := hmem hy hpy
              rw [if_pos hpx] at hle
              omega
      | succ i =>
          cases j with
          | zero =>
              have hz := Option.some.inj hy
              subst hz
              have hpos := hmem hx hpx
              rw [if_pos hpy] at hle
              omega
          | succ j => exact congrArg Nat.succ (ih (by omega) hx hy)

namespace ReadersWriters

/-- How many readers are at such a place. -/
def numReaders (s : ReadersWriters) (p : ReaderPc → Bool) : Nat := s.readers.countP p

def numWriters (s : ReadersWriters) (p : WriterPc → Bool) : Nat := s.writers.countP p

/-- Who has the semaphores.  With no reader counted `db` is free, with a writer
or with the last reader on its way out; the first reader waits for it; then it is
with the readers. -/
structure Inv (start : Int) (s : ReadersWriters) : Prop where
  rc_eq : s.rc + s.numReaders ReaderPc.holdsRc + s.numReaders ReaderPc.waitsDb +
    s.numReaders ReaderPc.postsDb = 1
  db_free : s.numReaders ReaderPc.entered + s.numReaders ReaderPc.waitsDb = 0 →
    s.db + s.numWriters WriterPc.entered + s.numReaders ReaderPc.postsDb = 1
  db_held : 0 < s.numReaders ReaderPc.entered + s.numReaders ReaderPc.waitsDb →
    s.db + s.numWriters WriterPc.entered = s.numReaders ReaderPc.waitsDb
  first : 0 < s.numReaders ReaderPc.waitsDb → s.numReaders ReaderPc.entered = 0
  last : 0 < s.numReaders ReaderPc.postsDb → s.numReaders ReaderPc.entered = 0
  readcount_eq : s.readcount =
    (s.numReaders ReaderPc.entered + s.numReaders ReaderPc.waitsDb : Nat)
  counted : ∀ (i : Nat) pc loaded, s.readers[i]? = some pc → pc.loaded = some loaded →
    loaded = s.readcount
  buffer_eq : s.buffer = start + (s.numWriters WriterPc.stored : Nat)
  written : ∀ (i : Nat) pc loaded, s.writers[i]? = some pc → pc.loaded = some loaded →
    loaded = s.buffer

variable {s s' : ReadersWriters} {b : Int}

theorem inv_start (readers writers : Nat) (b : Int) : Inv b (start readers writers b) := by
  have hreaders : ∀ p : ReaderPc → Bool, p .waitRc = false →
      (start readers writers b).numReaders p = 0 := by
    intro p hp
    rw [numReaders, start, List.countP_replicate, if_neg (by rw [hp]; exact nofun)]
  have hwriters : ∀ p : WriterPc → Bool, p .waitDb = false →
      (start readers writers b).numWriters p = 0 := by
    intro p hp
    rw [numWriters, start, List.countP_replicate, if_neg (by rw [hp]; exact nofun)]
  have h₁ := hreaders ReaderPc.holdsRc rfl
  have h₂ := hreaders ReaderPc.waitsDb rfl
  have h₃ := hreaders ReaderPc.postsDb rfl
  have h₄ := hreaders ReaderPc.entered rfl
  have h₅ := hwriters WriterPc.entered rfl
  have h₆ := hwriters WriterPc.stored rfl
  refine ⟨?_, fun _ => ?_, fun hpos => ?_, fun hpos => ?_, fun hpos => ?_, ?_,
    fun i pc loaded hpc hloaded => ?_, ?_, fun i pc loaded hpc hloaded => ?_⟩
  · rw [h₁, h₂, h₃]
    rfl
  · rw [h₅, h₃]
    rfl
  · rw [h₄, h₂] at hpos
    exact absurd hpos (Nat.lt_irrefl _)
  · exact h₄
  · exact h₄
  · rw [h₄, h₂]
    rfl
  · rw [List.eq_of_mem_replicate (List.mem_of_getElem? hpc)] at hloaded
    cases hloaded
  · rw [h₆]
    exact (Int.add_zero b).symm
  · rw [List.eq_of_mem_replicate (List.mem_of_getElem? hpc)] at hloaded
    cases hloaded

/-- A reader that has `rc` is the only one. -/
theorem Inv.unique (h : Inv b s) {i j : Nat} {pc pc' : ReaderPc}
    (hpc : s.readers[i]? = some pc) (hholds : pc.holdsRc = true)
    (hpc' : s.readers[j]? = some pc') (hholds' : pc'.holdsRc = true) : i = j := by
  have hrc := h.rc_eq
  exact eq_of_countP_le_one (p := ReaderPc.holdsRc) (by rw [numReaders] at hrc; omega)
    hpc hholds hpc' hholds'

theorem holdsRc_of_loaded {pc : ReaderPc} {loaded : Int} (h : pc.loaded = some loaded) :
    pc.holdsRc = true := by
  cases pc <;> first | rfl | cases h

theorem entered_of_loaded {pc : WriterPc} {loaded : Int} (h : pc.loaded = some loaded) :
    pc.entered = true := by
  cases pc <;> first | rfl | cases h

/-- What readers have loaded stays right if only a thread with `rc` stores. -/
theorem Inv.counted_set (h : Inv b s) {i : Nat} {pc pc' : ReaderPc} {count : Int}
    (hpc : s.readers[i]? = some pc) (hcount : count = s.readcount ∨ pc.holdsRc = true)
    (hpc' : ∀ loaded, pc'.loaded = some loaded → loaded = count) :
    ∀ (j : Nat) pcj loaded, (s.readers.set i pc')[j]? = some pcj →
      pcj.loaded = some loaded → loaded = count := by
  intro j pcj loaded hj hloaded
  by_cases hij : i = j
  · subst hij
    rw [List.getElem?_set_self (List.getElem?_eq_some_iff.mp hpc).1] at hj
    exact hpc' loaded (Option.some.inj hj ▸ hloaded)
  · rw [List.getElem?_set_ne hij] at hj
    rcases hcount with rfl | hholds
    · exact h.counted j pcj loaded hj hloaded
    · exact absurd (h.unique hpc hholds hj (holdsRc_of_loaded hloaded)) hij

theorem semWait_eq {value value' : Nat} (h : semWait value = some value') :
    value = value' + 1 := by
  cases value with
  | zero => cases h
  | succ value => exact congrArg Nat.succ (Option.some.inj h)

theorem Inv.readerStep (h : Inv b s) {i : Nat} {pc pc' : ReaderPc} {s₁ : ReadersWriters}
    (hpc : s.readers[i]? = some pc) (hstep : s.reader pc = some (s₁, pc')) :
    Inv b { s₁ with readers := s₁.readers.set i pc' } := by
  have hholds := countP_set_add ReaderPc.holdsRc hpc pc'
  have hwaits := countP_set_add ReaderPc.waitsDb hpc pc'
  have hposts := countP_set_add ReaderPc.postsDb hpc pc'
  have hentered := countP_set_add ReaderPc.entered hpc pc'
  obtain ⟨hrc, hfree, hheld, hfirst, hlast, hcount, -, hbuffer, hwritten⟩ := id h
  simp only [numReaders, numWriters] at hrc hfree hheld hfirst hlast hcount hbuffer
  have hnone : ∀ (count : Int) (pc' : ReaderPc), pc'.loaded = none →
      ∀ loaded, pc'.loaded = some loaded → loaded = count :=
    fun count pc' hpc' loaded hsome => absurd (hpc'.symm.trans hsome) nofun
  have hkeep := hnone s.readcount
  cases pc with
  | waitRc =>
      obtain ⟨rc, hwait, hsome⟩ := Option.bind_eq_some_iff.mp hstep
      cases hsome
      have hvalue := semWait_eq hwait
      have hloaded := h.counted_set hpc (Or.inl rfl) (hkeep .loadCount rfl)
      simp only [ReaderPc.holdsRc, ReaderPc.waitsDb, ReaderPc.postsDb, ReaderPc.entered,
        Bool.false_eq_true, ↓reduceIte] at hholds hwaits hposts hentered
      refine ⟨?_, ?_, ?_, ?_, ?_, ?_, hloaded, hbuffer, hwritten⟩ <;>
        simp only [numReaders, numWriters] <;> omega
  | loadCount =>
      cases hstep
      have hread : ∀ loaded, (ReaderPc.storeCount s.readcount).loaded = some loaded →
          loaded = s.readcount := fun _ hsome => (Option.some.inj hsome).symm
      have hloaded := h.counted_set hpc (Or.inl rfl) hread
      simp only [ReaderPc.holdsRc, ReaderPc.waitsDb, ReaderPc.postsDb, ReaderPc.entered,
        Bool.false_eq_true, ↓reduceIte] at hholds hwaits hposts hentered
      refine ⟨?_, ?_, ?_, ?_, ?_, ?_, hloaded, hbuffer, hwritten⟩ <;>
        simp only [numReaders, numWriters] <;> omega
  | storeCount loaded =>
      have hread := h.counted i _ loaded hpc rfl
      by_cases hzero : loaded = 0
      · simp only [reader, if_pos hzero] at hstep
        cases hstep
        have hloaded := h.counted_set hpc (Or.inr rfl) (hnone (loaded + 1) .waitDb rfl)
        simp only [ReaderPc.holdsRc, ReaderPc.waitsDb, ReaderPc.postsDb, ReaderPc.entered,
          Bool.false_eq_true, ↓reduceIte] at hholds hwaits hposts hentered
        refine ⟨?_, ?_, ?_, ?_, ?_, ?_, hloaded, hbuffer, hwritten⟩ <;>
          simp only [numReaders, numWriters] <;> omega
      · simp only [reader, if_neg hzero] at hstep
        cases hstep
        have hloaded := h.counted_set hpc (Or.inr rfl) (hnone (loaded + 1) .postRc rfl)
        have hmine : 0 < s.readers.countP ReaderPc.holdsRc :=
          List.countP_pos_iff.mpr ⟨_, List.mem_of_getElem? hpc, rfl⟩
        simp only [ReaderPc.holdsRc, ReaderPc.waitsDb, ReaderPc.postsDb, ReaderPc.entered,
          Bool.false_eq_true, ↓reduceIte] at hholds hwaits hposts hentered
        refine ⟨?_, ?_, ?_, ?_, ?_, ?_, hloaded, hbuffer, hwritten⟩ <;>
          simp only [numReaders, numWriters] <;> omega
  | waitDb =>
      obtain ⟨db, hwait, hsome⟩ := Option.bind_eq_some_iff.mp hstep
      cases hsome
      have hvalue := semWait_eq hwait
      have hloaded := h.counted_set hpc (Or.inl rfl) (hkeep .postRc rfl)
      simp only [ReaderPc.holdsRc, ReaderPc.waitsDb, ReaderPc.postsDb, ReaderPc.entered,
        Bool.false_eq_true, ↓reduceIte] at hholds hwaits hposts hentered
      refine ⟨?_, ?_, ?_, ?_, ?_, ?_, hloaded, hbuffer, hwritten⟩ <;>
        simp only [numReaders, numWriters] <;> omega
  | postRc =>
      cases hstep
      have hloaded := h.counted_set hpc (Or.inl rfl) (hkeep .inside rfl)
      simp only [ReaderPc.holdsRc, ReaderPc.waitsDb, ReaderPc.postsDb, ReaderPc.entered,
        Bool.false_eq_true, ↓reduceIte] at hholds hwaits hposts hentered
      refine ⟨?_, ?_, ?_, ?_, ?_, ?_, hloaded, hbuffer, hwritten⟩ <;>
        simp only [numReaders, numWriters, semPost] <;> omega
  | inside =>
      cases hstep
      have hloaded := h.counted_set hpc (Or.inl rfl) (hkeep .waitRcAgain rfl)
      simp only [ReaderPc.holdsRc, ReaderPc.waitsDb, ReaderPc.postsDb, ReaderPc.entered,
        Bool.false_eq_true, ↓reduceIte] at hholds hwaits hposts hentered
      refine ⟨?_, ?_, ?_, ?_, ?_, ?_, hloaded, hbuffer, hwritten⟩ <;>
        simp only [numReaders, numWriters] <;> omega
  | waitRcAgain =>
      obtain ⟨rc, hwait, hsome⟩ := Option.bind_eq_some_iff.mp hstep
      cases hsome
      have hvalue := semWait_eq hwait
      have hloaded := h.counted_set hpc (Or.inl rfl) (hkeep .loadCountAgain rfl)
      simp only [ReaderPc.holdsRc, ReaderPc.waitsDb, ReaderPc.postsDb, ReaderPc.entered,
        Bool.false_eq_true, ↓reduceIte] at hholds hwaits hposts hentered
      refine ⟨?_, ?_, ?_, ?_, ?_, ?_, hloaded, hbuffer, hwritten⟩ <;>
        simp only [numReaders, numWriters] <;> omega
  | loadCountAgain =>
      cases hstep
      have hread : ∀ loaded, (ReaderPc.storeCountAgain s.readcount).loaded = some loaded →
          loaded = s.readcount := fun _ hsome => (Option.some.inj hsome).symm
      have hloaded := h.counted_set hpc (Or.inl rfl) hread
      simp only [ReaderPc.holdsRc, ReaderPc.waitsDb, ReaderPc.postsDb, ReaderPc.entered,
        Bool.false_eq_true, ↓reduceIte] at hholds hwaits hposts hentered
      refine ⟨?_, ?_, ?_, ?_, ?_, ?_, hloaded, hbuffer, hwritten⟩ <;>
        simp only [numReaders, numWriters] <;> omega
  | storeCountAgain loaded =>
      have hread := h.counted i _ loaded hpc rfl
      by_cases hzero : loaded - 1 = 0
      · simp only [reader, if_pos hzero] at hstep
        cases hstep
        have hloaded := h.counted_set hpc (Or.inr rfl) (hnone (loaded - 1) .postDb rfl)
        simp only [ReaderPc.holdsRc, ReaderPc.waitsDb, ReaderPc.postsDb, ReaderPc.entered,
          Bool.false_eq_true, ↓reduceIte] at hholds hwaits hposts hentered
        refine ⟨?_, ?_, ?_, ?_, ?_, ?_, hloaded, hbuffer, hwritten⟩ <;>
          simp only [numReaders, numWriters] <;> omega
      · simp only [reader, if_neg hzero] at hstep
        cases hstep
        have hloaded := h.counted_set hpc (Or.inr rfl) (hnone (loaded - 1) .postRcAgain rfl)
        simp only [ReaderPc.holdsRc, ReaderPc.waitsDb, ReaderPc.postsDb, ReaderPc.entered,
          Bool.false_eq_true, ↓reduceIte] at hholds hwaits hposts hentered
        refine ⟨?_, ?_, ?_, ?_, ?_, ?_, hloaded, hbuffer, hwritten⟩ <;>
          simp only [numReaders, numWriters] <;> omega
  | postDb =>
      cases hstep
      have hloaded := h.counted_set hpc (Or.inl rfl) (hkeep .postRcAgain rfl)
      simp only [ReaderPc.holdsRc, ReaderPc.waitsDb, ReaderPc.postsDb, ReaderPc.entered,
        Bool.false_eq_true, ↓reduceIte] at hholds hwaits hposts hentered
      refine ⟨?_, ?_, ?_, ?_, ?_, ?_, hloaded, hbuffer, hwritten⟩ <;>
        simp only [numReaders, numWriters, semPost] <;> omega
  | postRcAgain =>
      cases hstep
      have hloaded := h.counted_set hpc (Or.inl rfl) (hkeep .finished rfl)
      simp only [ReaderPc.holdsRc, ReaderPc.waitsDb, ReaderPc.postsDb, ReaderPc.entered,
        Bool.false_eq_true, ↓reduceIte] at hholds hwaits hposts hentered
      refine ⟨?_, ?_, ?_, ?_, ?_, ?_, hloaded, hbuffer, hwritten⟩ <;>
        simp only [numReaders, numWriters, semPost] <;> omega
  | finished => cases hstep

/-- With a reader in, no writer is; and there is never more than one writer. -/
theorem Inv.writers_entered (h : Inv b s) : s.numWriters WriterPc.entered ≤ 1 ∧
    (0 < s.numReaders ReaderPc.entered → s.numWriters WriterPc.entered = 0) := by
  obtain ⟨hrc, hfree, hheld, hfirst, -, -, -, -, -⟩ := h
  by_cases hzero : s.numReaders ReaderPc.entered + s.numReaders ReaderPc.waitsDb = 0
  · have hdb := hfree hzero
    omega
  · have hdb := hheld (Nat.pos_of_ne_zero hzero)
    omega

theorem Inv.written_set (h : Inv b s) {i : Nat} {pc pc' : WriterPc} {buffer : Int}
    (hpc : s.writers[i]? = some pc) (hbuffer : buffer = s.buffer ∨ pc.entered = true)
    (hpc' : ∀ loaded, pc'.loaded = some loaded → loaded = buffer) :
    ∀ (j : Nat) pcj loaded, (s.writers.set i pc')[j]? = some pcj →
      pcj.loaded = some loaded → loaded = buffer := by
  have hone := h.writers_entered.1
  intro j pcj loaded hj hloaded
  by_cases hij : i = j
  · subst hij
    rw [List.getElem?_set_self (List.getElem?_eq_some_iff.mp hpc).1] at hj
    exact hpc' loaded (Option.some.inj hj ▸ hloaded)
  · rw [List.getElem?_set_ne hij] at hj
    rcases hbuffer with rfl | hentered
    · exact h.written j pcj loaded hj hloaded
    · exact absurd (eq_of_countP_le_one hone hpc hentered hj (entered_of_loaded hloaded))
        hij

theorem Inv.writerStep (h : Inv b s) {i : Nat} {pc pc' : WriterPc} {s₁ : ReadersWriters}
    (hpc : s.writers[i]? = some pc) (hstep : s.writer pc = some (s₁, pc')) :
    Inv b { s₁ with writers := s₁.writers.set i pc' } := by
  have hentered := countP_set_add WriterPc.entered hpc pc'
  have hstored := countP_set_add WriterPc.stored hpc pc'
  obtain ⟨hrc, hfree, hheld, hfirst, hlast, hcount, hcounted, hbuffer, -⟩ := id h
  simp only [numReaders, numWriters] at hrc hfree hheld hfirst hlast hcount hbuffer
  have hnone : ∀ (buffer : Int) (pc' : WriterPc), pc'.loaded = none →
      ∀ loaded, pc'.loaded = some loaded → loaded = buffer :=
    fun buffer pc' hpc' loaded hsome => absurd (hpc'.symm.trans hsome) nofun
  have hkeep := hnone s.buffer
  cases pc with
  | waitDb =>
      obtain ⟨db, hwait, hsome⟩ := Option.bind_eq_some_iff.mp hstep
      cases hsome
      have hvalue := semWait_eq hwait
      have hloaded := h.written_set hpc (Or.inl rfl) (hkeep .loadBuffer rfl)
      simp only [WriterPc.entered, WriterPc.stored, Bool.false_eq_true, ↓reduceIte]
        at hentered hstored
      refine ⟨hrc, ?_, ?_, hfirst, hlast, hcount, hcounted, ?_, hloaded⟩ <;>
        simp only [numReaders, numWriters] <;> omega
  | loadBuffer =>
      cases hstep
      have hread : ∀ loaded, (WriterPc.storeBuffer s.buffer).loaded = some loaded →
          loaded = s.buffer := fun _ hsome => (Option.some.inj hsome).symm
      have hloaded := h.written_set hpc (Or.inl rfl) hread
      simp only [WriterPc.entered, WriterPc.stored, Bool.false_eq_true, ↓reduceIte]
        at hentered hstored
      refine ⟨hrc, ?_, ?_, hfirst, hlast, hcount, hcounted, ?_, hloaded⟩ <;>
        simp only [numReaders, numWriters] <;> omega
  | storeBuffer loaded =>
      cases hstep
      have hread := h.written i _ loaded hpc rfl
      have hloaded := h.written_set hpc (Or.inr rfl) (hnone (loaded + 1) .printBuffer rfl)
      simp only [WriterPc.entered, WriterPc.stored, Bool.false_eq_true, ↓reduceIte]
        at hentered hstored
      refine ⟨hrc, ?_, ?_, hfirst, hlast, hcount, hcounted, ?_, hloaded⟩ <;>
        simp only [numReaders, numWriters] <;> omega
  | printBuffer =>
      cases hstep
      have hloaded := h.written_set hpc (Or.inl rfl) (hkeep .postDb rfl)
      simp only [WriterPc.entered, WriterPc.stored, ↓reduceIte] at hentered hstored
      refine ⟨hrc, ?_, ?_, hfirst, hlast, hcount, hcounted, ?_, hloaded⟩ <;>
        simp only [numReaders, numWriters] <;> omega
  | postDb =>
      cases hstep
      have hloaded := h.written_set hpc (Or.inl rfl) (hkeep .finished rfl)
      simp only [WriterPc.entered, WriterPc.stored, Bool.false_eq_true, ↓reduceIte]
        at hentered hstored
      refine ⟨hrc, ?_, ?_, hfirst, hlast, hcount, hcounted, ?_, hloaded⟩ <;>
        simp only [numReaders, numWriters, semPost] <;> omega
  | finished => cases hstep

theorem Inv.step {act : ReadersWritersAct} (h : Inv b s) (hstep : s.step act = some s') :
    Inv b s' := by
  cases act with
  | reader i =>
      obtain ⟨pc, hpc, hstep⟩ := Option.bind_eq_some_iff.mp hstep
      obtain ⟨⟨s₁, pc'⟩, hreader, hstep⟩ := Option.bind_eq_some_iff.mp hstep
      rw [← Option.some.inj hstep]
      exact h.readerStep hpc hreader
  | writer i =>
      obtain ⟨pc, hpc, hstep⟩ := Option.bind_eq_some_iff.mp hstep
      obtain ⟨⟨s₁, pc'⟩, hwriter, hstep⟩ := Option.bind_eq_some_iff.mp hstep
      rw [← Option.some.inj hstep]
      exact h.writerStep hpc hwriter

/-- Some readers and writers, in any order of their steps. -/
abbrev Reaches (readers writers : Nat) (buffer : Int) (acts : List ReadersWritersAct)
    (s : ReadersWriters) : Prop :=
  Run ReadersWriters.step (fun _ _ => True) (start readers writers buffer) acts s

theorem Inv.of_run {readers writers : Nat} {acts : List ReadersWritersAct}
    (hrun : Reaches readers writers b acts s) : Inv b s :=
  hrun.invariant (Inv b) (fun h _ hstep => h.step hstep) (inv_start readers writers b)

theorem writer_writers {pc pc' : WriterPc} {s₁ : ReadersWriters}
    (hstep : s.writer pc = some (s₁, pc')) : s₁.writers = s.writers := by
  cases pc with
  | waitDb =>
      obtain ⟨db, -, hsome⟩ := Option.bind_eq_some_iff.mp hstep
      cases hsome
      rfl
  | _ =>
      cases hstep
      try rfl

theorem reader_writers {pc pc' : ReaderPc} {s₁ : ReadersWriters}
    (hstep : s.reader pc = some (s₁, pc')) : s₁.writers = s.writers := by
  cases pc with
  | waitRc | waitDb | waitRcAgain =>
      obtain ⟨value, -, hsome⟩ := Option.bind_eq_some_iff.mp hstep
      cases hsome
      rfl
  | _ =>
      cases hstep
      try rfl

/-- No writer comes or goes. -/
theorem length_writers {act : ReadersWritersAct} (hstep : s.step act = some s') :
    s'.writers.length = s.writers.length := by
  cases act with
  | reader i =>
      obtain ⟨pc, -, hstep⟩ := Option.bind_eq_some_iff.mp hstep
      obtain ⟨⟨s₁, pc'⟩, hreader, hstep⟩ := Option.bind_eq_some_iff.mp hstep
      rw [← Option.some.inj hstep]
      have hsame := reader_writers hreader
      exact congrArg List.length hsame
  | writer i =>
      obtain ⟨pc, -, hstep⟩ := Option.bind_eq_some_iff.mp hstep
      obtain ⟨⟨s₁, pc'⟩, hwriter, hstep⟩ := Option.bind_eq_some_iff.mp hstep
      rw [← Option.some.inj hstep]
      exact List.length_set.trans (congrArg List.length (writer_writers hwriter))

theorem length_writers_of_run {readers writers : Nat} {acts : List ReadersWritersAct}
    (hrun : Reaches readers writers b acts s) : s.writers.length = writers :=
  hrun.invariant (fun s => s.writers.length = writers)
    (fun h _ hstep => (length_writers hstep).trans h) List.length_replicate

theorem countP_counted (pcs : List ReaderPc) :
    pcs.countP ReaderPc.counted =
      pcs.countP ReaderPc.entered + pcs.countP ReaderPc.waitsDb := by
  induction pcs with
  | nil => rfl
  | cons pc rest ih =>
      rw [List.countP_cons, List.countP_cons, List.countP_cons, ih]
      cases pc <;> simp only [ReaderPc.counted, ReaderPc.entered, ReaderPc.waitsDb,
        Bool.false_eq_true, ↓reduceIte] <;> omega

/-- A writer in its critical section is alone, the readers are counted, and every
writer has written when all threads have finished. -/
theorem readers_writers_exclusion {readers writers : Nat} {acts : List ReadersWritersAct}
    (hrun : Reaches readers writers b acts s) :
    (∀ (i j : Nat) pc pc', s.writers[i]? = some pc → pc.entered = true →
      s.writers[j]? = some pc' → pc'.entered = true → i = j) ∧
    (∀ (i j : Nat) pc pc', s.writers[i]? = some pc → pc.entered = true →
      s.readers[j]? = some pc' → pc'.entered = false) ∧
    s.readcount = (s.readers.countP ReaderPc.counted : Nat) ∧
    ((∀ pc ∈ s.readers, pc = .finished) → (∀ pc ∈ s.writers, pc = .finished) →
      s.buffer = b + (writers : Nat)) := by
  have hinv := Inv.of_run hrun
  obtain ⟨hone, hnone⟩ := hinv.writers_entered
  refine ⟨fun i j pc pc' hi hpc hj hpc' => eq_of_countP_le_one hone hi hpc hj hpc',
    fun i j pc pc' hi hpc hj => ?_, ?_, fun _ hfinished => ?_⟩
  · by_contra hentered
    have hwriter : 0 < s.numWriters WriterPc.entered :=
      List.countP_pos_iff.mpr ⟨pc, List.mem_of_getElem? hi, hpc⟩
    have hreader : 0 < s.numReaders ReaderPc.entered :=
      List.countP_pos_iff.mpr ⟨pc', List.mem_of_getElem? hj, by simpa using hentered⟩
    exact absurd (hnone hreader) (Nat.ne_of_gt hwriter)
  · rw [hinv.readcount_eq, countP_counted]
    rfl
  · have hstored : s.numWriters WriterPc.stored = writers := by
      rw [← length_writers_of_run hrun]
      refine List.countP_eq_length.mpr fun pc hpc => ?_
      rw [hfinished pc hpc]
      rfl
    rw [hinv.buffer_eq, hstored]

theorem semWait_of_pos {value : Nat} (h : 0 < value) :
    ∃ value', semWait value = some value' := by
  obtain ⟨value', rfl⟩ := Nat.exists_eq_add_of_lt h
  exact ⟨_, rfl⟩

/-- Only `sem_wait` can keep a reader from its next step. -/
theorem exists_reader_step {pc : ReaderPc} (hmem : pc ∈ s.readers)
    (hfinished : pc ≠ .finished) (hrc : pc = .waitRc ∨ pc = .waitRcAgain → 0 < s.rc)
    (hdb : pc = .waitDb → 0 < s.db) : ∃ act s', s.step act = some s' := by
  obtain ⟨i, hi⟩ := List.mem_iff_getElem?.mp hmem
  have hstep : ∃ next, s.reader pc = some next := by
    cases pc with
    | waitRc =>
        obtain ⟨rc, hwait⟩ := semWait_of_pos (hrc (Or.inl rfl))
        exact ⟨_, by rw [reader, hwait]; rfl⟩
    | waitRcAgain =>
        obtain ⟨rc, hwait⟩ := semWait_of_pos (hrc (Or.inr rfl))
        exact ⟨_, by rw [reader, hwait]; rfl⟩
    | waitDb =>
        obtain ⟨db, hwait⟩ := semWait_of_pos (hdb rfl)
        exact ⟨_, by rw [reader, hwait]; rfl⟩
    | finished => exact absurd rfl hfinished
    | _ => exact ⟨_, rfl⟩
  obtain ⟨next, hnext⟩ := hstep
  exact ⟨.reader i, _, by rw [step, hi, Option.bind_eq_bind, Option.bind_some, hnext]; rfl⟩

theorem exists_writer_step {pc : WriterPc} (hmem : pc ∈ s.writers)
    (hfinished : pc ≠ .finished) (hdb : pc = .waitDb → 0 < s.db) :
    ∃ act s', s.step act = some s' := by
  obtain ⟨i, hi⟩ := List.mem_iff_getElem?.mp hmem
  have hstep : ∃ next, s.writer pc = some next := by
    cases pc with
    | waitDb =>
        obtain ⟨db, hwait⟩ := semWait_of_pos (hdb rfl)
        exact ⟨_, by rw [writer, hwait]; rfl⟩
    | finished => exact absurd rfl hfinished
    | _ => exact ⟨_, rfl⟩
  obtain ⟨next, hnext⟩ := hstep
  exact ⟨.writer i, _, by rw [step, hi, Option.bind_eq_bind, Option.bind_some, hnext]; rfl⟩

/-- Whoever has a semaphore, or is the first to wait for it, can go on. -/
theorem Inv.holder_steps (h : Inv b s) :
    (∃ act s', s.step act = some s') ∨ s.rc = 1 ∧
      s.numReaders ReaderPc.waitsDb = 0 ∧ s.numWriters WriterPc.entered = 0 ∧
        (s.numReaders ReaderPc.entered = 0 → s.db = 1) := by
  have hreader : ∀ p : ReaderPc → Bool, 0 < s.numReaders p →
      ∃ pc ∈ s.readers, p pc = true := fun p hpos => List.countP_pos_iff.mp hpos
  rcases Nat.eq_zero_or_pos (s.numWriters WriterPc.entered) with hwriters | hpos
  · rcases Nat.eq_zero_or_pos (s.numReaders ReaderPc.holdsRc) with hholds | hpos
    · rcases Nat.eq_zero_or_pos (s.numReaders ReaderPc.postsDb) with hposts | hpos
      · rcases Nat.eq_zero_or_pos (s.numReaders ReaderPc.waitsDb) with hwaits | hpos
        · obtain ⟨hrc, hfree, -, -, -, -, -, -, -⟩ := h
          exact Or.inr ⟨by omega, hwaits, hwriters, fun hentered => by
            have hdb := hfree (by omega)
            omega⟩
        · -- no reader is in, so that `db` is free
          obtain ⟨pc, hmem, hpc⟩ := hreader _ hpos
          have hdb := h.db_held (Nat.add_pos_right _ hpos)
          refine Or.inl (exists_reader_step hmem ?_ ?_ fun _ => by omega)
          · rintro rfl
            cases hpc
          · rintro (rfl | rfl) <;> cases hpc
      · obtain ⟨pc, hmem, hpc⟩ := hreader _ hpos
        refine Or.inl (exists_reader_step hmem ?_ ?_ ?_)
        · rintro rfl
          cases hpc
        · rintro (rfl | rfl) <;> cases hpc
        · rintro rfl
          cases hpc
    · obtain ⟨pc, hmem, hpc⟩ := hreader _ hpos
      refine Or.inl (exists_reader_step hmem ?_ ?_ ?_)
      · rintro rfl
        cases hpc
      · rintro (rfl | rfl) <;> cases hpc
      · rintro rfl
        cases hpc
  · obtain ⟨pc, hmem, hpc⟩ := List.countP_pos_iff.mp hpos
    refine Or.inl (exists_writer_step hmem ?_ ?_)
    · rintro rfl
      cases hpc
    · rintro rfl
      cases hpc

/-- Whoever has not finished, some thread can take its next step. -/
theorem readers_writers_progress {readers writers : Nat} {acts : List ReadersWritersAct}
    (hrun : Reaches readers writers b acts s)
    (hunfinished : (∃ pc ∈ s.readers, pc ≠ .finished) ∨
      ∃ pc ∈ s.writers, pc ≠ .finished) :
    ∃ act s', s.step act = some s' := by
  rcases (Inv.of_run hrun).holder_steps with hsteps | ⟨hrc, hwaits, -, hdb⟩
  · exact hsteps
  · by_cases hreaders : ∃ pc ∈ s.readers, pc ≠ .finished
    · obtain ⟨pc, hmem, hpc⟩ := hreaders
      refine exists_reader_step hmem hpc (fun _ => by omega) ?_
      rintro rfl
      exact absurd rfl (List.countP_eq_zero.mp hwaits _ hmem)
    · obtain ⟨pc, hmem, hpc⟩ := hunfinished.resolve_left hreaders
      have hentered : s.numReaders ReaderPc.entered = 0 := by
        refine List.countP_eq_zero.mpr fun pc hmem hentered => hreaders ⟨pc, hmem, ?_⟩
        rintro rfl
        cases hentered
      exact exists_writer_step hmem hpc fun _ => hdb hentered ▸ Nat.zero_lt_one

namespace ReadersWritersWitness

/-- Two readers and a writer; the first reader is in and the second has counted
itself. -/
def twoReaders : List ReadersWritersAct :=
  List.replicate 5 (ReadersWritersAct.reader 0) ++
    List.replicate 3 (ReadersWritersAct.reader 1)

theorem readers_writers_two_readers :
    ∃ s, Reaches 2 1 0 twoReaders s ∧ s.readcount = 2 ∧
      s.readcount = (s.readers.countP ReaderPc.counted : Nat) := by
  obtain ⟨s, hs, hcount⟩ : ∃ s, twoReaders.foldlM step (start 2 1 0) = some s ∧
      s.readcount = 2 := ⟨_, rfl, rfl⟩
  have hrun : Reaches 2 1 0 twoReaders s := Run.of_foldlM hs
  exact ⟨s, hrun, hcount, (readers_writers_exclusion hrun).2.2.1⟩

theorem readers_writers_reader_inside :
    ∃ s, Reaches 2 1 0 twoReaders s ∧ ReaderPc.inside ∈ s.readers ∧
      ∃ act s', s.step act = some s' := by
  obtain ⟨s, hs, hinside⟩ : ∃ s, twoReaders.foldlM step (start 2 1 0) = some s ∧
      ReaderPc.inside ∈ s.readers := ⟨_, rfl, by decide⟩
  have hrun : Reaches 2 1 0 twoReaders s := Run.of_foldlM hs
  exact ⟨s, hrun, hinside, readers_writers_progress hrun (Or.inl ⟨_, hinside, nofun⟩)⟩

end ReadersWritersWitness

end ReadersWriters

end PintosLabs
