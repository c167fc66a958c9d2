/-
The memory of a process as the kernel uses it: which pages are there, and what a
piece of kernel code checks, locks, loads and stores on its way.
-/
import PintosLabs.ArgumentPassing

namespace PintosLabs
namespace UserMemory

open Exec (physBase pgsize)

/-- `PTR_BOTTOM` -/
def ptrBottom : Nat := 0x08048000

/-- The pages of an address space, by their numbers, and the bytes in it. -/
structure Pages where
  present : Nat → Bool
  writable : Nat → Bool
  byte : Nat → UInt8

inductive Lock where
  | filesys
  | cache

inductive Event where
  | check (address : Nat)
  | acquire (lock : Lock)
  | release (lock : Lock)
  | load (address : Nat)
  | store (address : Nat)

/-- `exit (-1)` after a check, or a page fault of the kernel. -/
inductive Stop where
  | exit
  | fault
  deriving DecidableEq

/-- What a piece of kernel code does, and what it returns unless it is stopped. -/
structure Run (α : Type) where
  events : List Event
  result : Except Stop α

def Run.bind {α β : Type} (r : Run α) (f : α → Run β) : Run β :=
  match r.result with
  | .ok a => ⟨r.events ++ (f a).events, (f a).result⟩
  | .error stop => ⟨r.events, .error stop⟩

instance : Monad Run where
  pure a := ⟨[], .ok a⟩
  bind := Run.bind

def stop {α : Type} (s : Stop) : Run α := ⟨[], .error s⟩

def acquire (lock : Lock) : Run Unit := ⟨[.acquire lock], .ok ()⟩

def release (lock : Lock) : Run Unit := ⟨[.release lock], .ok ()⟩

def load (m : Pages) (address : Nat) : Run UInt8 :=
  ⟨[.load address],
    if m.present (address / pgsize) then .ok (m.byte address) else .error .fault⟩

def store (m : Pages) (address : Nat) : Run Unit :=
  ⟨[.store address],
    if m.present (address / pgsize) ∧ m.writable (address / pgsize) then .ok ()
    else .error .fault⟩

/-- `for (int i = start; i < start + n; ++i)` -/
def forLoop (body : Nat → Run Unit) : Nat → Nat → Run Unit
  | 0, _ => pure ()
  | n + 1, i => do
      body i
      forLoop body n (i + 1)

/-- An address that `is_valid_ptr_single` accepts. -/
def Pages.Valid (m : Pages) (address : Nat) : Prop :=
  address ≠ 0 ∧ address < physBase ∧ ptrBottom ≤ address ∧
    m.present (address / pgsize) = true

instance (m : Pages) (address : Nat) : Decidable (m.Valid address) :=
  inferInstanceAs (Decidable (_ ∧ _ ∧ _ ∧ _))

def isValidPtrSingle (m : Pages) (ptr : Nat) : Run Unit :=
  if m.Valid ptr then ⟨[.check ptr], .ok ()⟩ else stop .exit

def isValidPtr (m : Pages) (ptr : Nat) : Run Unit := do
  isValidPtrSingle m ptr
  forLoop (fun i => isValidPtrSingle m (ptr + i)) 4 0

/-- The word at an address. -/
def Pages.word (m : Pages) (address : Nat) : Nat :=
  (m.byte address).toNat + 256 * (m.byte (address + 1)).toNat +
    256 ^ 2 * (m.byte (address + 2)).toNat + 256 ^ 3 * (m.byte (address + 3)).toNat

def loadWord (m : Pages) (address : Nat) : Run Nat := do
  let b₀ ← load m address
  let b₁ ← load m (address + 1)
  let b₂ ← load m (address + 2)
  let b₃ ← load m (address + 3)
  pure (b₀.toNat + 256 * b₁.toNat + 256 ^ 2 * b₂.toNat + 256 ^ 3 * b₃.toNat)

/-- Every byte that is loaded or stored was checked before the first lock was taken;
`checked` are those checked so far. -/
def Validated : (Nat → Prop) → Bool → List Event → Prop
  | _, _, [] => True
  | checked, locked, .check a :: events =>
      Validated (fun b => checked b ∨ locked = false ∧ b = a) locked events
  | checked, _, .acquire _ :: events => Validated checked true events
  | checked, locked, .release _ :: events => Validated checked locked events
  | checked, locked, .load a :: events => checked a ∧ Validated checked locked events
  | checked, locked, .store a :: events => checked a ∧ Validated checked locked events

/-- The bytes in use were all checked, and there is no page fault. -/
def Run.Safe {α : Type} (checked : Nat → Prop) (locked : Bool) (r : Run α) : Prop :=
  Validated checked locked r.events ∧ ∀ s, r.result = .error s → s ≠ .fault

variable {α β γ : Type} {m : Pages} {checked : Nat → Prop} {locked : Bool} {a p n i : Nat}
  {f : Unit → Run β}

theorem bind_eq (r : Run α) (f : α → Run β) : r >>= f = r.bind f := rfl

theorem bind_of_ok {r : Run α} {f : α → Run β} {x : α} (h : r.result = .ok x) :
    r >>= f = ⟨r.events ++ (f x).events, (f x).result⟩ := by
  rw [bind_eq, Run.bind, h]

theorem bind_of_error {r : Run α} {f : α → Run β} {s : Stop} (h : r.result = .error s) :
    r >>= f = ⟨r.events, .error s⟩ := by
  rw [bind_eq, Run.bind, h]

@[simp] theorem pure_bind (x : α) (f : α → Run β) : (pure x : Run α) >>= f = f x := rfl

@[simp] theorem stop_bind (s : Stop) (f : α → Run β) : stop s >>= f = stop s := rfl

@[simp] theorem bind_assoc (r : Run α) (f : α → Run β) (g : β → Run γ) :
    r >>= f >>= g = r >>= fun x => f x >>= g := by
  cases hr : r.result with
  | error s => rw [bind_of_error hr, bind_of_error hr, bind_of_error rfl]
  | ok x =>
      rw [bind_of_ok hr, bind_of_ok hr]
      cases hf : (f x).result with
      | error s =>
          rw [bind_of_error hf]
          rfl
      | ok y =>
          rw [bind_of_ok hf]
          change (⟨r.events ++ (f x).events ++ (g y).events, (g y).result⟩ : Run γ) = _
          rw [List.append_assoc]

theorem bind_pure_run (r : Run α) : r >>= pure = r := by
  obtain ⟨events, result⟩ := r
  cases result with
  | error s => rfl
  | ok x => exact congrArg (fun events => Run.mk events (.ok x)) (List.append_nil events)

@[simp] theorem safe_pure (x : α) : Run.Safe checked locked (pure x) :=
  ⟨trivial, fun _ h => by cases h⟩

@[simp] theorem safe_exit : Run.Safe checked locked (stop .exit : Run α) :=
  ⟨trivial, fun s h => by cases h; decide⟩

@[simp] theorem not_safe_fault : ¬ Run.Safe checked locked (stop .fault : Run α) :=
  fun h => h.2 .fault rfl rfl

@[simp] theorem safe_acquire {lock : Lock} :
    Run.Safe checked locked (acquire lock >>= f) ↔ Run.Safe checked true (f ()) :=
  Iff.rfl

@[simp] theorem safe_release {lock : Lock} :
    Run.Safe checked locked (release lock >>= f) ↔ Run.Safe checked locked (f ()) :=
  Iff.rfl

/-- What was checked is there. -/
def Present (m : Pages) (checked : Nat → Prop) : Prop := ∀ a, checked a → m.Valid a

theorem safe_load {f : UInt8 → Run β} (hchecked : Present m checked) :
    Run.Safe checked locked (load m a >>= f) ↔
      checked a ∧ Run.Safe checked locked (f (m.byte a)) := by
  by_cases hpresent : m.present (a / pgsize) = true
  · have hok : (load m a).result = .ok (m.byte a) := if_pos hpresent
    rw [bind_of_ok hok]
    exact and_assoc
  · have hfault : (load m a).result = .error .fault := if_neg hpresent
    rw [bind_of_error hfault]
    exact ⟨fun h => absurd rfl (h.2 .fault rfl),
      fun h => absurd (hchecked a h.1).2.2.2 hpresent⟩

theorem safe_store (hchecked : Present m checked) :
    Run.Safe checked locked (store m a >>= f) ↔
      (checked a ∧ m.writable (a / pgsize) = true) ∧ Run.Safe checked locked (f ()) := by
  by_cases hpage : m.present (a / pgsize) = true ∧ m.writable (a / pgsize) = true
  · have hok : (store m a).result = .ok () := if_pos hpage
    rw [bind_of_ok hok]
    constructor
    · rintro ⟨⟨ha, hevents⟩, hstop⟩
      exact ⟨⟨ha, hpage.2⟩, hevents, hstop⟩
    · rintro ⟨⟨ha, -⟩, hevents, hstop⟩
      exact ⟨⟨ha, hevents⟩, hstop⟩
  · have hfault : (store m a).result = .error .fault := if_neg hpage
    rw [bind_of_error hfault]
    exact ⟨fun h => absurd rfl (h.2 .fault rfl),
      fun h => absurd ⟨(hchecked a h.1.1).2.2.2, h.1.2⟩ hpage⟩

/-- A loop whose turns each need something of their byte needs it of all of them. -/
theorem safe_forLoop {body : Nat → Run Unit} {need : Nat → Prop}
    (hbody : ∀ i (f : Unit → Run β), Run.Safe checked locked (body i >>= f) ↔
      need i ∧ Run.Safe checked locked (f ())) :
    Run.Safe checked locked (forLoop body n i >>= f) ↔
      (∀ j, i ≤ j → j < i + n → need j) ∧ Run.Safe checked locked (f ()) := by
  induction n generalizing i with
  | zero => exact ⟨fun h => ⟨fun j hle hlt => absurd hlt (by omega), h⟩, fun h => h.2⟩
  | succ n ih =>
      rw [forLoop, bind_assoc, hbody, ih]
      constructor
      · rintro ⟨hi, hrest, hsafe⟩
        refine ⟨fun j hle hlt => ?_, hsafe⟩
        rcases Nat.eq_or_lt_of_le hle with rfl | hlt'
        · exact hi
        · exact hrest j (by omega) (by omega)
      · rintro ⟨hall, hsafe⟩
        exact ⟨hall i (by omega) (by omega), fun j hle hlt => hall j (by omega) (by omega),
          hsafe⟩

/-! The checks of a system call, while no lock is held. -/

/-- The bytes of the word at an address. -/
def InWord (address a : Nat) : Prop := address ≤ a ∧ a < address + 4

/-- An address at which `is_valid_ptr` returns. -/
def Pages.ValidWord (m : Pages) (address : Nat) : Prop :=
  ∀ i < 4, m.Valid (address + i)

theorem safe_isValidPtrSingle {f : Unit → Run β} :
    Run.Safe checked false (isValidPtrSingle m a >>= f) ↔
      (m.Valid a → Run.Safe (fun b => checked b ∨ b = a) false (f ())) := by
  rw [isValidPtrSingle]
  split
  case isTrue hvalid =>
    have hsame : (fun b => checked b ∨ b = a) =
        fun b => checked b ∨ false = false ∧ b = a := by
      funext b
      simp
    rw [hsame]
    exact ⟨fun h _ => h, fun h => h hvalid⟩
  case isFalse hvalid => exact ⟨fun _ h => absurd h hvalid, fun _ => by simp⟩

/-- What is checked once `is_valid_ptr` has returned. -/
def Checked (checked : Nat → Prop) (address : Nat) : Nat → Prop := fun b =>
  checked b ∨ InWord address b

theorem safe_isValidPtr {f : Unit → Run β} :
    Run.Safe checked false (isValidPtr m a >>= f) ↔
      (m.ValidWord a → Run.Safe (Checked checked a) false (f ())) := by
  have hword : m.ValidWord a ↔
      m.Valid a ∧ m.Valid (a + 1) ∧ m.Valid (a + 2) ∧ m.Valid (a + 3) := by
    constructor
    · intro h
      exact ⟨h 0 (by omega), h 1 (by omega), h 2 (by omega), h 3 (by omega)⟩
    · rintro ⟨h₀, h₁, h₂, h₃⟩ i hi
      obtain rfl | rfl | rfl | rfl : i = 0 ∨ i = 1 ∨ i = 2 ∨ i = 3 := by omega
      exacts [h₀, h₁, h₂, h₃]
  have hset : (fun b => (((((checked b ∨ b = a) ∨ b = a + 0) ∨ b = a + (0 + 1)) ∨
      b = a + (0 + 1 + 1)) ∨ b = a + (0 + 1 + 1 + 1))) = Checked checked a := by
    funext b
    refine propext ?_
    unfold Checked InWord
    constructor
    · rintro (((((h | h) | h) | h) | h) | h)
      · exact Or.inl h
      all_goals exact Or.inr (by omega)
    · rintro (h | h)
      · simp [h]
      · obtain h | h | h | h : b = a ∨ b = a + 1 ∨ b = a + 2 ∨ b = a + 3 := by omega
        all_goals simp [h]
  simp only [isValidPtr, forLoop, bind_assoc, safe_isValidPtrSingle, pure_bind]
  rw [hset, hword]
  constructor
  · rintro h ⟨h₀, h₁, h₂, h₃⟩
    exact h h₀ h₀ h₁ h₂ h₃
  · intro h h₀ _ h₁ h₂ h₃
    exact h ⟨h₀, h₁, h₂, h₃⟩

theorem Checked.present (hchecked : Present m checked) (hvalid : m.ValidWord a) :
    Present m (Checked checked a) := by
  rintro b (hb | ⟨hle, hlt⟩)
  · exact hchecked b hb
  · have := hvalid (b - a) (by omega)
    rwa [Nat.add_sub_cancel' hle] at this

theorem safe_loadWord {f : Nat → Run β} (hchecked : Present m checked)
    (hword : ∀ b, InWord a b → checked b) :
    Run.Safe checked locked (loadWord m a >>= f) ↔
      Run.Safe checked locked (f (m.word a)) := by
  have h₀ : checked a := hword a ⟨by omega, by omega⟩
  have h₁ : checked (a + 1) := hword _ ⟨by omega, by omega⟩
  have h₂ : checked (a + 2) := hword _ ⟨by omega, by omega⟩
  have h₃ : checked (a + 3) := hword _ ⟨by omega, by omega⟩
  simp only [loadWord, bind_assoc, safe_load hchecked, pure_bind, h₀, h₁, h₂, h₃, true_and]
  exact Iff.rfl

end UserMemory
end PintosLabs
