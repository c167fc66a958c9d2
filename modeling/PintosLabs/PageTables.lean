/-
Page directories and page tables (userprog/pagedir.c, threads/pte.h): words in
memory, two levels of them, which say where the pages of a user process are.  The
processor's cache of the entries is left out.
-/
import PintosLabs.PageAllocator

namespace PintosLabs

open Exec (pgsize physBase)
open Palloc (State Flags noFlags pallocGetPage pallocFreePage)

namespace PageTables

/-! threads/vaddr.h and threads/pte.h -/

def isUserVaddr (va : Nat) : Bool := decide (va < physBase)

/-- `ptov`: where physical memory is mapped. -/
def ptov (paddr : Nat) : Option Nat := if paddr < physBase then some (paddr + physBase) else none

def vtop (va : Nat) : Option Nat := if physBase ≤ va then some (va - physBase) else none

/-- The entries of a page table, and of a page directory. -/
def entryCnt : Nat := 1024

def ptNo (va : Nat) : Nat := va / pgsize % entryCnt

def pdNo (va : Nat) : Nat := va / (pgsize * entryCnt)

/-- The page directory entries for user memory. -/
def userEntryCnt : Nat := pdNo physBase

def pteAddr : BitVec 32 := 0xfffff000

/-- Present. -/
def pteP : BitVec 32 := 0x1

/-- Writable. -/
def pteW : BitVec 32 := 0x2

/-- For user code too. -/
def pteU : BitVec 32 := 0x4

/-- Accessed. -/
def pteA : BitVec 32 := 0x20

/-- Dirty. -/
def pteD : BitVec 32 := 0x40

def pdeCreate (pt : Nat) : Option (BitVec 32) :=
  if pgOfs pt = 0 then (vtop pt).map fun paddr => BitVec.ofNat 32 paddr ||| pteU ||| pteP ||| pteW
  else none

def pdeGetPt (pde : BitVec 32) : Option Nat :=
  if pde &&& pteP ≠ 0 then ptov (pde &&& pteAddr).toNat else none

def pteCreateKernel (page : Nat) (writable : Bool) : Option (BitVec 32) :=
  if pgOfs page = 0 then
    (vtop page).map fun paddr =>
      BitVec.ofNat 32 paddr ||| pteP ||| (if writable then pteW else 0)
  else none

def pteCreateUser (page : Nat) (writable : Bool) : Option (BitVec 32) :=
  (pteCreateKernel page writable).map fun pte => pte ||| pteU

def pteGetPage (pte : BitVec 32) : Option Nat := ptov (pte &&& pteAddr).toNat

/-! userprog/pagedir.c -/

/-- The kernel: its memory, `init_page_dir` and `init_ram_pages`. -/
structure Kernel where
  pages : State
  initPageDir : Nat
  initRamPages : Nat

namespace Kernel

def memory (k : Kernel) : ByteMemory := k.pages.memory

def setPages (k : Kernel) (pages : State) : Kernel := { k with pages := pages }

def setMemory (k : Kernel) (memory : ByteMemory) : Kernel :=
  { k with pages := k.pages.setMemory memory }

def storeWord (k : Kernel) (a : Nat) (w : BitVec 32) : Kernel :=
  k.setMemory (k.memory.storeWord a w)

def pagedirCreate (k : Kernel) : Option (Nat × Kernel) := do
  let (pd, pages) ← pallocGetPage noFlags k.pages
  let k := k.setPages pages
  if pd ≠ 0 then some (pd, k.setMemory (k.memory.copy pd k.initPageDir pgsize))
  else some (pd, k)

/-- `lookup_page`: where the page table entry for the address is. -/
def lookupPage (pd vaddr : Nat) (create : Bool) (k : Kernel) : Option (Option Nat × Kernel) :=
  if pd = 0 ∨ create = true ∧ isUserVaddr vaddr = false then none
  else
    let pde := pd + 4 * pdNo vaddr
    let entry (k : Kernel) : Option (Option Nat × Kernel) := do
      let pt ← pdeGetPt (k.memory.loadWord pde)
      some (some (pt + 4 * ptNo vaddr), k)
    if k.memory.loadWord pde = 0 then
      if create then do
        let (pt, pages) ← pallocGetPage { noFlags with zero := true } k.pages
        let k := k.setPages pages
        if pt = 0 then some (none, k)
        else do
          let w ← pdeCreate pt
          entry (k.storeWord pde w)
      else some (none, k)
    else entry k

def pagedirSetPage (pd upage kpage : Nat) (writable : Bool) (k : Kernel) :
    Option (Bool × Kernel) := do
  let paddr ← vtop kpage
  if pgOfs upage = 0 ∧ pgOfs kpage = 0 ∧ isUserVaddr upage = true ∧
      pgNo paddr < k.initRamPages ∧ pd ≠ k.initPageDir then do
    let (pte, k) ← k.lookupPage pd upage true
    match pte with
    | none => some (false, k)
    | some pte =>
        if k.memory.loadWord pte &&& pteP = 0 then do
          let w ← pteCreateUser kpage writable
          some (true, k.storeWord pte w)
        else none
  else none

/-- The kernel address of a user address, or zero. -/
def pagedirGetPage (pd uaddr : Nat) (k : Kernel) : Option Nat :=
  if isUserVaddr uaddr then do
    let (pte, k) ← k.lookupPage pd uaddr false
    match pte with
    | none => some 0
    | some pte =>
        let w := k.memory.loadWord pte
        if w &&& pteP ≠ 0 then do
          let page ← pteGetPage w
          some (page + pgOfs uaddr)
        else some 0
  else none

def pagedirClearPage (pd upage : Nat) (k : Kernel) : Option Kernel :=
  if pgOfs upage = 0 ∧ isUserVaddr upage = true then do
    let (pte, k) ← k.lookupPage pd upage false
    match pte with
    | none => some k
    | some pte =>
        let w := k.memory.loadWord pte
        if w &&& pteP ≠ 0 then some (k.storeWord pte (w &&& ~~~ pteP)) else some k
  else none

/-- `pagedir_is_dirty` and `pagedir_is_accessed`, which test one bit each. -/
def pagedirIs (bit : BitVec 32) (pd vpage : Nat) (k : Kernel) : Option Bool := do
  let (pte, k) ← k.lookupPage pd vpage false
  match pte with
  | none => some false
  | some pte => some (decide (k.memory.loadWord pte &&& bit ≠ 0))

def pagedirIsDirty : Nat → Nat → Kernel → Option Bool := pagedirIs pteD

def pagedirIsAccessed : Nat → Nat → Kernel → Option Bool := pagedirIs pteA

/-- `pagedir_set_dirty` and `pagedir_set_accessed` -/
def pagedirSet (bit : BitVec 32) (pd vpage : Nat) (value : Bool) (k : Kernel) : Option Kernel := do
  let (pte, k) ← k.lookupPage pd vpage false
  match pte with
  | none => some k
  | some pte =>
      let w := k.memory.loadWord pte
      some (k.storeWord pte (if value then w ||| bit else w &&& ~~~ bit))

def pagedirSetDirty : Nat → Nat → Bool → Kernel → Option Kernel := pagedirSet pteD

def pagedirSetAccessed : Nat → Nat → Bool → Kernel → Option Kernel := pagedirSet pteA

/-- One turn of the inner loop of `pagedir_destroy`: a page is freed if it is there. -/
def freeEntry (pt j : Nat) (s : State) : Option State :=
  let pte := s.memory.loadWord (pt + 4 * j)
  if pte &&& pteP ≠ 0 then do
    let page ← pteGetPage pte
    pallocFreePage page s
  else some s

/-- The inner loop of `pagedir_destroy`. -/
def freeEntries (pt : Nat) (s : State) (js : List Nat) : Option State :=
  js.foldlM (fun s j => freeEntry pt j s) s

/-- One turn of the outer loop: a page table is freed with its pages. -/
def freeTable (pd i : Nat) (s : State) : Option State :=
  let pde := s.memory.loadWord (pd + 4 * i)
  if pde &&& pteP ≠ 0 then do
    let pt ← pdeGetPt pde
    let s ← freeEntries pt s (List.range entryCnt)
    pallocFreePage pt s
  else some s

/-- The outer loop. -/
def freeTables (pd : Nat) (s : State) (is : List Nat) : Option State :=
  is.foldlM (fun s i => freeTable pd i s) s

def pagedirDestroy (pd : Nat) (k : Kernel) : Option Kernel :=
  if pd = 0 then some k
  else if pd = k.initPageDir then none
  else do
    let s ← freeTables pd k.pages (List.range userEntryCnt)
    let s ← pallocFreePage pd s
    some (k.setPages s)

end Kernel

/-! Entries as words. -/

/-- The page that an entry points to, by its number, if it is present. -/
def frame (w : BitVec 32) : Option Nat :=
  if w &&& pteP ≠ 0 then some (pgNo physBase + w.toNat / pgsize) else none

theorem and_pteP_ne_zero {w : BitVec 32} : w &&& pteP ≠ 0 ↔ w.toNat % 2 = 1 := by
  have hand : (w &&& pteP).toNat = w.toNat % 2 := by
    rw [BitVec.toNat_and]
    exact Nat.and_one_is_mod w.toNat
  rw [Ne, ← BitVec.toNat_inj, hand]
  change ¬ w.toNat % 2 = 0 ↔ _
  omega

/-- An address and flags. -/
theorem toNat_address_or {m : Nat} {flags : BitVec 32} (hm : m < 2 ^ 20)
    (hflags : flags.toNat < pgsize) :
    (BitVec.ofNat 32 (m * pgsize) ||| flags).toNat = m * pgsize + flags.toNat := by
  rw [BitVec.toNat_or, BitVec.toNat_ofNat, pgsize] at *
  rw [Nat.mod_eq_of_lt (by omega), Nat.mul_comm m]
  exact (Nat.two_pow_add_eq_or_of_lt (i := 12) hflags m).symm

theorem address_and {m : Nat} {flags : BitVec 32} (hflags : flags.toNat < pgsize) :
    BitVec.ofNat 32 (m * pgsize) &&& flags = 0#32 := by
  apply BitVec.eq_of_getLsbD_eq
  intro i hi
  rw [BitVec.getLsbD_and, BitVec.getLsbD_zero, BitVec.getLsbD_ofNat, Bool.and_eq_false_iff]
  by_cases hlow : i < 12
  · refine Or.inl ?_
    rw [show m * pgsize = m * 2 ^ 12 from rfl, Nat.testBit_mul_two_pow]
    simp [Nat.not_le.mpr hlow]
  · refine Or.inr (Nat.testBit_lt_two_pow (Nat.lt_of_lt_of_le hflags ?_))
    exact Nat.pow_le_pow_right (n := 2) (i := 12) (by decide) (Nat.le_of_not_lt hlow)

theorem frame_address_or {m : Nat} {flags : BitVec 32} (hm : m < 2 ^ 20)
    (hflags : flags.toNat < pgsize) (hodd : flags.toNat % 2 = 1) :
    frame (BitVec.ofNat 32 (m * pgsize) ||| flags) = some (pgNo physBase + m) := by
  have hvalue := toNat_address_or hm hflags
  have hodd' : (BitVec.ofNat 32 (m * pgsize) ||| flags).toNat % 2 = 1 := by
    rw [hvalue, pgsize]
    omega
  rw [frame, if_pos (and_pteP_ne_zero.mpr hodd'), hvalue]
  congr 2
  rw [pgsize] at hflags ⊢
  omega

theorem toNat_and_pteAddr (w : BitVec 32) : (w &&& pteAddr).toNat = w.toNat / pgsize * pgsize := by
  have hshift : w &&& pteAddr = (w >>> 12) <<< 12 := by
    have haddr : pteAddr = BitVec.allOnes 32 <<< 12 := by decide
    rw [haddr]
    apply BitVec.eq_of_getLsbD_eq
    intro i hi
    simp only [BitVec.getLsbD_and, BitVec.getLsbD_shiftLeft, BitVec.getLsbD_ushiftRight,
      BitVec.getLsbD_allOnes]
    by_cases hlow : i < 12
    · simp [hlow]
    · have hback : 12 + (i - 12) = i := by omega
      have hin : i - 12 < 32 := by omega
      simp [hlow, hi, hback, hin]
  rw [hshift, BitVec.toNat_shiftLeft, BitVec.toNat_ushiftRight, Nat.shiftLeft_eq,
    Nat.shiftRight_eq_div_pow]
  have hlt := w.isLt
  have hle := Nat.div_mul_le_self w.toNat pgsize
  rw [pgsize] at hle ⊢
  rw [Nat.mod_eq_of_lt (by omega)]

theorem pteGetPage_eq {w : BitVec 32} {n : Nat} (hn : frame w = some n)
    (hlt : n < 2 * pgNo physBase) : pteGetPage w = some (n * pgsize) := by
  rw [frame] at hn
  split at hn
  case isFalse => cases hn
  case isTrue =>
    obtain rfl := Option.some.inj hn
    rw [pteGetPage, toNat_and_pteAddr, ptov]
    have hbase : physBase = pgNo physBase * pgsize := by decide
    have hmul : (pgNo physBase + w.toNat / pgsize) * pgsize =
        w.toNat / pgsize * pgsize + physBase := by
      rw [Nat.add_mul, ← hbase, Nat.add_comm]
    have hsmall : w.toNat / pgsize < pgNo physBase := by omega
    rw [if_pos, hmul]
    calc w.toNat / pgsize * pgsize < pgNo physBase * pgsize :=
          Nat.mul_lt_mul_of_pos_right hsmall (by decide)
      _ = physBase := hbase.symm

theorem pdeGetPt_eq {w : BitVec 32} {n : Nat} (hn : frame w = some n)
    (hlt : n < 2 * pgNo physBase) : pdeGetPt w = some (n * pgsize) := by
  have hpresent : w &&& pteP ≠ 0 := by
    intro hzero
    rw [frame, if_neg (fun hne => hne hzero)] at hn
    cases hn
  rw [pdeGetPt, if_pos hpresent]
  exact pteGetPage_eq hn hlt

theorem vtop_page {n : Nat} (hlow : pgNo physBase ≤ n) :
    vtop (n * pgsize) = some ((n - pgNo physBase) * pgsize) := by
  have hbase : physBase = pgNo physBase * pgsize := by decide
  rw [vtop, Nat.sub_mul, ← hbase, if_pos]
  calc physBase = pgNo physBase * pgsize := hbase
    _ ≤ n * pgsize := Nat.mul_le_mul_right _ hlow

theorem exists_pdeCreate {n : Nat} (hlow : pgNo physBase ≤ n) (hhigh : n < 2 ^ 20) :
    ∃ w, pdeCreate (n * pgsize) = some w ∧ frame w = some n := by
  have hofs : pgOfs (n * pgsize) = 0 := Nat.mul_mod_left n pgsize
  rw [pdeCreate, if_pos hofs, vtop_page hlow]
  refine ⟨_, rfl, ?_⟩
  change frame (BitVec.ofNat 32 _ ||| pteU ||| pteP ||| pteW) = _
  rw [BitVec.or_assoc, BitVec.or_assoc, frame_address_or (by omega) (by decide) (by decide),
    Nat.add_sub_cancel' hlow]

/-- The flags of a page of user memory. -/
def userFlags (writable : Bool) : BitVec 32 := pteP ||| (if writable then pteW else 0) ||| pteU

/-- A flag of an entry that says nothing about where its page is. -/
structure Mark (bit : BitVec 32) : Prop where
  high : bit >>> 12 = 0#32
  highNot : (~~~ bit) >>> 12 = BitVec.allOnes 32 >>> 12
  absent : bit &&& pteP = 0#32
  absentNot : ~~~ bit &&& pteP = pteP

theorem mark_pteA : Mark pteA := ⟨by decide, by decide, by decide, by decide⟩

theorem mark_pteD : Mark pteD := ⟨by decide, by decide, by decide, by decide⟩

theorem exists_pteCreateUser {n : Nat} (hlow : pgNo physBase ≤ n) (hhigh : n < 2 ^ 20)
    (writable : Bool) :
    ∃ w, pteCreateUser (n * pgsize) writable = some w ∧ frame w = some n ∧
      w &&& pteW = (if writable then pteW else 0) := by
  have hofs : pgOfs (n * pgsize) = 0 := Nat.mul_mod_left n pgsize
  have hm : n - pgNo physBase < 2 ^ 20 := by omega
  have hflags : (userFlags writable).toNat < pgsize ∧ (userFlags writable).toNat % 2 = 1 := by
    cases writable <;> decide
  have hw : pteCreateUser (n * pgsize) writable =
      some (BitVec.ofNat 32 ((n - pgNo physBase) * pgsize) ||| userFlags writable) := by
    rw [pteCreateUser, pteCreateKernel, if_pos hofs, vtop_page hlow, userFlags,
      ← BitVec.or_assoc, ← BitVec.or_assoc]
    rfl
  refine ⟨_, hw, ?_, ?_⟩
  · rw [frame_address_or hm hflags.1 hflags.2, Nat.add_sub_cancel' hlow]
  · rw [BitVec.and_or_distrib_right, address_and (by decide), BitVec.zero_or]
    cases writable <;> decide

theorem frame_congr {w w' : BitVec 32} (hp : w &&& pteP = w' &&& pteP)
    (hhigh : w >>> 12 = w' >>> 12) : frame w = frame w' := by
  have hdiv : w.toNat / pgsize = w'.toNat / pgsize := by
    have hshift := congrArg BitVec.toNat hhigh
    rw [BitVec.toNat_ushiftRight, BitVec.toNat_ushiftRight, Nat.shiftRight_eq_div_pow,
      Nat.shiftRight_eq_div_pow] at hshift
    exact hshift
  rw [frame, frame, hp, hdiv]

theorem frame_or {bit : BitVec 32} (hbit : Mark bit) (w : BitVec 32) :
    frame (w ||| bit) = frame w := by
  refine frame_congr ?_ ?_
  · rw [BitVec.and_comm, BitVec.and_or_distrib_left, BitVec.and_comm pteP bit, hbit.absent,
      BitVec.or_zero, BitVec.and_comm]
  · rw [BitVec.ushiftRight_or_distrib, hbit.high, BitVec.or_zero]

theorem frame_and_not {bit : BitVec 32} (hbit : Mark bit) (w : BitVec 32) :
    frame (w &&& ~~~ bit) = frame w := by
  refine frame_congr ?_ ?_
  · rw [BitVec.and_assoc, hbit.absentNot]
  · rw [BitVec.ushiftRight_and_distrib, hbit.highNot, ← BitVec.ushiftRight_and_distrib,
      BitVec.and_allOnes]

theorem frame_zero : frame 0 = none := by decide

theorem frame_clear (w : BitVec 32) : frame (w &&& ~~~ pteP) = none := by
  rw [frame, if_neg]
  rw [BitVec.and_assoc, show ~~~ pteP &&& pteP = 0#32 from by decide, BitVec.and_zero]
  exact fun hne => hne rfl

end PageTables

end PintosLabs
