/-
How the kernel maps itself before there are processes: `paging_init` of
threads/init.c.  No user address is mapped then, and the page directory is a page of
the kernel pool like any other.
-/
import PintosLabs.AddressCalls

namespace PintosLabs

open Exec (pgsize physBase)

namespace PageTables

open Palloc (Chunk State noFlags pallocGetPage pallocInit initPool)

/-- The kernel's code, between `_start` and `_end_kernel_text`. -/
structure KernelText where
  start : Nat
  stop : Nat

def KernelText.has (text : KernelText) (vaddr : Nat) : Bool :=
  decide (text.start ≤ vaddr) && decide (vaddr < text.stop)

namespace Kernel

/-- The page table for a kernel address: a new one, or the one in use. -/
def kernelTable (pd vaddr pt : Nat) (k : Kernel) : Option (Nat × Kernel) :=
  if k.memory.loadWord (pd + 4 * pdNo vaddr) = 0 then do
    let (pt, pages) ← pallocGetPage { noFlags with assert := true, zero := true } k.pages
    let w ← pdeCreate pt
    some (pt, (k.setPages pages).storeWord (pd + 4 * pdNo vaddr) w)
  else some (pt, k)

/-- An iteration of `paging_init`, with the page table `pt` in use. -/
def mapKernelPage (text : KernelText) (pd page pt : Nat) (k : Kernel) : Option (Nat × Kernel) := do
  let vaddr ← ptov (page * pgsize)
  let (pt, k) ← k.kernelTable pd vaddr pt
  let w ← pteCreateKernel vaddr !text.has vaddr
  some (pt, k.storeWord (pt + 4 * ptNo vaddr) w)

/-- The loop of `paging_init`. -/
def mapKernelPages (text : KernelText) (pd : Nat) :
    List Nat → Nat → Kernel → Option Kernel
  | [], _, k => some k
  | page :: pages, pt, k => do
      let (pt, k) ← k.mapKernelPage text pd page pt
      mapKernelPages text pd pages pt k

def pagingInit (text : KernelText) (initRamPages : Nat) (pages : State) : Option Kernel := do
  let (pd, pages) ← pallocGetPage { noFlags with assert := true, zero := true } pages
  mapKernelPages text pd (List.range initRamPages) 0 ⟨pages, pd, initRamPages⟩

end Kernel

/-- The part of the kernel's start that hands out pages. -/
def boot (text : KernelText) (userPageLimit initRamPages : Nat) (memory : ByteMemory) :
    Option Kernel := do
  let pages ← pallocInit userPageLimit initRamPages memory
  Kernel.pagingInit text initRamPages pages

variable {text : KernelText} {k k' : Kernel} {initPage page pt pt' userPageLimit initRamPages : Nat}
  {others : List Chunk} {memory : ByteMemory} {s : State}

/-! The pools lie in the memory that there is. -/

theorem pos_of_initPool {base pageCnt : Nat} {pool : Palloc.Pool}
    (hinit : initPool memory base pageCnt = some pool) : 0 < pageCnt := by
  rw [initPool] at hinit
  split at hinit
  case isFalse => cases hinit
  case isTrue hle =>
    rw [Bitmap.bitmapBufSize, pgsize] at hle
    omega

theorem inside_pallocInit (hinit : pallocInit userPageLimit initRamPages memory = some s)
    (user : Bool) : pgNo physBase ≤ (s.pool user).start ∧
      (s.pool user).stop ≤ pgNo physBase + initRamPages := by
  obtain ⟨kernelPool, hkernel, hinit⟩ := Option.bind_eq_some_iff.mp hinit
  obtain ⟨userPool, huser, hinit⟩ := Option.bind_eq_some_iff.mp hinit
  have hpos := pos_of_initPool hkernel
  have hofs : pgOfs (physBase + 1024 * 1024) = 0 := by decide
  have hstart : pgNo (physBase + 1024 * 1024) = pgNo physBase + 256 := by decide
  have hfree : (physBase + initRamPages * pgsize - (physBase + 1024 * 1024)) / pgsize =
      initRamPages - 256 := by
    rw [pgsize]
    omega
  rw [hfree] at hkernel huser hpos
  generalize hcnt : initRamPages - 256 - min ((initRamPages - 256) / 2) userPageLimit = cnt
    at hkernel huser hpos
  obtain ⟨_, hkstart, hkstop, _⟩ := Palloc.initPool_spec hkernel hofs
  have hno : pgNo (physBase + 1024 * 1024 + cnt * pgsize) = pgNo physBase + 256 + cnt :=
    (Nat.add_mul_div_right _ _ (by decide)).trans (congrArg (· + cnt) hstart)
  obtain ⟨_, hustart, hustop, _⟩ := Palloc.initPool_spec huser (by
    rw [pgOfs, Nat.add_mul_mod_self_right]
    exact hofs)
  rw [hstart] at hkstart hkstop
  rw [hno] at hustart hustop
  obtain rfl := Option.some.inj hinit
  cases user with
  | false =>
      change _ ≤ kernelPool.start ∧ kernelPool.stop ≤ _
      omega
  | true =>
      change _ ≤ userPool.start ∧ userPool.stop ≤ _
      omega

/-! The loop. -/

namespace Kernel

/-- While the kernel is being mapped: there is a table in use as soon as one of the
entries of the directory has been set. -/
structure Mapping (k : Kernel) (initPage pt : Nat) (others : List Chunk) : Prop where
  inv : k.Inv initPage [] others
  table : (∀ i < entryCnt, entryAt k.memory initPage i = 0) ∨
    ∃ t, pt = t * pgsize ∧ t ≠ initPage ∧ pageChunk t ∈ others

theorem initRamPages_storeWord (k : Kernel) (a : Nat) (w : BitVec 32) :
    (k.storeWord a w).initRamPages = k.initRamPages := rfl

theorem Inv.setMemory_nil (hinv : k.Inv initPage [] others)
    (huser : ∀ i < userEntryCnt, entryAt memory initPage i = 0) :
    (k.setMemory memory).Inv initPage [] others where
  exact := by
    have hexact := hinv.exact.setMemory memory
    rw [List.flatMap_nil] at hexact ⊢
    exact hexact
  inside := hinv.inside
  ram := hinv.ram
  space _ hpd := absurd hpd List.not_mem_nil
  init := hinv.init
  user := huser

/-- An address of the kernel has one of the upper entries of the directory. -/
theorem pdNo_kernel (hpage : page < 2 ^ 18) :
    userEntryCnt ≤ pdNo (page * pgsize + physBase) ∧
      pdNo (page * pgsize + physBase) < entryCnt := by
  have huser : userEntryCnt = 768 := by decide
  rw [huser, pdNo, pgsize, entryCnt, physBase]
  omega

/-- An entry of a table is set that is not the directory. -/
theorem Mapping.storeEntry (hinv : k.Inv initPage [] others) {t j : Nat} (hj : j < entryCnt)
    (ht : t ≠ initPage) (hmem : pageChunk t ∈ others) (w : BitVec 32) :
    (k.storeWord (t * pgsize + 4 * j) w).Mapping initPage (t * pgsize) others := by
  refine ⟨hinv.setMemory_nil fun i hi => ?_, Or.inr ⟨t, rfl, ht, hmem⟩⟩
  exact (entryAt_congr (agree_storeEntry_page hj (Ne.symm ht)) (lt_entryCnt hi)).trans
    (hinv.user i hi)

/-- A new table is one more page that is in use. -/
theorem Inv.newTable (hinv : k.Inv initPage [] others) {pages t i : Nat}
    (hi : userEntryCnt ≤ i) {w : BitVec 32}
    (hgot : Palloc.Got { noFlags with assert := true, zero := true } 1 (k.held [] others)
      k.pages pages s t) :
    ((k.setPages s).storeWord (initPage * pgsize + 4 * i) w).Inv initPage []
      (pageChunk t :: others) ∧ t ≠ initPage := by
  obtain ⟨hnext, _⟩ := hinv.get hgot
  constructor
  · refine hnext.setMemory_nil fun i' hi' => ?_
    exact (entryAt_storeWord_of_ne (by omega)).trans (hnext.user i' hi')
  · rintro rfl
    have happart := (List.pairwise_cons.mp hgot.exact.apart).1 _ hinv.init.2
    simp only [Chunk.Apart, pageChunk] at happart
    omega

theorem Mapping.step (h : k.Mapping initPage pt others) (hpage : page < k.initRamPages)
    (hstep : k.mapKernelPage text (initPage * pgsize) page pt = some (pt', k')) :
    k'.initRamPages = k.initRamPages ∧ ∃ others', k'.Mapping initPage pt' others' := by
  obtain ⟨hlow, hhigh⟩ := pdNo_kernel (Nat.lt_of_lt_of_le hpage h.inv.ram)
  obtain ⟨vaddr, hvaddr, hstep⟩ := Option.bind_eq_some_iff.mp hstep
  obtain rfl : page * pgsize + physBase = vaddr := by
    rw [ptov] at hvaddr
    split at hvaddr
    · exact Option.some.inj hvaddr
    · cases hvaddr
  have hentry := ptNo_lt (page * pgsize + physBase)
  obtain ⟨⟨table, k₁⟩, htable, hstep⟩ := Option.bind_eq_some_iff.mp hstep
  obtain ⟨w, _, hstep⟩ := Option.bind_eq_some_iff.mp hstep
  obtain ⟨rfl, rfl⟩ := Prod.mk.inj (Option.some.inj hstep)
  rw [kernelTable] at htable
  split at htable
  case isTrue =>
    obtain ⟨⟨pages, state⟩, hget, htable⟩ := Option.bind_eq_some_iff.mp htable
    obtain ⟨pde, _, htable⟩ := Option.bind_eq_some_iff.mp htable
    obtain ⟨rfl, rfl⟩ := Prod.mk.inj (Option.some.inj htable)
    rcases Palloc.pallocGetMultiple_cases h.inv.exact
        { noFlags with assert := true, zero := true } 1 with
      ⟨pages', state', t, hget', hgot⟩ | ⟨_, hget'⟩
    · obtain ⟨rfl, rfl⟩ := Prod.mk.inj (Option.some.inj (hget.symm.trans hget'))
      obtain ⟨hnext, hne⟩ := h.inv.newTable (w := pde) hlow hgot
      have hstored := Mapping.storeEntry hnext hentry hne List.mem_cons_self w
      rw [hgot.address]
      refine ⟨?_, _, hstored⟩
      rw [initRamPages_storeWord, initRamPages_storeWord]
      rfl
    · rw [if_pos ⟨by decide, rfl⟩] at hget'
      cases hget.symm.trans hget'
  case isFalse hset =>
    obtain ⟨rfl, rfl⟩ := Prod.mk.inj (Option.some.inj htable)
    rcases h.table with hzero | ⟨t, rfl, hne, hmem⟩
    · exact absurd (hzero (pdNo (page * pgsize + physBase)) hhigh) hset
    · have hstored := Mapping.storeEntry h.inv hentry hne hmem w
      exact ⟨initRamPages_storeWord k _ w, others, hstored⟩

theorem Mapping.steps {pages : List Nat} (h : k.Mapping initPage pt others)
    (hpages : ∀ page ∈ pages, page < k.initRamPages)
    (hsteps : mapKernelPages text (initPage * pgsize) pages pt k = some k') :
    ∃ others', k'.Inv initPage [] others' := by
  induction pages generalizing pt k others with
  | nil => exact ⟨others, Option.some.inj hsteps ▸ h.inv⟩
  | cons page pages ih =>
      obtain ⟨⟨pt₁, k₁⟩, hstep, hsteps⟩ := Option.bind_eq_some_iff.mp hsteps
      obtain ⟨hram, others', hnext⟩ := h.step (hpages page List.mem_cons_self) hstep
      refine ih hnext (fun page' hpage' => ?_) hsteps
      rw [hram]
      exact hpages page' (List.mem_cons_of_mem page hpage')

end Kernel

/-- When the kernel has mapped itself, there are no address spaces yet. -/
theorem inv_boot (hram : initRamPages ≤ 2 ^ 18)
    (hboot : boot text userPageLimit initRamPages memory = some k) :
    ∃ initPage others, k.Inv initPage [] others := by
  obtain ⟨pages, hpages, hboot⟩ := Option.bind_eq_some_iff.mp hboot
  obtain ⟨⟨pd, state⟩, hget, hboot⟩ := Option.bind_eq_some_iff.mp hboot
  rcases Palloc.pallocGetMultiple_cases (Palloc.exact_pallocInit hpages)
      { noFlags with assert := true, zero := true } 1 with
    ⟨pages', state', initPage, hget', hgot⟩ | ⟨_, hget'⟩
  · obtain ⟨rfl, rfl⟩ := Prod.mk.inj (Option.some.inj (hget.symm.trans hget'))
    obtain rfl := hgot.address
    have hzero : ∀ i < entryCnt, entryAt state.memory initPage i = 0 := fun i hi =>
      Kernel.entryAt_zero hgot.memory hi
    have hstart : (Kernel.mk state (initPage * pgsize) initRamPages).Mapping initPage 0
        [pageChunk initPage] := by
      refine ⟨⟨hgot.exact, fun user => ?_, hram, fun _ hpd => absurd hpd List.not_mem_nil,
        ⟨rfl, List.mem_cons_self⟩, fun i hi => hzero i (lt_entryCnt hi)⟩, Or.inl hzero⟩
      change pgNo physBase ≤ (state.pool user).start ∧ (state.pool user).stop ≤ _
      rw [(hgot.shape user).1, (hgot.shape user).2.1]
      exact inside_pallocInit hpages user
    obtain ⟨others, hinv⟩ := hstart.steps (fun page hpage => List.mem_range.mp hpage) hboot
    exact ⟨initPage, others, hinv⟩
  · rw [if_pos ⟨by decide, rfl⟩] at hget'
    cases hget.symm.trans hget'

end PageTables

end PintosLabs
