/-
Processes in address spaces of their own: pages are mapped and cleared, bytes are
stored by user code, directories come and go, in any order.  Each process finds in its
memory what it has put there itself.
-/
import PintosLabs.AddressRelease
import PintosLabs.Machine
import PintosLabs.PagingInit

namespace PintosLabs

open Exec (pgsize physBase)

namespace PageTables

open Palloc (Chunk State Flags noFlags pallocGetPage pallocFreePage apart_addresses)

namespace Kernel

/-- `install_page` (userprog/process.c) -/
def installPage (pd upage kpage : Nat) (writable : Bool) (k : Kernel) :
    Option (Bool × Kernel) := do
  let page ← k.pagedirGetPage pd upage
  if page = 0 then k.pagedirSetPage pd upage kpage writable else some (false, k)

/-- A page of zeros is mapped, as `setup_stack` does it. -/
def mapZeroed (pd upage : Nat) (writable : Bool) (k : Kernel) : Option (Bool × Kernel) := do
  let (kpage, pages) ← pallocGetPage { noFlags with user := true, zero := true } k.pages
  let k := k.setPages pages
  if kpage = 0 then some (false, k)
  else do
    let (success, k) ← k.installPage pd upage kpage writable
    if success then some (true, k)
    else do
      let pages ← pallocFreePage kpage k.pages
      some (false, k.setPages pages)

/-- A byte is stored by user code: the processor walks the tables, and there is a fault
unless the page is present and writable. -/
def userStore (pd uaddr : Nat) (byte : UInt8) (k : Kernel) : Option Kernel := do
  let (pte, k) ← k.lookupPage pd uaddr false
  let pte ← pte
  let w := k.memory.loadWord pte
  if w &&& pteP ≠ 0 ∧ w &&& pteW ≠ 0 then do
    let page ← pteGetPage w
    some (k.setMemory (k.memory.put (page + pgOfs uaddr) [byte]))
  else none

end Kernel

/-- A page as its process sees it. -/
structure UserPage where
  writable : Bool
  bytes : List UInt8

/-- The pages of a process, by their numbers. -/
abbrev View := Nat → Option UserPage

def View.store (v : View) (uaddr : Nat) (byte : UInt8) : View :=
  Function.update v (pgNo uaddr) ((v (pgNo uaddr)).map fun p =>
    { p with bytes := p.bytes.set (pgOfs uaddr) byte })

/-- The kernel, what each process has in its memory, by the page of its directory, and
the frames that have been cleared. -/
structure System where
  kernel : Kernel
  view : Nat → Option View
  lost : List Nat

inductive Act where
  | create
  | map (pd upage : Nat) (writable : Bool)
  | clear (pd upage : Nat)
  | store (pd uaddr : Nat) (byte : UInt8)
  | setDirty (pd upage : Nat) (value : Bool)
  | setAccessed (pd upage : Nat) (value : Bool)
  | destroy (pd : Nat)

namespace System

def step (s : System) : Act → Option System
  | .create => do
      let (pd, k) ← s.kernel.pagedirCreate
      some { s with
        kernel := k
        view := if pd = 0 then s.view
          else Function.update s.view (pgNo pd) (some fun _ => none) }
  | .map pd upage writable => do
      let v ← s.view pd
      let (success, k) ← s.kernel.mapZeroed (pd * pgsize) upage writable
      some { s with
        kernel := k
        view := if success then Function.update s.view pd (some (Function.update v (pgNo upage)
            (some ⟨writable, List.replicate pgsize 0⟩)))
          else s.view }
  | .clear pd upage => do
      let v ← s.view pd
      let k ← s.kernel.pagedirClearPage (pd * pgsize) upage
      some {
        kernel := k
        view := Function.update s.view pd (some (Function.update v (pgNo upage) none))
        lost := (mapped s.kernel.memory pd upage).toList ++ s.lost }
  | .store pd uaddr byte => do
      let v ← s.view pd
      let k ← s.kernel.userStore (pd * pgsize) uaddr byte
      some { s with kernel := k, view := Function.update s.view pd (some (v.store uaddr byte)) }
  | .setDirty pd upage value => do
      let _ ← s.view pd
      let k ← s.kernel.pagedirSetDirty (pd * pgsize) upage value
      some { s with kernel := k }
  | .setAccessed pd upage value => do
      let _ ← s.view pd
      let k ← s.kernel.pagedirSetAccessed (pd * pgsize) upage value
      some { s with kernel := k }
  | .destroy pd => do
      let _ ← s.view pd
      let k ← s.kernel.pagedirDestroy (pd * pgsize)
      some { s with kernel := k, view := Function.update s.view pd none }

/-- An act on the user memory of a process, at a page where the code asks for one. -/
def Proper (_ : System) : Act → Prop
  | .create => True
  | .map _ upage _ => pgOfs upage = 0 ∧ upage < physBase
  | .clear _ upage => pgOfs upage = 0 ∧ upage < physBase
  | .store _ uaddr _ => uaddr < physBase
  | .setDirty _ upage _ => upage < physBase
  | .setAccessed _ upage _ => upage < physBase
  | .destroy _ => True

/-- What there is for an act to be done on. -/
def Ready (s : System) : Act → Prop
  | .create => True
  | .map pd _ _ => (s.view pd).isSome = true
  | .clear pd _ => (s.view pd).isSome = true
  | .store pd uaddr _ => ∃ v p, s.view pd = some v ∧ v (pgNo uaddr) = some p ∧ p.writable = true
  | .setDirty pd _ _ => (s.view pd).isSome = true
  | .setAccessed pd _ _ => (s.view pd).isSome = true
  | .destroy pd => (s.view pd).isSome = true

def start (k : Kernel) : System := ⟨k, fun _ => none, []⟩

/-- What an address space shows at an address. -/
def Shows (k : Kernel) (pd va : Nat) : Option UserPage → Prop
  | none => mapped k.memory pd va = none
  | some p => ∃ n, mapped k.memory pd va = some n ∧ p.bytes.length = pgsize ∧
      k.memory.bytes (n * pgsize) pgsize = p.bytes ∧
      (pteAt k.memory pd va &&& pteW ≠ 0 ↔ p.writable = true)

/-- Each process sees its pages, and no page is missing but those that are lost. -/
structure Inv (s : System) (initPage : Nat) (base : List Chunk) (spaces : List Nat) : Prop where
  kernel : s.kernel.Inv initPage spaces (s.lost.map frameChunk ++ base)
  live : ∀ pd, (s.view pd).isSome = true ↔ pd ∈ spaces
  shows : ∀ pd v, s.view pd = some v → ∀ va < physBase, Shows s.kernel pd va (v (pgNo va))
  base : pageChunk initPage ∈ base

variable {s t : System} {k k' : Kernel} {initPage pd va n : Nat} {base others : List Chunk}
  {spaces : List Nat} {v : View} {p : Option UserPage} {w : BitVec 32}

theorem Inv.of {view : Nat → Option View} {lost : List Nat}
    (hk : k.Inv initPage spaces (lost.map frameChunk ++ base))
    (hlive : ∀ pd, (view pd).isSome = true ↔ pd ∈ spaces)
    (hshows : ∀ pd v, view pd = some v → ∀ va < physBase, Shows k pd va (v (pgNo va)))
    (hbase : pageChunk initPage ∈ base) : System.Inv ⟨k, view, lost⟩ initPage base spaces :=
  ⟨hk, hlive, hshows, hbase⟩

/-- What is shown does not change when neither the entry nor the frame does. -/
theorem Shows.congr (h : Shows k pd va p) (hpte : pteAt k'.memory pd va = pteAt k.memory pd va)
    (hframe : ∀ n, mapped k.memory pd va = some n →
      k.memory.Agree k'.memory (n * pgsize) pgsize) : Shows k' pd va p := by
  have hmapped : mapped k'.memory pd va = mapped k.memory pd va := congrArg frame hpte
  cases p with
  | none => exact hmapped.trans h
  | some p =>
      obtain ⟨n, hn, hlength, hbytes, hwritable⟩ := h
      refine ⟨n, hmapped.trans hn, hlength, ?_, hpte.symm ▸ hwritable⟩
      exact (hframe n hn).symm.bytes.trans hbytes

/-- A mark that does not change what is shown. -/
structure Unseen (bit : BitVec 32) : Prop extends Mark bit where
  writable : bit &&& pteW = 0#32
  writableNot : ~~~ bit &&& pteW = pteW

theorem unseen_pteA : Unseen pteA := ⟨mark_pteA, by decide, by decide⟩

theorem unseen_pteD : Unseen pteD := ⟨mark_pteD, by decide, by decide⟩

theorem marked_writable {bit : BitVec 32} (hbit : Unseen bit) (value : Bool) (w : BitVec 32) :
    Kernel.marked bit value w &&& pteW = w &&& pteW := by
  cases value with
  | true =>
      change (w ||| bit) &&& pteW = _
      rw [BitVec.and_or_distrib_right, hbit.writable, BitVec.or_zero]
  | false =>
      change (w &&& ~~~ bit) &&& pteW = _
      rw [BitVec.and_assoc, hbit.writableNot]

/-- A mark does not change what is shown. -/
theorem Shows.mark {bit : BitVec 32} (hbit : Unseen bit) {value : Bool} (h : Shows k pd va p)
    (hpte : pteAt k'.memory pd va = Kernel.marked bit value (pteAt k.memory pd va))
    (hframe : ∀ n, mapped k.memory pd va = some n →
      k.memory.Agree k'.memory (n * pgsize) pgsize) : Shows k' pd va p := by
  have hmapped : mapped k'.memory pd va = mapped k.memory pd va :=
    (congrArg frame hpte).trans (Kernel.frame_marked hbit.toMark value _)
  cases p with
  | none => exact hmapped.trans h
  | some p =>
      obtain ⟨n, hn, hlength, hbytes, hwritable⟩ := h
      refine ⟨n, hmapped.trans hn, hlength, (hframe n hn).symm.bytes.trans hbytes, ?_⟩
      rw [hpte, marked_writable hbit]
      exact hwritable

theorem Inv.live_of_view (hinv : s.Inv initPage base spaces) (hv : s.view pd = some v) :
    pd ∈ spaces := (hinv.live pd).mp (hv ▸ rfl)

/-- The other address spaces show what they showed. -/
theorem Inv.shows_kept (hinv : s.Inv initPage base spaces) (hv : s.view pd = some v)
    (hva : va < physBase) (hpte : pteAt k'.memory pd va = pteAt s.kernel.memory pd va)
    (hkeeps : s.kernel.Keeps k' spaces others) : Shows k' pd va (v (pgNo va)) :=
  (hinv.shows pd v hv va hva).congr hpte fun n hn =>
    hkeeps.frames pd (hinv.live_of_view hv) va hva n hn

/-- A step can be taken, and it keeps the invariant. -/
def Goes (s : System) (initPage : Nat) (base : List Chunk) (act : Act) : Prop :=
  ∃ t spaces, s.step act = some t ∧ t.Inv initPage base spaces

theorem Inv.goes_create (hinv : s.Inv initPage base spaces) : s.Goes initPage base .create := by
  rw [Goes, step]
  rcases hinv.kernel.create_cases with ⟨pd, k, hcreate, hne, hcreated⟩ | ⟨hcreate, _⟩
  · have hnumber : pgNo (pd * pgsize) = pd := Nat.mul_div_cancel pd (by decide)
    have hnext : System.Inv ⟨k, Function.update s.view pd (some fun _ => none), s.lost⟩ initPage
        base (pd :: spaces) := by
      refine Inv.of hcreated.inv (fun pd' => ?_) (fun pd' v hv va hva => ?_) hinv.base
      · by_cases hpd : pd' = pd
        · rw [hpd, Function.update_self]
          exact ⟨fun _ => List.mem_cons_self, fun _ => rfl⟩
        · rw [Function.update_of_ne hpd, hinv.live, List.mem_cons, or_iff_right hpd]
      · by_cases hpd : pd' = pd
        · rw [hpd, Function.update_self] at hv
          obtain rfl := Option.some.inj hv
          rw [hpd]
          exact (congrArg frame (hcreated.empty va hva)).trans frame_zero
        · rw [Function.update_of_ne hpd] at hv
          exact hinv.shows_kept hv hva (hcreated.pteAt_eq pd' (hinv.live_of_view hv) va hva)
            hcreated.keeps
    refine ⟨_, _, ?_, hnext⟩
    rw [hcreate]
    change some (System.mk k (if pd * pgsize = 0 then _ else _) s.lost) = _
    rw [if_neg hne, hnumber]
  · refine ⟨s, spaces, ?_, hinv⟩
    rw [hcreate]
    rfl

/-- A change that no process sees. -/
theorem Inv.unseen (hinv : s.Inv initPage base spaces)
    (hk : k.Inv initPage spaces (s.lost.map frameChunk ++ base))
    (hpte : ∀ pd ∈ spaces, ∀ va < physBase, pteAt k.memory pd va = pteAt s.kernel.memory pd va)
    (hkeeps : s.kernel.Keeps k spaces []) :
    System.Inv ⟨k, s.view, s.lost⟩ initPage base spaces :=
  ⟨hk, hinv.live, fun _ _ hv va hva =>
    hinv.shows_kept hv hva (hpte _ (hinv.live_of_view hv) va hva) hkeeps, hinv.base⟩

/-- One page of one process is another one. -/
theorem Inv.next (lost : List Nat) (hinv : s.Inv initPage base spaces) {upage : Nat}
    (hv : s.view pd = some v) (hk : k.Inv initPage spaces (lost.map frameChunk ++ base))
    (hkeeps : s.kernel.Keeps k spaces others) (hentry : Kernel.Entry s.kernel k spaces pd upage w)
    (hhere : ∀ va < physBase, pgNo va = pgNo upage → Shows k pd va p) :
    System.Inv ⟨k, Function.update s.view pd (some (Function.update v (pgNo upage) p)), lost⟩
      initPage base spaces := by
  refine Inv.of hk (fun pd' => ?_) (fun pd' v' hv' va hva => ?_) hinv.base
  · by_cases hpd : pd' = pd
    · rw [hpd, Function.update_self]
      exact ⟨fun _ => hinv.live_of_view hv, fun _ => rfl⟩
    · rw [Function.update_of_ne hpd]
      exact hinv.live pd'
  · by_cases hpd : pd' = pd
    · rw [hpd, Function.update_self] at hv'
      obtain rfl := Option.some.inj hv'
      rw [hpd]
      by_cases hpg : pgNo va = pgNo upage
      · rw [hpg, Function.update_self]
        exact hhere va hva hpg
      · rw [Function.update_of_ne hpg]
        exact hinv.shows_kept hv hva
          (hentry.elsewhere pd (hinv.live_of_view hv) va hva (Or.inr hpg)) hkeeps
    · rw [Function.update_of_ne hpd] at hv'
      exact hinv.shows_kept hv' hva
        (hentry.elsewhere pd' (hinv.live_of_view hv') va hva (Or.inl hpd)) hkeeps

theorem pteAt_of_pgNo (pd : Nat) {m : ByteMemory} {va va' : Nat} (h : pgNo va = pgNo va') :
    pteAt m pd va = pteAt m pd va' := by
  rw [pteAt, pteAt, pdNo_eq_of_pgNo h, ptNo_eq_of_pgNo h]

/-- Nothing is in the view where nothing is mapped. -/
theorem Inv.view_none (hinv : s.Inv initPage base spaces) (hv : s.view pd = some v)
    (hva : va < physBase) (hnone : mapped s.kernel.memory pd va = none) : v (pgNo va) = none := by
  have hshows := hinv.shows pd v hv va hva
  cases hp : v (pgNo va) with
  | none => rfl
  | some p =>
      rw [hp] at hshows
      obtain ⟨n, hn, _⟩ := hshows
      cases hnone.symm.trans hn

theorem Inv.goes_clear (hinv : s.Inv initPage base spaces) {upage : Nat}
    (hproper : pgOfs upage = 0 ∧ upage < physBase) (hready : (s.view pd).isSome = true) :
    s.Goes initPage base (.clear pd upage) := by
  obtain ⟨v, hv⟩ := Option.isSome_iff_exists.mp hready
  rw [Goes, step, hv]
  rcases hinv.kernel.clearPage_cases (hinv.live_of_view hv) hproper.2 hproper.1 with
    ⟨hnone, hclear⟩ | ⟨n, k, w, hn, hclear, hk, hentry, hw, hkeeps⟩
  · have hview := hinv.view_none hv hproper.2 hnone
    have hsame : Function.update s.view pd (some (Function.update v (pgNo upage) none)) =
        s.view := by
      rw [← hview, Function.update_eq_self, ← hv, Function.update_eq_self]
    refine ⟨s, spaces, ?_, hinv⟩
    rw [hclear, hnone]
    change some (System.mk s.kernel (Function.update s.view pd _) ([] ++ s.lost)) = some s
    rw [hsame]
    rfl
  · refine ⟨_, spaces, ?_, hinv.next (n :: s.lost) (p := none) hv hk hkeeps hentry ?_⟩
    · rw [hclear, hn]
      rfl
    · intro va hva hpg
      exact (congrArg frame (hentry.here va hva hpg)).trans hw

theorem Inv.goes_destroy (hinv : s.Inv initPage base spaces)
    (hready : (s.view pd).isSome = true) : s.Goes initPage base (.destroy pd) := by
  obtain ⟨v, hv⟩ := Option.isSome_iff_exists.mp hready
  rw [Goes, step, hv]
  have hpd := hinv.live_of_view hv
  have hnodup := hinv.kernel.nodup_spaces
  obtain ⟨k, hdestroy, hk, hpte, hkeeps⟩ :=
    hinv.kernel.exists_destroy (List.perm_cons_erase hpd)
  have hnext : System.Inv ⟨k, Function.update s.view pd none, s.lost⟩ initPage base
      (spaces.erase pd) := by
    refine Inv.of hk (fun pd' => ?_) (fun pd' v' hv' va hva => ?_) hinv.base
    · rw [hnodup.mem_erase_iff]
      by_cases hpd' : pd' = pd
      · rw [hpd', Function.update_self]
        exact ⟨fun hsome => absurd hsome Bool.false_ne_true, fun hmem => absurd rfl hmem.1⟩
      · rw [Function.update_of_ne hpd', hinv.live, and_iff_right hpd']
    · by_cases hpd' : pd' = pd
      · rw [hpd', Function.update_self] at hv'
        cases hv'
      · rw [Function.update_of_ne hpd'] at hv'
        have hmem := hnodup.mem_erase_iff.mpr ⟨hpd', hinv.live_of_view hv'⟩
        exact (hinv.shows pd' v' hv' va hva).congr (hpte pd' hmem va hva)
          fun n hn => hkeeps.frames pd' hmem va hva n hn
  refine ⟨_, _, ?_, hnext⟩
  rw [hdestroy]
  rfl

/-! Marks -/

/-- Marking a page changes nothing that its process sees. -/
theorem Inv.goes_set {bit : BitVec 32} (hbit : Unseen bit) (hinv : s.Inv initPage base spaces)
    (hv : s.view pd = some v) (hva : va < physBase) (value : Bool) :
    ∃ k, s.kernel.pagedirSet bit (pd * pgsize) va value = some k ∧
      System.Inv ⟨k, s.view, s.lost⟩ initPage base spaces := by
  rcases hinv.kernel.set_cases hbit.toMark (hinv.live_of_view hv) hva value with
    ⟨_, hset⟩ | ⟨k, hset, hk, hentry, hkeeps⟩
  · exact ⟨s.kernel, hset, hinv⟩
  · have hnext := hinv.next s.lost (p := v (pgNo va)) hv hk hkeeps hentry
      fun va' hva' hpg => by
        have hsame := pteAt_of_pgNo pd (m := s.kernel.memory) hpg
        have hshows := hinv.shows pd v hv va' hva'
        rw [hpg] at hshows
        have hpte := (hentry.here va' hva' hpg).trans (by rw [← hsame])
        exact Shows.mark hbit hshows hpte
          fun n hn => hkeeps.frames pd (hinv.live_of_view hv) va' hva' n hn
    rw [Function.update_eq_self, ← hv, Function.update_eq_self] at hnext
    exact ⟨k, hset, hnext⟩

theorem Inv.goes_setDirty (hinv : s.Inv initPage base spaces) (hva : va < physBase)
    (value : Bool) (hready : (s.view pd).isSome = true) :
    s.Goes initPage base (.setDirty pd va value) := by
  obtain ⟨v, hv⟩ := Option.isSome_iff_exists.mp hready
  obtain ⟨k, hset, hnext⟩ := hinv.goes_set unseen_pteD hv hva value
  refine ⟨_, _, ?_, hnext⟩
  rw [step, hv, Kernel.pagedirSetDirty, hset]
  rfl

theorem Inv.goes_setAccessed (hinv : s.Inv initPage base spaces) (hva : va < physBase)
    (value : Bool) (hready : (s.view pd).isSome = true) :
    s.Goes initPage base (.setAccessed pd va value) := by
  obtain ⟨v, hv⟩ := Option.isSome_iff_exists.mp hready
  obtain ⟨k, hset, hnext⟩ := hinv.goes_set unseen_pteA hv hva value
  refine ⟨_, _, ?_, hnext⟩
  rw [step, hv, Kernel.pagedirSetAccessed, hset]
  rfl

/-! Mapping a page of zeros. -/

/-- The page that could not be mapped is given back. -/
theorem Inv.unmapped (hinv : s.Inv initPage base spaces) {k₁ : Kernel}
    (hk : k₁.Inv initPage spaces (frameChunk n :: (s.lost.map frameChunk ++ base)))
    (hpte : ∀ pd ∈ spaces, ∀ va < physBase, pteAt k₁.memory pd va = pteAt s.kernel.memory pd va)
    (hkeeps : s.kernel.Keeps k₁ spaces (s.lost.map frameChunk ++ base)) :
    ∃ state, pallocFreePage (n * pgsize) k₁.pages = some state ∧
      System.Inv ⟨k₁.setPages state, s.view, s.lost⟩ initPage base spaces := by
  obtain ⟨state, hfree, hk', hagree⟩ := hk.exists_free
  have hkept : ∀ pd ∈ spaces, Kept k₁.memory state.memory pd :=
    fun pd hpd => Kernel.Inv.kept_of_agree hpd hagree
  refine ⟨state, hfree, hinv.unseen hk' (fun pd hpd va hva => ?_) ⟨?_, ?_⟩⟩
  · exact ((hkept pd hpd).pteAt_eq hva).trans (hpte pd hpd va hva)
  · intro pd hpd va hva n' hn'
    have hn₁ : mapped k₁.memory pd va = some n' := (congrArg frame (hpte pd hpd va hva)).trans hn'
    exact (hkeeps.frames pd hpd va hva n' hn').trans
      (hagree (frameChunk n') (Kernel.Inv.mem_held hpd (mem_spaceChunks_frame hva hn₁)))
  · exact fun c hc => absurd hc List.not_mem_nil

theorem Inv.goes_map (hinv : s.Inv initPage base spaces) {upage : Nat} (writable : Bool)
    (hproper : pgOfs upage = 0 ∧ upage < physBase) (hready : (s.view pd).isSome = true) :
    s.Goes initPage base (.map pd upage writable) := by
  obtain ⟨v, hv⟩ := Option.isSome_iff_exists.mp hready
  obtain ⟨hofs, hva⟩ := hproper
  have hpd := hinv.live_of_view hv
  rw [Goes, step, hv, Kernel.mapZeroed, pallocGetPage]
  rcases Palloc.pallocGetMultiple_cases hinv.kernel.exact
      { noFlags with user := true, zero := true } 1 with
    ⟨pages, state, n, hget, hgot⟩ | ⟨_, hget⟩
  · obtain ⟨hk₁, hagree⟩ := hinv.kernel.get hgot
    have hne : n * pgsize ≠ 0 := Nat.mul_ne_zero (Nat.ne_of_gt hgot.positive) (by decide)
    have hkept : ∀ pd ∈ spaces, Kept s.kernel.memory state.memory pd :=
      fun pd hpd => Kernel.Inv.kept_of_agree hpd hagree
    have hpte : ∀ pd ∈ spaces, ∀ va < physBase,
        pteAt (s.kernel.setPages state).memory pd va = pteAt s.kernel.memory pd va :=
      fun pd hpd va hva => (hkept pd hpd).pteAt_eq hva
    have hkeeps : s.kernel.Keeps (s.kernel.setPages state) spaces
        (s.lost.map frameChunk ++ base) := Kernel.Inv.keeps_of_agree hagree
    have hmemory : state.memory = s.kernel.memory.fill (n * pgsize) pgsize 0 :=
      hgot.address ▸ hgot.memory
    have hinstall := hk₁.getPage_eq hpd hva
    rw [hget]
    simp only [Option.bind_eq_bind, Option.bind_some, hgot.address, if_neg hne,
      Kernel.installPage, hinstall]
    cases hn : mapped (s.kernel.setPages state).memory pd upage with
    | some n' =>
        obtain ⟨state', hfree, hnext⟩ := hinv.unmapped hk₁ hpte hkeeps
        have hold : n' * pgsize + pgOfs upage ≠ 0 := by
          have hbase : 0 < pgNo physBase := by decide
          have hbounds := hk₁.frame_bounds hpd hva hn
          have hpos : 0 < n' * pgsize := Nat.mul_pos (by omega) (by decide)
          omega
        refine ⟨_, spaces, ?_, hnext⟩
        simp only [if_neg hold, Option.bind_some, hfree]
        rfl
    | none =>
        simp only [if_true]
        rcases hk₁.setPage_cases hpd hva hofs hn writable with
          ⟨k', hset, hk', ⟨w, hentry, hw, hwritable⟩, hkeeps'⟩ | ⟨hset, _⟩
        · have hentry' : Kernel.Entry s.kernel k' spaces pd upage w :=
            ⟨hentry.here, fun pd' hpd' va' hva' hne' =>
              (hentry.elsewhere pd' hpd' va' hva' hne').trans (hpte pd' hpd' va' hva')⟩
          have hkeeps'' : s.kernel.Keeps k' spaces [] := by
            refine ⟨fun pd' hpd' va' hva' n' hn' => ?_, fun c hc => absurd hc List.not_mem_nil⟩
            refine (hkeeps.frames pd' hpd' va' hva' n' hn').trans
              (hkeeps'.frames pd' hpd' va' hva' n' ?_)
            exact (congrArg frame (hpte pd' hpd' va' hva')).trans hn'
          have hzeros : k'.memory.bytes (n * pgsize) pgsize = List.replicate pgsize 0 := by
            have hframe : state.memory.Agree k'.memory (n * pgsize) pgsize :=
              hkeeps'.others (frameChunk n) List.mem_cons_self
            rw [← hframe.bytes, hmemory]
            exact ByteMemory.bytes_fill
          refine ⟨_, spaces, ?_, hinv.next s.lost
            (p := some ⟨writable, List.replicate pgsize 0⟩) hv hk' hkeeps'' hentry' ?_⟩
          · rw [hset]
            rfl
          · intro va' hva' hpg
            have hpte' := hentry.here va' hva' hpg
            refine ⟨n, (congrArg frame hpte').trans hw, List.length_replicate, hzeros, ?_⟩
            rw [hpte', hwritable]
            cases writable <;> decide
        · obtain ⟨state', hfree, hnext⟩ := hinv.unmapped hk₁ hpte hkeeps
          refine ⟨_, spaces, ?_, hnext⟩
          rw [hset]
          simp only [Option.bind_some, Bool.false_eq_true, if_false, hfree]
  · refine ⟨s, spaces, ?_, hinv⟩
    rw [hget, if_neg fun hassert => Bool.false_ne_true hassert.2]
    rfl

/-! Bytes that user code stores. -/

/-- There is a fault unless the page is mapped and writable. -/
theorem userStore_eq (hk : k.Inv initPage spaces others) (hpd : pd ∈ spaces)
    (hva : va < physBase) (byte : UInt8) :
    k.userStore (pd * pgsize) va byte = match mapped k.memory pd va with
      | none => none
      | some n =>
          if pteAt k.memory pd va &&& pteW ≠ 0 then
            some (k.setMemory (k.memory.put (n * pgsize + pgOfs va) [byte]))
          else none := by
  rw [Kernel.userStore, hk.lookupPage_false hpd hva, pteOf]
  cases hpt : frame (entryAt k.memory pd (pdNo va)) with
  | none =>
      rw [Kernel.mapped_of_no_table hpt]
      rfl
  | some pt =>
      have hpte := Kernel.pteAt_of_table hpt
      cases hn : mapped k.memory pd va with
      | none =>
          rw [mapped, hpte] at hn
          exact if_neg fun hboth => absent_of_frame hn hboth.1
      | some n =>
          have hbounds := hk.frame_bounds hpd hva hn
          rw [mapped, hpte] at hn
          rw [hpte]
          change (if entryAt k.memory pt (ptNo va) &&& pteP ≠ 0 ∧
            entryAt k.memory pt (ptNo va) &&& pteW ≠ 0 then
            (pteGetPage (entryAt k.memory pt (ptNo va))).bind _ else _) = if _ then _ else _
          by_cases hwritable : entryAt k.memory pt (ptNo va) &&& pteW ≠ 0
          · rw [if_pos ⟨present_of_frame hn, hwritable⟩, if_pos hwritable,
              pteGetPage_eq hn (Kernel.lt_twice hbounds.2)]
            rfl
          · rw [if_neg fun hboth => hwritable hboth.2, if_neg hwritable]

theorem agree_put_page {m : ByteMemory} {page ofs : Nat} {byte : UInt8} (hne : page ≠ n)
    (hofs : ofs < pgsize) :
    m.Agree (m.put (n * pgsize + ofs) [byte]) (page * pgsize) pgsize := by
  refine (ByteMemory.agree_put ?_).symm
  rw [List.length_singleton]
  rw [pgsize] at hofs ⊢
  omega

/-- A page of the kernel is not a frame. -/
theorem page_ne_frame (hk : k.Inv initPage spaces others) {page : Nat}
    (hpage : pageChunk page ∈ k.held spaces others) (hn : frameChunk n ∈ k.held spaces others) :
    page ≠ n := by
  have happart := hk.exact.apart_of_ne hn hpage (Kernel.frameChunk_ne_pageChunk n page)
  simp only [Chunk.Apart, frameChunk, pageChunk] at happart
  omega

theorem Inv.goes_store (hinv : s.Inv initPage base spaces) {uaddr : Nat} {byte : UInt8}
    {q : UserPage} (hva : uaddr < physBase) (hv : s.view pd = some v)
    (hq : v (pgNo uaddr) = some q) (hwritable : q.writable = true) :
    s.Goes initPage base (.store pd uaddr byte) := by
  have hpd := hinv.live_of_view hv
  have hshows := hinv.shows pd v hv uaddr hva
  rw [hq] at hshows
  obtain ⟨n, hn, hlength, hbytes, hw⟩ := hshows
  have hofs : pgOfs uaddr < pgsize := Nat.mod_lt _ (by decide)
  have hframe : frameChunk n ∈ s.kernel.held spaces (s.lost.map frameChunk ++ base) :=
    Kernel.Inv.mem_held hpd (mem_spaceChunks_frame hva hn)
  have hpage : ∀ page,
      pageChunk page ∈ s.kernel.held spaces (s.lost.map frameChunk ++ base) →
      s.kernel.memory.Agree (s.kernel.memory.put (n * pgsize + pgOfs uaddr) [byte])
        (page * pgsize) pgsize :=
    fun page hmem => agree_put_page (page_ne_frame hinv.kernel hmem hframe) hofs
  have hkept : ∀ pd' ∈ spaces, Kept s.kernel.memory
      (s.kernel.memory.put (n * pgsize + pgOfs uaddr) [byte]) pd' := fun pd' hpd' =>
    ⟨hpage pd' (Kernel.Inv.mem_held hpd' List.mem_cons_self), fun i hi pt hpt =>
      hpage pt (Kernel.Inv.mem_held hpd' (mem_spaceChunks_table hi hpt))⟩
  have hk : (s.kernel.setMemory (s.kernel.memory.put (n * pgsize + pgOfs uaddr) [byte])).Inv
      initPage spaces (s.lost.map frameChunk ++ base) :=
    hinv.kernel.change (fun _ hpd' => hpd') hkept
      (hpage initPage (List.mem_append_right _ hinv.kernel.init.2))
      (hinv.kernel.exact.setMemory _) (fun _ => ⟨rfl, rfl, rfl⟩) hinv.kernel.init.2
  have helsewhere : ∀ pd' v' va', s.view pd' = some v' → va' < physBase →
      pd' ≠ pd ∨ pgNo va' ≠ pgNo uaddr →
      Shows (s.kernel.setMemory (s.kernel.memory.put (n * pgsize + pgOfs uaddr) [byte])) pd' va'
        (v' (pgNo va')) := by
    intro pd' v' va' hv' hva' hne
    have hpd' := hinv.live_of_view hv'
    refine (hinv.shows pd' v' hv' va' hva').congr ((hkept pd' hpd').pteAt_eq hva') fun n' hn' => ?_
    refine agree_put_page ?_ hofs
    rintro rfl
    obtain ⟨hsame, hpg⟩ := hinv.kernel.mapped_inj hpd' hpd hva' hva hn' hn
    exact hne.elim (fun h => h hsame) fun h => h hpg
  have hput := @ByteMemory.bytes_put s.kernel.memory _ _ _ byte (hlength.symm ▸ hbytes)
    (hlength.symm ▸ hofs)
  have hnext : System.Inv
      ⟨s.kernel.setMemory (s.kernel.memory.put (n * pgsize + pgOfs uaddr) [byte]),
        Function.update s.view pd (some (v.store uaddr byte)), s.lost⟩ initPage base spaces := by
    refine Inv.of hk (fun pd' => ?_) (fun pd' v' hv' va' hva' => ?_) hinv.base
    · by_cases hpd' : pd' = pd
      · rw [hpd', Function.update_self]
        exact ⟨fun _ => hpd, fun _ => rfl⟩
      · rw [Function.update_of_ne hpd']
        exact hinv.live pd'
    · by_cases hpd' : pd' = pd
      · rw [hpd', Function.update_self] at hv'
        obtain rfl := Option.some.inj hv'
        rw [hpd', View.store]
        by_cases hpg : pgNo va' = pgNo uaddr
        · have hpte : pteAt (s.kernel.memory.put (n * pgsize + pgOfs uaddr) [byte]) pd va' =
              pteAt s.kernel.memory pd uaddr :=
            ((hkept pd hpd).pteAt_eq hva').trans (pteAt_of_pgNo pd hpg)
          rw [hpg, Function.update_self, hq]
          refine ⟨n, (congrArg frame hpte).trans hn, ?_, ?_, ?_⟩
          · rw [List.length_set]
            exact hlength
          · rw [List.length_set, hlength] at hput
            exact hput
          · change pteAt (s.kernel.memory.put _ _) pd va' &&& pteW ≠ 0 ↔ _
            rw [hpte]
            exact hw
        · rw [Function.update_of_ne hpg]
          exact helsewhere pd v va' hv hva' (Or.inr hpg)
      · rw [Function.update_of_ne hpd'] at hv'
        exact helsewhere pd' v' va' hv' hva' (Or.inl hpd')
  refine ⟨_, spaces, ?_, hnext⟩
  rw [step, hv]
  change (Kernel.userStore (pd * pgsize) uaddr byte s.kernel).bind _ = _
  rw [userStore_eq hinv.kernel hpd hva, hn]
  change (if _ then _ else _ : Option Kernel).bind _ = _
  rw [if_pos (hw.mpr hwritable)]
  rfl

/-! Runs. -/

theorem Inv.goes (hinv : s.Inv initPage base spaces) {act : Act} (hproper : s.Proper act)
    (hready : s.Ready act) : s.Goes initPage base act := by
  cases act with
  | create => exact hinv.goes_create
  | map pd upage writable => exact hinv.goes_map writable hproper hready
  | clear pd upage => exact hinv.goes_clear hproper hready
  | store pd uaddr byte =>
      obtain ⟨v, q, hv, hq, hwritable⟩ := hready
      exact hinv.goes_store hproper hv hq hwritable
  | setDirty pd upage value => exact hinv.goes_setDirty hproper value hready
  | setAccessed pd upage value => exact hinv.goes_setAccessed hproper value hready
  | destroy pd => exact hinv.goes_destroy hready

theorem isSome_of_bind {α β : Type} {x : Option α} {f : α → Option β} {b : β}
    (h : x.bind f = some b) : x.isSome = true := by
  obtain ⟨a, ha, _⟩ := Option.bind_eq_some_iff.mp h
  rw [ha]
  rfl

theorem Inv.ready_of_step (hinv : s.Inv initPage base spaces) {act : Act}
    (hproper : s.Proper act) (hstep : s.step act = some t) : s.Ready act := by
  cases act with
  | create => trivial
  | map pd upage writable => exact isSome_of_bind hstep
  | clear pd upage => exact isSome_of_bind hstep
  | store pd uaddr byte =>
      obtain ⟨v, hv, hstep⟩ := Option.bind_eq_some_iff.mp hstep
      obtain ⟨k, hstore, _⟩ := Option.bind_eq_some_iff.mp hstep
      have hshows := hinv.shows pd v hv uaddr hproper
      rw [userStore_eq hinv.kernel (hinv.live_of_view hv) hproper] at hstore
      cases hn : mapped s.kernel.memory pd uaddr with
      | none =>
          rw [hn] at hstore
          cases hstore
      | some n =>
          rw [hn] at hstore
          cases hq : v (pgNo uaddr) with
          | none =>
              rw [hq] at hshows
              cases hn.symm.trans hshows
          | some q =>
              rw [hq] at hshows
              obtain ⟨_, _, _, _, hw⟩ := hshows
              refine ⟨v, q, hv, hq, hw.mp ?_⟩
              by_contra hzero
              change (if _ then _ else _) = _ at hstore
              rw [if_neg fun hne => hne hzero] at hstore
              cases hstore
  | setDirty pd upage value => exact isSome_of_bind hstep
  | setAccessed pd upage value => exact isSome_of_bind hstep
  | destroy pd => exact isSome_of_bind hstep

variable {text : KernelText} {userPageLimit initRamPages : Nat} {memory : ByteMemory}
  {acts : List Act}

theorem inv_start (hk : k.Inv initPage [] base) : (start k).Inv initPage base [] :=
  Inv.of hk (fun _ => ⟨fun h => absurd h Bool.false_ne_true, fun h => absurd h List.not_mem_nil⟩)
    (fun _ _ hv => by cases hv) hk.init.2

theorem exists_inv (hk : k.Inv initPage [] base) (hrun : Run step Proper (start k) acts s) :
    ∃ spaces, s.Inv initPage base spaces := by
  refine hrun.invariant (fun s => ∃ spaces, s.Inv initPage base spaces) ?_ ⟨_, inv_start hk⟩
  rintro s s' act ⟨spaces, hinv⟩ hproper hstep
  obtain ⟨t, spaces', ht, hinv'⟩ := hinv.goes hproper (hinv.ready_of_step hproper hstep)
  exact ⟨spaces', Option.some.inj (hstep.symm.trans ht) ▸ hinv'⟩

/-- A user address leads to the byte that the process itself has there, and to nothing
where it has no page. -/
theorem processes_find (hram : initRamPages ≤ 2 ^ 18)
    (hboot : boot text userPageLimit initRamPages memory = some k)
    (hrun : Run step Proper (start k) acts s) (hv : s.view pd = some v) {uaddr : Nat}
    (hva : uaddr < physBase) :
    ∃ a, s.kernel.pagedirGetPage (pd * pgsize) uaddr = some a ∧
      if a = 0 then v (pgNo uaddr) = none
      else ∃ p, v (pgNo uaddr) = some p ∧ p.bytes[pgOfs uaddr]? = some (s.kernel.memory a) := by
  obtain ⟨initPage, base, hk⟩ := inv_boot hram hboot
  obtain ⟨spaces, hinv⟩ := exists_inv hk hrun
  have hpd := hinv.live_of_view hv
  refine ⟨_, hinv.kernel.getPage_eq hpd hva, ?_⟩
  cases hn : mapped s.kernel.memory pd uaddr with
  | none => exact hinv.view_none hv hva hn
  | some n =>
      have hbounds := hinv.kernel.frame_bounds hpd hva hn
      have hbase : 0 < pgNo physBase := by decide
      have hpos : 0 < n * pgsize := Nat.mul_pos (by omega) (by decide)
      rw [if_neg (by change n * pgsize + pgOfs uaddr ≠ 0; omega)]
      have hshows := hinv.shows pd v hv uaddr hva
      cases hp : v (pgNo uaddr) with
      | none =>
          rw [hp] at hshows
          cases hn.symm.trans hshows
      | some p =>
          rw [hp] at hshows
          obtain ⟨n', hn', _, hbytes, _⟩ := hshows
          obtain rfl := Option.some.inj (hn.symm.trans hn')
          refine ⟨p, rfl, ?_⟩
          have hofs : pgOfs uaddr < pgsize := Nat.mod_lt _ (by decide)
          rw [← hbytes, ByteMemory.getElem?_bytes hofs]

/-- Pages of user memory never share a frame: not those of different processes, nor two
of one process. -/
theorem frames_apart (hram : initRamPages ≤ 2 ^ 18)
    (hboot : boot text userPageLimit initRamPages memory = some k)
    (hrun : Run step Proper (start k) acts s) {pd' uaddr uaddr' a a' : Nat}
    (hpd : (s.view pd).isSome = true) (hpd' : (s.view pd').isSome = true)
    (hva : uaddr < physBase) (hva' : uaddr' < physBase)
    (hget : s.kernel.pagedirGetPage (pd * pgsize) uaddr = some a)
    (hget' : s.kernel.pagedirGetPage (pd' * pgsize) uaddr' = some a') (ha : a ≠ 0)
    (hsame : pgNo a = pgNo a') : pd = pd' ∧ pgNo uaddr = pgNo uaddr' := by
  obtain ⟨initPage, base, hk⟩ := inv_boot hram hboot
  obtain ⟨spaces, hinv⟩ := exists_inv hk hrun
  have hlive := (hinv.live pd).mp hpd
  have hlive' := (hinv.live pd').mp hpd'
  have hno : ∀ n va, pgNo (n * pgsize + pgOfs va) = n := fun n va => by
    have hofs : pgOfs va < pgsize := Nat.mod_lt _ (by decide)
    rw [pgNo, Nat.mul_comm, Nat.mul_add_div (by decide), Nat.div_eq_of_lt hofs, Nat.add_zero]
  rw [hinv.kernel.getPage_eq hlive hva] at hget
  rw [hinv.kernel.getPage_eq hlive' hva'] at hget'
  have haddr := Option.some.inj hget
  have haddr' := Option.some.inj hget'
  cases hn : mapped s.kernel.memory pd uaddr with
  | none =>
      rw [hn] at haddr
      exact absurd haddr.symm ha
  | some n =>
      rw [hn] at haddr
      have hframe : pgNo a = n := haddr ▸ hno n uaddr
      have hbounds := hinv.kernel.frame_bounds hlive hva hn
      have hbase : 0 < pgNo physBase := by decide
      cases hn' : mapped s.kernel.memory pd' uaddr' with
      | none =>
          rw [hn'] at haddr'
          rw [hframe, ← haddr'] at hsame
          change n = pgNo 0 at hsame
          rw [show pgNo 0 = 0 from by decide] at hsame
          omega
      | some n' =>
          rw [hn'] at haddr'
          have hframe' : pgNo a' = n' := haddr' ▸ hno n' uaddr'
          obtain rfl : n = n' := hframe.symm.trans (hsame.trans hframe')
          exact hinv.kernel.mapped_inj hlive hlive' hva hva' hn hn'

instance (s : System) (act : Act) : Decidable (s.Proper act) :=
  match act with
  | .create => inferInstanceAs (Decidable True)
  | .map _ upage _ => inferInstanceAs (Decidable (pgOfs upage = 0 ∧ upage < physBase))
  | .clear _ upage => inferInstanceAs (Decidable (pgOfs upage = 0 ∧ upage < physBase))
  | .store _ uaddr _ => inferInstanceAs (Decidable (uaddr < physBase))
  | .setDirty _ upage _ => inferInstanceAs (Decidable (upage < physBase))
  | .setAccessed _ upage _ => inferInstanceAs (Decidable (upage < physBase))
  | .destroy _ => inferInstanceAs (Decidable True)

namespace AddressWitness

/-- A process gets two pages, one of them only to read from, and stores a byte. -/
def sharing : List Act :=
  [Act.create, .map 786691 0x8048000 true, .map 786691 0x8049000 false,
    .store 786691 0x8048123 7]

def proper (s : System) (act : Act) : Bool := decide (s.Proper act)

/-- The kernel, with four pages for users, and the system after the run, if the two
addresses of the first page are mapped to a page. -/
def trial : Option (Kernel × System) := do
  let k ← boot ⟨3222405120, 3222437888⟩ 4 268 fun _ => 0
  let s ← sharing.foldlM (fun s act => if proper s act then s.step act else none) (start k)
  if (s.view 786691).isSome = true ∧
      s.kernel.pagedirGetPage (786691 * pgsize) 0x8048123 = some (786697 * pgsize + 0x123) ∧
      s.kernel.pagedirGetPage (786691 * pgsize) 0x8048000 = some (786697 * pgsize) then
    some (k, s)
  else none

def tried : Kernel × System := trial.get (by decide +kernel)

theorem trial_eq : trial = some tried := (Option.some_get _).symm

theorem exists_run : ∃ k s, boot ⟨3222405120, 3222437888⟩ 4 268 (fun _ => 0) = some k ∧
    Run step Proper (start k) sharing s ∧ (s.view 786691).isSome = true ∧
    s.kernel.pagedirGetPage (786691 * pgsize) 0x8048123 = some (786697 * pgsize + 0x123) ∧
    s.kernel.pagedirGetPage (786691 * pgsize) 0x8048000 = some (786697 * pgsize) := by
  have htrial := trial_eq
  rw [trial, Option.bind_eq_bind] at htrial
  obtain ⟨k, hboot, htrial⟩ := Option.bind_eq_some_iff.mp htrial
  rw [Option.bind_eq_bind] at htrial
  obtain ⟨s, hrun, htrial⟩ := Option.bind_eq_some_iff.mp htrial
  have hfacts := (Option.ite_none_right_eq_some.mp htrial).1
  exact ⟨k, s, hboot, Run.of_check proper (fun _ => True) (fun _ _ => trivial)
    (fun _ => of_decide_eq_true) trivial hrun, hfacts⟩

theorem mapped_finds : ∃ (s : System) (v : View), s.view 786691 = some v ∧
    ∃ a, s.kernel.pagedirGetPage (786691 * pgsize) 0x8048123 = some a ∧
      if a = 0 then v (pgNo 0x8048123) = none
      else ∃ p, v (pgNo 0x8048123) = some p ∧
        p.bytes[pgOfs 0x8048123]? = some (s.kernel.memory a) := by
  obtain ⟨k, s, hboot, hrun, hview, _⟩ := exists_run
  obtain ⟨v, hv⟩ := Option.isSome_iff_exists.mp hview
  exact ⟨s, v, hv, processes_find (by decide) hboot hrun hv (by decide)⟩

theorem one_frame : 786691 = 786691 ∧ pgNo 0x8048123 = pgNo 0x8048000 := by
  obtain ⟨k, s, hboot, hrun, hview, hget, hget'⟩ := exists_run
  exact frames_apart (by decide) hboot hrun hview hview (by decide) (by decide) hget hget'
    (by decide) (by decide)

end AddressWitness

end System

end PageTables

end PintosLabs
