/-
The locks on the lists of the threads.  A lock is on the list of a thread that
`lock_acquire` has returned to and, while it is released, until it is taken off
the list; it is there once.
-/
import Mathlib.Data.Multiset.Filter
import PintosLabs.KernelFrame
import PintosLabs.KernelRuns

namespace PintosLabs

namespace Kernel

/-- What is left of the sleep of each thread, and the locks on its list, in
whatever order. -/
def kept (k : Kernel) (t : ThreadId) : Nat × Multiset LockId :=
  ((k.threads t).bTick, ((k.threads t).holdingLocks : Multiset LockId))

section Frame

variable {k k' : Kernel} {t : ThreadId}

theorem kept_modify_of_ne (k : Kernel) {t u : ThreadId} (h : u ≠ t)
    (f : Thread → Thread) : (k.modify t f).kept u = k.kept u := by
  rw [kept, modify_of_ne h, kept]

theorem kept_modify_same (k : Kernel) (t : ThreadId) {f : Thread → Thread}
    (hbTick : (f (k.threads t)).bTick = (k.threads t).bTick)
    (hlocks : (f (k.threads t)).holdingLocks.Perm (k.threads t).holdingLocks) :
    (k.modify t f).kept = k.kept := by
  funext u
  by_cases hu : u = t
  · subst hu
    rw [kept, modify_self, hbTick, Multiset.coe_eq_coe.mpr hlocks, kept]
  · exact k.kept_modify_of_ne hu f

/-- What is kept is a part of the books. -/
theorem kept_of_books (h : k'.books = k.books) : k'.kept = k.kept := by
  funext u
  have hlocks : (k'.threads u).holdingLocks = (k.threads u).holdingLocks :=
    congrFun (congrArg Books.holdingLocks h) u
  exact Prod.ext (congrFun (congrArg Books.bTick h) u) (congrArg Multiset.ofList hlocks)

variable (k)

theorem kept_goto (pc : Pc) : (k.goto pc).kept = k.kept := kept_of_books (by simp)

theorem kept_setOps (ops : List Op) : (k.setOps ops).kept = k.kept :=
  kept_of_books (by simp)

theorem kept_setRestore (restore : Bool) : (k.setRestore restore).kept = k.kept :=
  kept_of_books (by simp)

theorem kept_setSema (s : SemaId) (f : Semaphore → Semaphore) :
    (k.setSema s f).kept = k.kept := rfl

theorem kept_threadYield : k.threadYield.kept = k.kept := kept_of_books (by simp)

theorem kept_setHolder (l : LockId) : (k.setHolder l).kept = k.kept :=
  kept_of_books (by simp)

theorem kept_threadSetPriority (priority : Int) :
    (k.threadSetPriority priority).kept = k.kept := by
  rw [threadSetPriority]
  split
  · rw [kept_threadYield, kept_setRestore, setPriority,
      kept_modify_same _ _ rfl (List.Perm.refl _)]
    exact kept_modify_same _ _ rfl (List.Perm.refl _)
  · exact kept_modify_same _ _ rfl (List.Perm.refl _)

variable {k}

/-- The list is sorted, and what is on it stays. -/
theorem kept_threadUpdatePri (hk' : k.threadUpdatePri t = some k') :
    k'.kept = k.kept := by
  obtain ⟨locks, priority, hupdate, hperm, -⟩ := k.threadUpdatePri_spec t
  rw [hupdate] at hk'
  rw [← Option.some.inj hk']
  exact kept_modify_same _ _ rfl hperm

theorem kept_threadDonatePri (hk' : k.threadDonatePri t = some k') :
    k'.kept = k.kept := by
  obtain ⟨k₁, hupdate, hk'⟩ := Option.bind_eq_some_iff.mp hk'
  rw [← kept_threadUpdatePri hupdate]
  split at hk' <;> rw [← Option.some.inj hk']
  rfl

end Frame

/-! The locks. -/

variable {k k' : Kernel} {t : ThreadId} {l m : LockId}

/-- The locks on the list of each thread. -/
def held (k : Kernel) (t : ThreadId) : Multiset LockId := (k.kept t).2

theorem held_of_kept (h : k'.kept = k.kept) : k'.held = k.held := by
  funext t
  rw [held, h, held]

theorem held_modify_same (k : Kernel) (t : ThreadId) {f : Thread → Thread}
    (hlocks : (f (k.threads t)).holdingLocks = (k.threads t).holdingLocks) :
    (k.modify t f).held = k.held := by
  funext u
  by_cases hu : u = t
  · subst hu
    rw [held, kept, modify_self, hlocks]
    rfl
  · rw [held, kept_modify_of_ne k hu, held]

theorem held_timerInterrupt {allList : List ThreadId}
    (hk' : k.timerInterrupt allList = some k') : k'.held = k.held := by
  obtain ⟨bTick, hbooks⟩ := books_timerInterrupt hk'
  funext t
  have hlocks : (k'.threads t).holdingLocks = (k.threads t).holdingLocks :=
    congrFun (congrArg Books.holdingLocks hbooks) t
  exact congrArg Multiset.ofList hlocks

/-- Within a call, a lock is put on a list and taken off at one place each. -/
theorem kept_advance (hnext : k.cur.pc ≠ .next) (htake : ∀ l, k.cur.pc ≠ .take l)
    (hremove : ∀ l, k.cur.pc ≠ .removeLock l) (hk' : k.advance k.cur.pc = some k') :
    k'.kept = k.kept := by
  by_cases hbooks : k.cur.pc.booksIn = false
  · exact kept_of_books (books_advance hnext hbooks hk')
  generalize k.cur.pc = pc at hk' htake hremove hbooks
  cases pc with
  | take l => exact absurd rfl (htake l)
  | removeLock l => exact absurd rfl (hremove l)
  | donateMax l lk => rw [← Option.some.inj hk', kept_goto]; rfl
  | donatePri l lk =>
      obtain ⟨holder, -, hk'⟩ := Option.bind_eq_some_iff.mp hk'
      obtain ⟨k₁, hdonate, hk'⟩ := Option.bind_eq_some_iff.mp hk'
      rw [← Option.some.inj hk', kept_goto, kept_threadDonatePri hdonate]
  | _ => exact absurd rfl hbooks

theorem held_begin {rest : List Op} {op : Op}
    (hnew : (k.threads k.count).holdingLocks = []) (hk' : k.begin rest op = some k') :
    k'.held = k.held := by
  cases op with
  | timerSleep ticks =>
      simp only [Kernel.begin] at hk'
      split at hk'
      · rw [← Option.some.inj hk']
      · rw [← Option.some.inj hk', held_of_kept (kept_of_books (books_threadBlock _)),
          held_of_kept (kept_goto _ _)]
        exact held_modify_same _ _ rfl
  | threadCreate priority =>
      simp only [Kernel.begin] at hk'
      split at hk'
      · rw [← Option.some.inj hk', held_of_kept (kept_setOps _ _)]
        exact @held_modify_same k k.count (fun _ => initThread priority) hnew.symm
      · cases hk'
  | threadSetPriority priority =>
      rw [← Option.some.inj hk', held_of_kept (kept_threadSetPriority _ _)]
  | _ =>
      exact held_of_kept (kept_of_books
        (books_begin (fun _ => by simp) (fun _ => by simp) (fun _ => by simp) hk'))

theorem held_advance (hnew : (k.threads k.count).holdingLocks = [])
    (hcurrent : k.current < k.count) (htake : ∀ l, k.cur.pc ≠ .take l)
    (hremove : ∀ l, k.cur.pc ≠ .removeLock l) (hk' : k.advance k.cur.pc = some k') :
    k'.held = k.held := by
  by_cases hnext : k.cur.pc = .next
  · rw [hnext] at hk'
    simp only [Kernel.advance] at hk'
    split at hk'
    · cases hk'
    · rename_i op rest _
      have hnew' : ((k.setOps rest).threads k.count).holdingLocks = [] := by
        rw [setOps, modify_of_ne hcurrent.ne', hnew]
      rw [@held_begin (k.setOps rest) k' rest op hnew' hk',
        held_of_kept (kept_setOps _ _)]
  · exact held_of_kept (kept_advance hnext htake hremove hk')

theorem held_modify_self (k : Kernel) (t : ThreadId) (f : Thread → Thread) :
    (k.modify t f).held =
      Function.update k.held t ((f (k.threads t)).holdingLocks : Multiset LockId) := by
  funext u
  by_cases hu : u = t
  · subst hu
    rw [held, kept, modify_self, Function.update_self]
  · rw [held, kept_modify_of_ne k hu, Function.update_of_ne hu, held]

/-- `thread_get_lock` puts the lock on the list. -/
theorem held_lockTake (k : Kernel) (l : LockId) : (k.lockTake l).held =
    Function.update k.held k.current (l ::ₘ k.held k.current) := by
  obtain ⟨k₁, hk₁⟩ : ∃ k₁, (k.intrDisable.modify k.current fun t =>
    { t with waitingLock := none }) = k₁ := ⟨_, rfl⟩
  have hsame : k₁.held = k.held := by
    rw [← hk₁]
    exact held_modify_same _ _ rfl
  have hcurrent : k₁.current = k.current := by
    rw [← hk₁]
    rfl
  rw [lockTake_eq, held_of_kept (kept_setHolder _ _), lockTaken, hk₁, threadGetLock,
    held_modify_self]
  change Function.update k₁.held k₁.current _ = _
  rw [hsame, hcurrent, Multiset.coe_eq_coe.mpr (List.perm_orderedInsert _ _ _),
    ← Multiset.cons_coe]
  congr 2
  rw [← hsame, ← hcurrent]
  rfl

/-- `thread_remove_lock` takes the lock off the list; it has to be there. -/
theorem held_threadRemoveLock (hk' : k.threadRemoveLock l = some k') :
    l ∈ k.held k.current ∧
      k'.held = Function.update k.held k.current ((k.held k.current).erase l) := by
  rw [threadRemoveLock] at hk'
  split at hk'
  case isTrue hmem =>
    refine ⟨hmem, ?_⟩
    rw [held_of_kept (kept_threadUpdatePri hk'), held_modify_self, ← Multiset.coe_erase]
    rfl
  · cases hk'

theorem threadRemoveLock_isSome (hmem : l ∈ k.held k.current) :
    ∃ k', k.threadRemoveLock l = some k' := by
  obtain ⟨locks, priority, hupdate, -⟩ := threadUpdatePri_spec
    (k.modify k.current fun t => { t with holdingLocks := t.holdingLocks.erase l })
    k.current
  exact ⟨_, (if_pos hmem).trans hupdate⟩

theorem threadRemoveLock_eq_none (hmem : l ∉ k.held k.current) :
    k.threadRemoveLock l = none := if_neg hmem

end Kernel

/-- The lock is to be on the list of the thread. -/
def Shared.Listed (v : Shared) (t : ThreadId) (l : LockId) : Prop :=
  l ∈ v.inside t ∨ v.pc t = .removeLock l

theorem Shared.Listed.claims {v : Shared} {t : ThreadId} {l : LockId}
    (h : v.Listed t l) : v.Claims t l := by
  rcases h with hinside | hpc
  · exact Or.inr hinside
  · exact Or.inl (hpc ▸ rfl)

section SharedStep

variable {c : ThreadId} {op : Option Op} {v v' : Shared} {t : ThreadId} {l : LockId}

/-- A thread that is to release a lock says so first. -/
theorem SharedStep.listed (h : SharedStep c op v v')
    (hpc : t = c → v.pc c ≠ .removeLock l) (hlisted : v.Listed t l) :
    v'.Listed t l := by
  by_cases ht : t = c
  · subst ht
    have hinside : l ∈ v.inside t := hlisted.resolve_right (hpc rfl)
    cases h with
    | take before => exact Or.inl (by simp [hinside])
    | setHolder before => exact Or.inl (by simp [hinside])
    | @release l' before call holder =>
        by_cases hl : l = l'
        · subst hl
          exact Or.inr (by simp [Shared.goto])
        · exact Or.inl (by simp [hinside, hl])
    | _ => exact Or.inl hinside
  · exact hlisted.imp (fun hmem => h.inside_of_ne ht ▸ hmem)
      fun hremove => (h.pc_of_ne ht).trans hremove

/-- What gets through the semaphore of a lock finds it with no thread. -/
theorem SharedStep.takes (h : SharedStep c op v v') (hpc : v'.pc c = .take l) :
    v'.inside = v.inside ∧
      (v.pc c = .take l ∨ (v.sema (.lock l)).value ≠ 0) := by
  cases h with
  | stay => exact ⟨rfl, Or.inl hpc⟩
  | tryDown before positive => exact ⟨rfl, Or.inl hpc⟩
  | waiterInit before => exact ⟨rfl, Or.inl hpc⟩
  | @pass s before positive =>
      have hafter : Kernel.afterDown s = .take l := by
        rw [← hpc]
        exact (v.goto_self c _).symm
      cases s with
      | lock l' =>
          obtain rfl := Pc.take.inj hafter
          exact ⟨rfl, Or.inr positive⟩
      | _ => cases hafter
  | move before after =>
      have hself := (v.goto_self c _).symm.trans hpc
      rw [hself] at after
      rcases after with hquiet | ⟨u, hup⟩
      · cases hquiet
      · cases hup
  | _ =>
      simp only [Shared.goto, Shared.setSema, Function.update_self] at hpc
      cases hpc

end SharedStep

namespace Kernel

/-- Each lock is at most once on the lists of locks, and then with the thread
that has it. -/
structure LocksListed (k : Kernel) : Prop where
  nodup : ∀ t, (k.held t).Nodup
  listed : ∀ t, ∀ l ∈ k.held t, k.shared.Listed t l
  fresh : ∀ t l, (k.threads t).pc = .take l → l ∉ (k.threads t).inside

namespace LocksListed

variable {k k' : Kernel}

/-- A thread that is not there has no locks. -/
theorem held_unused (h : k.LocksListed) {t : ThreadId} (ht : (k.threads t).Unused) :
    (k.threads t).holdingLocks = [] := by
  refine List.eq_nil_iff_forall_not_mem.mpr fun l hl => ?_
  rcases h.listed t l hl with hinside | hpc
  · change l ∈ (k.threads t).inside at hinside
    rw [ht.inside] at hinside
    exact absurd hinside List.not_mem_nil
  · cases ht.pc.symm.trans hpc

theorem fresh_step (h : k.LocksListed) (howned : ∀ l, k.shared.Owned l) {op : Option Op}
    (hstep : SharedStep k.current op k.shared k'.shared) (t : ThreadId) (l : LockId)
    (hpc : (k'.threads t).pc = .take l) : l ∉ (k'.threads t).inside := by
  by_cases ht : t = k.current
  · subst ht
    obtain ⟨hinside, hbefore⟩ := hstep.takes hpc
    change l ∉ k'.shared.inside k.current
    rw [hinside]
    rcases hbefore with htake | hpositive
    · exact h.fresh k.current l htake
    · rcases (howned l).claim with ⟨-, hnone⟩ | ⟨hzero, -⟩
      · exact fun hmem => hnone k.current (Or.inr hmem)
      · exact absurd hzero hpositive
  · change l ∉ k'.shared.inside t
    rw [hstep.inside_of_ne ht]
    exact h.fresh t l ((hstep.pc_of_ne ht).symm.trans hpc)

/-- The running thread is neither where a lock is put on its list nor where it
is taken off. -/
theorem same (h : k.LocksListed) (howned : ∀ l, k.shared.Owned l) {op : Option Op}
    (hstep : SharedStep k.current op k.shared k'.shared)
    (hremove : ∀ l, k.cur.pc ≠ .removeLock l) (hheld : k'.held = k.held) :
    k'.LocksListed where
  nodup t := hheld ▸ h.nodup t
  listed t l hl := hstep.listed (fun _ => hremove l) (h.listed t l (hheld ▸ hl))
  fresh := h.fresh_step howned hstep

theorem congr (h : k.LocksListed) (hshared : k'.shared = k.shared)
    (hheld : k'.held = k.held) : k'.LocksListed where
  nodup t := hheld ▸ h.nodup t
  listed t l hl := hshared ▸ h.listed t l (hheld ▸ hl)
  fresh t l hpc := by
    change l ∉ k'.shared.inside t
    rw [hshared]
    refine h.fresh t l ?_
    change k.shared.pc t = .take l
    rw [← hshared]
    exact hpc

/-- `lock_acquire` puts the lock on the list. -/
theorem take (h : k.LocksListed) (howned : ∀ l, k.shared.Owned l) {l : LockId}
    (hpc : k.cur.pc = .take l) : (k.lockTake l).LocksListed := by
  have hstep := @lockTake_step k none l hpc
  have hnot : l ∉ k.held k.current := fun hmem => by
    rcases h.listed k.current l hmem with hinside | hremove
    · exact h.fresh k.current l hpc hinside
    · cases hpc.symm.trans hremove
  refine ⟨fun t => ?_, fun t m hm => ?_, h.fresh_step howned hstep⟩
  · rw [held_lockTake]
    by_cases ht : t = k.current
    · subst ht
      rw [Function.update_self]
      exact Multiset.nodup_cons.mpr ⟨hnot, h.nodup _⟩
    · rw [Function.update_of_ne ht]
      exact h.nodup t
  · have hother : m ∈ k.held t → (k.lockTake l).shared.Listed t m := fun hmem =>
      hstep.listed (fun _ hremove => by cases hpc.symm.trans hremove) (h.listed t m hmem)
    rw [held_lockTake] at hm
    by_cases ht : t = k.current
    · subst ht
      rw [Function.update_self] at hm
      rcases Multiset.mem_cons.mp hm with rfl | hm
      · refine Or.inl ?_
        rw [lockTake_eq, shared_setHolder, shared_lockTaken]
        change m ∈ Function.update k.shared.inside k.current _ k.current
        rw [Function.update_self]
        exact List.mem_cons_self
      · exact hother hm
    · rw [Function.update_of_ne ht] at hm
      exact hother hm

/-- `lock_release` takes the lock off the list. -/
theorem remove (h : k.LocksListed) (howned : ∀ l, k.shared.Owned l) {op : Option Op}
    {l : LockId} (hstep : SharedStep k.current op k.shared k'.shared)
    (hpc : k.cur.pc = .removeLock l)
    (hheld : k'.held = Function.update k.held k.current ((k.held k.current).erase l)) :
    k'.LocksListed := by
  refine ⟨fun t => ?_, fun t m hm => ?_, h.fresh_step howned hstep⟩
  · rw [hheld]
    by_cases ht : t = k.current
    · subst ht
      rw [Function.update_self]
      exact (h.nodup _).erase l
    · rw [Function.update_of_ne ht]
      exact h.nodup t
  · rw [hheld] at hm
    by_cases ht : t = k.current
    · subst ht
      rw [Function.update_self, (h.nodup k.current).mem_erase_iff] at hm
      refine hstep.listed (fun _ hremove => hm.1 ?_) (h.listed _ m hm.2)
      exact (Pc.removeLock.inj (hpc.symm.trans hremove)).symm
    · rw [Function.update_of_ne ht] at hm
      exact hstep.listed (fun heq => absurd heq ht) (h.listed t m hm)

/-- What a step does to the lists of locks: nothing, or the one thing that it
does where the running thread is. -/
theorem held_step (h : k.LocksListed) (hsound : k.Sound) {act : KernelAct}
    (hk' : k.step act = some k') :
    k'.held = k.held ∧ (k'.shared = k.shared ∨
        (∀ l, k.cur.pc ≠ .take l) ∧ ∀ l, k.cur.pc ≠ .removeLock l) ∨
      (∃ l, k.cur.pc = .take l ∧ k' = k.lockTake l) ∨
      ∃ l, k.cur.pc = .removeLock l ∧
        k'.held = Function.update k.held k.current ((k.held k.current).erase l) := by
  have hnew := h.held_unused (hsound.lists.unused _ (Nat.le_refl _))
  cases act with
  | tick allList =>
      simp only [Kernel.step] at hk'
      split at hk'
      · exact Or.inl ⟨held_timerInterrupt hk', Or.inl (shared_timerInterrupt hk')⟩
      · cases hk'
  | call op =>
      simp only [Kernel.step] at hk'
      split at hk'
      · rw [← Option.some.inj hk']
        exact Or.inl ⟨held_of_kept (kept_setOps _ _), Or.inl (shared_setOps _ _)⟩
      · cases hk'
  | run =>
      simp only [Kernel.step] at hk'
      split at hk'
      · rw [← Option.some.inj hk']
        exact Or.inl ⟨held_of_kept (kept_setRestore _ _), Or.inl (shared_setRestore _ _)⟩
      · by_cases htake : ∃ l, k.cur.pc = .take l
        · obtain ⟨l, hpc⟩ := htake
          rw [hpc] at hk'
          exact Or.inr (Or.inl ⟨l, hpc, (Option.some.inj hk').symm⟩)
        by_cases hremove : ∃ l, k.cur.pc = .removeLock l
        · obtain ⟨l, hpc⟩ := hremove
          rw [hpc] at hk'
          obtain ⟨k₁, hremoved, hk'⟩ := Option.bind_eq_some_iff.mp hk'
          refine Or.inr (Or.inr ⟨l, hpc, ?_⟩)
          rw [← Option.some.inj hk', held_of_kept (kept_goto _ _)]
          exact (held_threadRemoveLock hremoved).2
        · have hnot := And.intro (fun l hpc => htake ⟨l, hpc⟩) fun l hpc => hremove ⟨l, hpc⟩
          exact Or.inl ⟨held_advance hnew hsound.lists.current_lt hnot.1 hnot.2 hk',
            Or.inr hnot⟩

theorem step (h : k.LocksListed) (hsound : k.Sound) {act : KernelAct}
    (hk' : k.step act = some k') : k'.LocksListed := by
  have hstep := hsound.shared hk'
  rcases h.held_step hsound hk' with
    ⟨hheld, hshared | ⟨-, hremove⟩⟩ | ⟨l, hpc, rfl⟩ | ⟨l, hpc, hheld⟩
  · exact h.congr hshared hheld
  · exact h.same hsound.owned hstep hremove hheld
  · exact h.take hsound.owned hpc
  · exact h.remove hsound.owned hstep hpc hheld

end LocksListed

theorem locksListed_boot (values : Nat → Nat) : (boot values).LocksListed := by
  have hheld : ∀ t, (boot values).held t = 0 := by
    intro t
    rcases boot_cases values t with rfl | rfl | ⟨-, -, ht⟩
    · rfl
    · rfl
    · rw [held, kept, ht]
      rfl
  refine ⟨fun t => ?_, fun t l hl => ?_, fun t l hpc => ?_⟩
  · rw [hheld]
    exact Multiset.nodup_zero
  · rw [hheld] at hl
    exact absurd hl (Multiset.notMem_zero l)
  · rw [(boot_place values t).2.1]
    exact List.not_mem_nil

end Kernel

end PintosLabs
