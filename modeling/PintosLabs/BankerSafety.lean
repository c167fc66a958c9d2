/-
The banker stays safe: whatever commands it has answered, its books balance
and the live processes can be run to completion one after the other.
-/
import PintosLabs.BankerGrant

namespace PintosLabs

variable {r : Nat}

/-- The invariant of the command loop. -/
structure Banker.Inv (b : Banker r) : Prop extends b.Balanced where
  safe : Safe b.need b.held b.free b.live

theorem Banker.Inv.setReq {b : Banker r} (hb : b.Inv) (req : Vector Int32 r) :
    ({ b with req := req } : Banker r).Inv :=
  ⟨hb.toBalanced.setReq req, hb.safe⟩

theorem Banker.GrantedTo.live_eq {b b' : Banker r} {pid : Int}
    (h : b.GrantedTo pid b') : b'.live = b.live := by
  rw [live, h.max_eq, live]

theorem Banker.GrantedTo.balanced {b b' : Banker r} {pid : Int}
    (h : b.GrantedTo pid b') (hb : b.Balanced) (hlive : pid ∈ b.max)
    (hasked : 0 ≤ b.asked) (hcap : b.held pid + b.asked ≤ b.cap pid)
    (hfree : b.asked ≤ b.free) : b'.Balanced := by
  have hcapEq : b'.cap = b.cap := by
    funext key
    rw [cap, h.max_eq, cap]
  have htotal : b'.total = b.total := by rw [total, h.resource_eq, total]
  constructor
  · intro key
    rw [h.mem_needed, h.max_eq, hb.mem_needed]
  · intro key
    rw [h.mem_allocated, h.max_eq, hb.mem_allocated]
  · intro key
    rw [h.held_eq]
    exact hb.heldAfter_nonneg hasked key
  · intro key
    rw [h.need_eq, needAfter]
    by_cases hkey : key = pid
    · subst hkey
      rw [Function.update_self, sub_nonneg]
      exact hb.asked_le_need hcap
    · rw [Function.update_of_ne hkey]
      exact hb.need_nonneg key
  · intro key
    rw [hcapEq, h.held_eq, h.need_eq, heldAfter, needAfter, hb.cap_eq]
    by_cases hkey : key = pid
    · subst hkey
      rw [Function.update_self, Function.update_self, add_add_sub_cancel]
    · rw [Function.update_of_ne hkey, Function.update_of_ne hkey]
  · rw [h.live_eq, hcapEq, htotal]
    exact hb.cap_le
  · rw [h.free_eq]
    exact sub_nonneg.mpr hfree
  · rw [h.live_eq, h.free_eq, h.held_eq, htotal, heldAfter,
      heldSum_update_add b.asked b.live_nodup (mem_live.mpr hlive),
      ← hb.balance, sub_add_add_cancel]

/-- A request keeps the invariant, whatever the answer. -/
theorem Banker.Inv.requestJudge {b : Banker r} (hb : b.Inv) {pid : Int}
    (hlive : pid ∈ b.max) (hasked : 0 ≤ b.asked) :
    ∃ b' granted, PintosLabs.requestJudge b pid = some (b', granted) ∧
      b'.Inv ∧ b'.max = b.max ∧ b'.resource = b.resource := by
  rcases hb.requestJudge_spec hlive hasked with
    ⟨b', hrun, ⟨⟨hcap, hfree⟩, hsafe⟩, hgranted⟩ | ⟨hrun, -⟩
  · refine ⟨b', true, hrun, ⟨?_, ?_⟩, hgranted.max_eq, hgranted.resource_eq⟩
    · exact hgranted.balanced hb.toBalanced hlive hasked hcap hfree
    · rw [hgranted.need_eq, hgranted.held_eq, hgranted.free_eq,
        hgranted.live_eq]
      exact hsafe
  · exact ⟨b, false, hrun, hb, rfl, rfl⟩

theorem newJudge_iff {b : Banker r} {pid : Int} :
    newJudge b pid = true ↔ pid ∉ b.max ∧ b.asked ≤ b.total := by
  unfold newJudge
  split
  case isTrue h => simp [h]
  case isFalse h =>
    simp only [h, not_false_eq_true, true_and, List.all_eq_true,
      List.mem_finRange, forall_true_left, Bool.not_eq_true',
      decide_eq_false_iff_not, gt_iff_lt, Int32.lt_iff_toInt_lt, not_lt]
    rfl

/-- A process that was let in needs no more than there is, so it can always
be run last. -/
theorem Banker.Inv.newProcess {b : Banker r} (hb : b.Inv) {pid : Int}
    (hasked : 0 ≤ b.asked) (hjudge : newJudge b pid = true) :
    (PintosLabs.newProcess b pid).Inv := by
  obtain ⟨hfresh, hfits⟩ := newJudge_iff.mp hjudge
  unfold PintosLabs.newProcess
  split
  case isTrue => exact hb
  case isFalse hr =>
    set b' : Banker r :=
      { b with
        max := b.max.insert pid b.req
        needed := b.needed.insert pid b.req
        allocated := b.allocated.insert pid (Vector.replicate r 0) }
    have hperm : b'.live.Perm (pid :: b.live) := by
      rw [List.perm_ext_iff_of_nodup b'.live_nodup
        (List.nodup_cons.mpr ⟨by simpa using hfresh, b.live_nodup⟩)]
      intro key
      rw [mem_live, List.mem_cons, mem_live, PidMap.mem_insert, eq_comm]
    have hheldOf : b.held pid = 0 := by
      rw [held, PidMap.vec_of_not_mem
        (fun h => hfresh ((hb.mem_allocated pid).mp h))]
      exact vecInt_replicate_zero
    have hheld : b'.held = b.held := by
      funext key
      change vecInt (PidMap.vec (b.allocated.insert pid _) key) = _
      rw [PidMap.vec_insert]
      split
      case isTrue h => rw [← h, hheldOf, vecInt_replicate_zero]
      case isFalse => rfl
    have hneed : ∀ key, b'.need key =
        if pid = key then b.asked else b.need key := by
      intro key
      change vecInt (PidMap.vec (b.needed.insert pid _) key) = _
      rw [PidMap.vec_insert]
      split <;> rfl
    have hcap : ∀ key, b'.cap key =
        if pid = key then b.asked else b.cap key := by
      intro key
      change vecInt (PidMap.vec (b.max.insert pid _) key) = _
      rw [PidMap.vec_insert]
      split <;> rfl
    refine ⟨⟨?_, ?_, ?_, ?_, ?_, ?_, hb.free_nonneg, ?_⟩, ?_⟩
    · intro key
      rw [PidMap.mem_insert, PidMap.mem_insert, hb.mem_needed]
    · intro key
      rw [PidMap.mem_insert, PidMap.mem_insert, hb.mem_allocated]
    · rw [hheld]
      exact hb.held_nonneg
    · intro key
      rw [hneed]
      split
      case isTrue => exact hasked
      case isFalse => exact hb.need_nonneg key
    · intro key
      rw [hcap, hneed, hheld]
      split
      case isTrue h => rw [← h, hheldOf, zero_add]
      case isFalse => exact hb.cap_eq key
    · intro key hkey
      rw [hcap]
      split
      case isTrue => exact hfits
      case isFalse h =>
        refine hb.cap_le key ?_
        exact (List.mem_cons.mp (hperm.mem_iff.mp hkey)).resolve_left
          (Ne.symm h)
    · rw [heldSum_perm hperm, hheld, heldSum_cons, hheldOf, zero_add]
      exact hb.balance
    · refine Safe.perm ?_ hperm.symm
      rw [hheld]
      apply Safe.add
      · refine hb.safe.congr (fun key hkey => ?_) (fun _ _ => rfl)
        rw [hneed, if_neg]
        rintro rfl
        exact hfresh (mem_live.mp hkey)
      · rw [hneed, if_pos rfl]
        exact hfits.trans_eq hb.balance.symm

/-- What `recycle` leaves: the resources of the process are free again and
its entries are gone. -/
theorem Banker.Balanced.recycle_spec {b : Banker r} (hb : b.Balanced)
    {pid : Int} (hlive : pid ∈ b.max) :
    ∃ b', recycle b pid = some b' ∧ b'.Balanced ∧
      b'.live.Perm (b.live.erase pid) ∧ b'.free = b.free + b.held pid ∧
      ∀ key, key ≠ pid → b'.held key = b.held key ∧ b'.need key = b.need key := by
  have hread := PidMap.read_of_mem ((hb.mem_allocated pid).mpr hlive)
  refine ⟨{ b with
    remain := addVector b.remain (b.allocated.vec pid)
    max := b.max.erase pid
    allocated := b.allocated.erase pid
    needed := b.needed.erase pid }, by simp [recycle, hread], ?_⟩
  set b' : Banker r :=
    { b with
      remain := addVector b.remain (b.allocated.vec pid)
      max := b.max.erase pid
      allocated := b.allocated.erase pid
      needed := b.needed.erase pid }
  have hperm : b'.live.Perm (b.live.erase pid) := by
    rw [List.perm_ext_iff_of_nodup b'.live_nodup (b.live_nodup.erase pid)]
    intro key
    rw [mem_live, b.live_nodup.mem_erase_iff, mem_live, PidMap.mem_erase, ne_comm]
  have hfree : b'.free = b.free + b.held pid := by
    apply vecInt_addVector
    · exact add_nonneg hb.free_nonneg (hb.held_nonneg pid)
    · exact hb.free_add_held_lt hlive
  have hvec : ∀ (m : PidMap r) (key : Int),
      vecInt (PidMap.vec (m.erase pid) key) =
        if pid = key then 0 else vecInt (m.vec key) := by
    intro m key
    rw [PidMap.vec_erase]
    split
    · exact vecInt_replicate_zero
    · rfl
  have hheld : ∀ key, b'.held key = if pid = key then 0 else b.held key :=
    hvec b.allocated
  have hneed : ∀ key, b'.need key = if pid = key then 0 else b.need key :=
    hvec b.needed
  have hcap : ∀ key, b'.cap key = if pid = key then 0 else b.cap key :=
    hvec b.max
  refine ⟨⟨?_, ?_, ?_, ?_, ?_, ?_, ?_, ?_⟩, hperm, hfree, ?_⟩
  · intro key
    rw [PidMap.mem_erase, PidMap.mem_erase, hb.mem_needed]
  · intro key
    rw [PidMap.mem_erase, PidMap.mem_erase, hb.mem_allocated]
  · intro key
    rw [hheld]
    split
    case isTrue => exact le_rfl
    case isFalse => exact hb.held_nonneg key
  · intro key
    rw [hneed]
    split
    case isTrue => exact le_rfl
    case isFalse => exact hb.need_nonneg key
  · intro key
    rw [hcap, hheld, hneed]
    split
    case isTrue => exact (add_zero 0).symm
    case isFalse => exact hb.cap_eq key
  · intro key hkey
    have hmem := hperm.mem_iff.mp hkey
    rw [b.live_nodup.mem_erase_iff] at hmem
    rw [hcap, if_neg (Ne.symm hmem.1)]
    exact hb.cap_le key hmem.2
  · rw [hfree]
    exact add_nonneg hb.free_nonneg (hb.held_nonneg pid)
  · have hrest : heldSum b'.held (b.live.erase pid) =
        heldSum b.held (b.live.erase pid) := by
      apply heldSum_congr
      intro key hkey
      rw [b.live_nodup.mem_erase_iff] at hkey
      rw [hheld, if_neg (Ne.symm hkey.1)]
    rw [heldSum_perm hperm, hrest, hfree, add_assoc, ← heldSum_cons,
      ← heldSum_perm (List.perm_cons_erase (mem_live.mpr hlive))]
    exact hb.balance
  · intro key hkey
    rw [hheld, hneed, if_neg (Ne.symm hkey), if_neg (Ne.symm hkey)]
    exact ⟨rfl, rfl⟩

theorem Banker.Inv.recycle {b : Banker r} (hb : b.Inv) {pid : Int}
    (hlive : pid ∈ b.max) : ∃ b', PintosLabs.recycle b pid = some b' ∧ b'.Inv := by
  obtain ⟨b', hrun, hbalanced, hperm, hfree, hother⟩ := hb.recycle_spec hlive
  refine ⟨b', hrun, hbalanced, ?_⟩
  have hsafe := hb.safe.remove (hb.held_nonneg pid) (mem_live.mpr hlive)
  rw [← hfree] at hsafe
  have hne : ∀ key ∈ b.live.erase pid, key ≠ pid :=
    fun key hkey => (b.live_nodup.mem_erase_iff.mp hkey).1
  exact (hsafe.congr (fun key hkey => ((hother key (hne key hkey)).2).symm)
    (fun key hkey => ((hother key (hne key hkey)).1).symm)).perm hperm.symm

/-! The command loop. -/

/-- The commands the banker is meant for: amounts are not negative, and a
request names a live process. -/
def BankerCommand.Allowed (b : Banker r) : BankerCommand r → Prop
  | .request pid amounts => pid ∈ b.max ∧ 0 ≤ vecInt amounts
  | .new _ amounts => 0 ≤ vecInt amounts
  | .terminate _ => True

/-- Every allowed command is answered, and keeps the invariant. -/
theorem Banker.Inv.bankerCommand {b : Banker r} (hb : b.Inv)
    {command : BankerCommand r} (hallowed : command.Allowed b) :
    ∃ b' answer, PintosLabs.bankerCommand b command = some (b', answer) ∧
      b'.Inv := by
  cases command with
  | request pid amounts =>
      obtain ⟨b', granted, hrun, hinv, -⟩ :=
        (hb.setReq amounts).requestJudge hallowed.1 hallowed.2
      exact ⟨b', granted, hrun, hinv⟩
  | new pid amounts =>
      simp only [PintosLabs.bankerCommand]
      split
      case isTrue hjudge =>
        exact ⟨_, true, rfl, (hb.setReq amounts).newProcess hallowed hjudge⟩
      case isFalse => exact ⟨_, false, rfl, hb.setReq amounts⟩
  | terminate pid =>
      simp only [PintosLabs.bankerCommand]
      split
      case isTrue hlive =>
        obtain ⟨b', hrun, hinv⟩ := hb.recycle hlive
        exact ⟨b', true, by rw [hrun]; rfl, hinv⟩
      case isFalse => exact ⟨b, false, rfl, hb⟩

theorem bankerBoot_inv {resource : Vector Int32 r}
    (hresource : 0 ≤ vecInt resource) : (bankerBoot resource).Inv := by
  have hvec : ∀ key, vecInt (PidMap.vec (∅ : PidMap r) key) = 0 := by
    intro key
    rw [PidMap.vec_of_not_mem Std.TreeMap.not_mem_emptyc]
    exact vecInt_replicate_zero
  have hlive : (bankerBoot resource).live = [] := by
    rw [List.eq_nil_iff_forall_not_mem]
    intro key hkey
    exact Std.TreeMap.not_mem_emptyc (Banker.mem_live.mp hkey)
  refine ⟨⟨fun _ => Iff.rfl, fun _ => Iff.rfl, fun key => (hvec key).ge,
    fun key => (hvec key).ge, fun key => ?_, ?_, hresource, ?_⟩, [], ?_, trivial⟩
  · change vecInt (PidMap.vec ∅ key) =
      vecInt (PidMap.vec ∅ key) + vecInt (PidMap.vec ∅ key)
    rw [hvec, add_zero]
  · simp [hlive]
  · rw [hlive, heldSum_nil, add_zero]
    rfl
  · rw [hlive]

/-- The invariant holds after every run of allowed commands. -/
theorem bankerStep_inv {resource : Vector Int32 r} {b : Banker r}
    {commands : List (BankerCommand r)} (hresource : 0 ≤ vecInt resource)
    (hrun : Run bankerStep (fun b command => command.Allowed b)
      (bankerBoot resource) commands b) : b.Inv := by
  refine hrun.invariant _ ?_ (bankerBoot_inv hresource)
  intro b b' command hb hallowed hstep
  obtain ⟨b'', answer, hcommand, hinv⟩ := hb.bankerCommand hallowed
  rw [bankerStep, hcommand, Option.map_some, Option.some.injEq] at hstep
  exact hstep ▸ hinv

/-- Have each process in turn ask for its whole remaining need and then
terminate; the answers to these commands. -/
def drain (b : Banker r) : List Int → Option (List Bool)
  | [] => some []
  | pid :: rest => do
      let (b, granted) ← bankerCommand b (.request pid (b.needed.vec pid))
      let (b, ended) ← bankerCommand b (.terminate pid)
      let answers ← drain b rest
      some (granted :: ended :: answers)

/-- The first process of an admissible order is granted its whole need, and
once it has terminated the rest of the order is admissible. -/
theorem Banker.Balanced.drain_step {b : Banker r} (hb : b.Balanced) {pid : Int}
    {rest : List Int} (hperm : (pid :: rest).Perm b.live)
    (hadmits : Admits b.need b.held b.free (pid :: rest)) :
    ∃ b₁ b₂, PintosLabs.bankerCommand b (.request pid (b.needed.vec pid)) =
        some (b₁, true) ∧
      PintosLabs.bankerCommand b₁ (.terminate pid) = some (b₂, true) ∧
      b₂.Balanced ∧ rest.Perm b₂.live ∧ Admits b₂.need b₂.held b₂.free rest := by
  have hlive : pid ∈ b.max := mem_live.mp (hperm.mem_iff.mp List.mem_cons_self)
  have hnodup : (pid :: rest).Nodup := hperm.nodup_iff.mpr b.live_nodup
  rw [List.nodup_cons] at hnodup
  obtain ⟨hneed, hrest⟩ := hadmits
  have hne : ∀ key ∈ rest, key ≠ pid := by
    rintro key hkey rfl
    exact hnodup.1 hkey
  set c : Banker r := { b with req := b.needed.vec pid } with hc
  have hcb : c.Balanced := hb.setReq _
  have hcap : c.held pid + c.asked ≤ c.cap pid := (hb.cap_eq pid).ge
  -- once the process holds its whole need, giving it all back frees what it held
  have hback : c.free - c.asked + (c.held pid + c.asked) = b.free + b.held pid :=
    sub_add_add_cancel _ _ _
  have hgrantable : c.Grantable pid := by
    refine ⟨⟨hcap, hneed⟩, pid :: rest, hperm, ?_, ?_⟩
    · rw [needAfter, Function.update_self]
      exact (sub_self _).le.trans (sub_nonneg.mpr hneed)
    · rw [heldAfter, Function.update_self, hback]
      refine hrest.congr (fun key hkey => ?_) (fun key hkey => ?_)
      · rw [needAfter, Function.update_of_ne (hne key hkey)]
        rfl
      · rw [Function.update_of_ne (hne key hkey)]
        rfl
  rcases hcb.requestJudge_spec hlive (hb.need_nonneg pid) with
    ⟨b₁, hrun, -, hgranted⟩ | ⟨-, hrefused⟩
  case inr => exact absurd hgrantable hrefused
  have hb₁ := hgranted.balanced hcb hlive (hb.need_nonneg pid) hcap hneed
  have hlive₁ : pid ∈ b₁.max := hgranted.max_eq ▸ hlive
  obtain ⟨b₂, hrun₂, hb₂, hperm₂, hfree₂, hother⟩ := hb₁.recycle_spec hlive₁
  refine ⟨b₁, b₂, hrun, ?_, hb₂, ?_, ?_⟩
  · simp only [PintosLabs.bankerCommand, if_pos hlive₁, hrun₂, Option.map_some]
  · have herase := hperm.erase pid
    rw [List.erase_cons_head] at herase
    rw [hgranted.live_eq] at hperm₂
    exact herase.trans hperm₂.symm
  · rw [hfree₂, hgranted.free_eq, hgranted.held_eq, heldAfter,
      Function.update_self, hback]
    refine hrest.congr (fun key hkey => ?_) (fun key hkey => ?_)
    · rw [(hother key (hne key hkey)).2, hgranted.need_eq, needAfter,
        Function.update_of_ne (hne key hkey)]
      rfl
    · rw [(hother key (hne key hkey)).1, hgranted.held_eq, heldAfter,
        Function.update_of_ne (hne key hkey)]
      rfl

theorem Banker.Balanced.drain_admits {order : List Int} {b : Banker r}
    (hb : b.Balanced) (hperm : order.Perm b.live)
    (hadmits : Admits b.need b.held b.free order) :
    drain b order = some (List.replicate (2 * order.length) true) := by
  induction order generalizing b with
  | nil => rfl
  | cons pid rest ih =>
      obtain ⟨b₁, b₂, hrequest, hterminate, hb₂, hperm₂, hadmits₂⟩ :=
        hb.drain_step hperm hadmits
      have hrest := ih hb₂ hperm₂ hadmits₂
      simp [drain, hrequest, hterminate, hrest, Nat.mul_succ,
        List.replicate_succ]

/-- The banker never reaches a deadlock: in every state it can reach, the live
processes can be ordered so that each in turn is granted its whole remaining
need and then terminates, every command answered `OK`. -/
theorem banker_never_deadlocks {resource : Vector Int32 r} {b : Banker r}
    {commands : List (BankerCommand r)} (hresource : 0 ≤ vecInt resource)
    (hrun : Run bankerStep (fun b command => command.Allowed b)
      (bankerBoot resource) commands b) :
    ∃ order : List Int, order.Nodup ∧ (∀ pid, pid ∈ order ↔ pid ∈ b.max) ∧
      drain b order = some (List.replicate (2 * order.length) true) := by
  have hb := bankerStep_inv hresource hrun
  obtain ⟨order, hperm, hadmits⟩ := hb.safe
  refine ⟨order, hperm.nodup_iff.mpr b.live_nodup, fun pid => ?_,
    hb.drain_admits hperm hadmits⟩
  rw [hperm.mem_iff, Banker.mem_live]

/-- The banker grants exactly the safe requests: in every state it can reach,
a request of a live process is granted if and only if it stays within what the
process may still take and within what is free, and the processes can be put
in an order in which each one's need after the grant is met.  A granted
request changes the books by just its amounts, and a refused one not at all. -/
theorem request_granted_iff_safe {resource : Vector Int32 r} {b : Banker r}
    {commands : List (BankerCommand r)} (hresource : 0 ≤ vecInt resource)
    (hrun : Run bankerStep (fun b command => command.Allowed b)
      (bankerBoot resource) commands b)
    {pid : Int} (hlive : pid ∈ b.max) {req : Vector Int32 r}
    (hreq : 0 ≤ vecInt req) :
    ∃ b' granted, requestJudge { b with req := req } pid = some (b', granted) ∧
      (granted = true ↔
        vecInt req ≤ b.cap pid - b.held pid ∧ vecInt req ≤ b.free ∧
          Safe (Function.update b.need pid (b.need pid - vecInt req))
            (Function.update b.held pid (b.held pid + vecInt req))
            (b.free - vecInt req) b.live) ∧
      (granted = true →
        Banker.GrantedTo { b with req := req } pid b') ∧
      (granted = false → b' = { b with req := req }) := by
  have hb := ((bankerStep_inv hresource hrun).toBalanced).setReq req
  have hiff : Banker.Grantable { b with req := req } pid ↔
      vecInt req ≤ b.cap pid - b.held pid ∧ vecInt req ≤ b.free ∧
        Safe (Function.update b.need pid (b.need pid - vecInt req))
          (Function.update b.held pid (b.held pid + vecInt req))
          (b.free - vecInt req) b.live := by
    rw [le_sub_iff_add_le', ← and_assoc]
    exact Iff.rfl
  rcases hb.requestJudge_spec hlive hreq with
    ⟨b', hjudge, hgrant, hgranted⟩ | ⟨hjudge, hrefused⟩
  · exact ⟨b', true, hjudge, iff_of_true rfl (hiff.mp hgrant), fun _ => hgranted,
      fun h => absurd h.symm Bool.false_ne_true⟩
  · exact ⟨_, false, hjudge, iff_of_false Bool.false_ne_true (hiff.not.mp hrefused),
      fun h => absurd h Bool.false_ne_true, fun _ => rfl⟩

/-! The books, read off the maps. -/

/-- What the vectors and the maps of the banker say about each other. -/
structure Banker.Bookkept (b : Banker r) : Prop where
  keys_needed : ∀ pid, pid ∈ b.needed ↔ pid ∈ b.max
  keys_allocated : ∀ pid, pid ∈ b.allocated ↔ pid ∈ b.max
  remain_nonneg : ∀ i, 0 ≤ vecInt b.remain i
  remain_add : ∀ i,
    vecInt b.remain i + (b.allocated.toList.map fun entry => vecInt entry.2 i).sum =
      vecInt b.resource i
  entries : ∀ (pid : Int) (cap held need : Vector Int32 r),
    b.max[pid]? = some cap → b.allocated[pid]? = some held →
      b.needed[pid]? = some need → ∀ i,
        0 ≤ vecInt held i ∧ vecInt held i ≤ vecInt cap i ∧
          vecInt cap i ≤ vecInt b.resource i ∧
          vecInt need i = vecInt cap i - vecInt held i

theorem heldSum_apply (held : Int → Fin r → Int) (procs : List Int)
    (i : Fin r) : heldSum held procs i = (procs.map fun pid => held pid i).sum := by
  induction procs with
  | nil => rfl
  | cons pid procs ih =>
      rw [heldSum_cons, Pi.add_apply, ih, List.map_cons, List.sum_cons]

theorem PidMap.vec_of_getElem? {m : PidMap r} {pid : Int} {v : Vector Int32 r}
    (hget : m[pid]? = some v) : m.vec pid = v := by
  unfold vec
  rw [hget]
  rfl

theorem Banker.Balanced.allocated_keys_perm {b : Banker r} (hb : b.Balanced) :
    b.allocated.keys.Perm b.live := by
  rw [List.perm_ext_iff_of_nodup b.allocated.keys_nodup b.live_nodup]
  intro pid
  rw [Std.TreeMap.mem_keys, mem_live, hb.mem_allocated]

/-- The sum over the entries of `allocated` is the sum over the live
processes. -/
theorem Banker.Balanced.allocated_sum {b : Banker r} (hb : b.Balanced)
    (i : Fin r) :
    (b.allocated.toList.map fun entry => vecInt entry.2 i).sum =
      heldSum b.held b.live i := by
  have hentries : (b.allocated.toList.map fun entry => vecInt entry.2 i) =
      b.allocated.toList.map fun entry => b.held entry.1 i := by
    apply List.map_congr_left
    intro entry hentry
    rw [held, PidMap.vec_of_mem_toList hentry]
  have hkeys : (b.allocated.toList.map fun entry => b.held entry.1 i) =
      b.allocated.keys.map fun pid => b.held pid i := by
    rw [← Std.TreeMap.map_fst_toList_eq_keys, List.map_map]
    rfl
  rw [hentries, hkeys, heldSum_apply,
    (hb.allocated_keys_perm.map fun pid => b.held pid i).sum_eq]

theorem Banker.Balanced.bookkept {b : Banker r} (hb : b.Balanced) :
    b.Bookkept := by
  refine ⟨hb.mem_needed, hb.mem_allocated, fun i => hb.free_nonneg i,
    fun i => ?_, ?_⟩
  · rw [hb.allocated_sum]
    exact congrFun hb.balance i
  · intro pid cap held need hcap hheld hneed i
    have hlive : pid ∈ b.live := by
      rw [mem_live, Std.TreeMap.mem_iff_isSome_getElem?, hcap]
      rfl
    have hsplit : vecInt cap i = vecInt held i + vecInt need i := by
      have heq := congrFun (hb.cap_eq pid) i
      rwa [Pi.add_apply, Banker.cap, Banker.held, Banker.need,
        PidMap.vec_of_getElem? hcap, PidMap.vec_of_getElem? hheld,
        PidMap.vec_of_getElem? hneed] at heq
    have hheldNonneg : 0 ≤ vecInt held i := by
      have hnonneg := hb.held_nonneg pid i
      rwa [Banker.held, PidMap.vec_of_getElem? hheld] at hnonneg
    have hneedNonneg : 0 ≤ vecInt need i := by
      have hnonneg := hb.need_nonneg pid i
      rwa [Banker.need, PidMap.vec_of_getElem? hneed] at hnonneg
    have hcapLe : vecInt cap i ≤ vecInt b.resource i := by
      have hle := hb.cap_le pid hlive i
      rwa [Banker.cap, PidMap.vec_of_getElem? hcap] at hle
    exact ⟨hheldNonneg, by omega, hcapLe, by omega⟩

theorem recycle_resource {b b' : Banker r} {pid : Int}
    (hrun : recycle b pid = some b') : b'.resource = b.resource := by
  obtain ⟨held, -, hb'⟩ := Option.bind_eq_some_iff.mp hrun
  cases hb'
  rfl

theorem safeCheck_resource {b b' : Banker r} {tmpAllocated tmpNeeded : PidMap r}
    {answer : Bool}
    (hrun : safeCheck b tmpAllocated tmpNeeded = some (b', answer)) :
    b'.resource = b.resource := by
  obtain ⟨st, -, hscanned⟩ := Option.bind_eq_some_iff.mp hrun
  split at hscanned
  · obtain ⟨maps, -, hb'⟩ := Option.bind_eq_some_iff.mp hscanned
    cases hb'
    rfl
  · cases hscanned
    rfl

theorem requestJudge_resource {b b' : Banker r} {pid : Int} {answer : Bool}
    (hrun : requestJudge b pid = some (b', answer)) :
    b'.resource = b.resource := by
  unfold requestJudge at hrun
  simp only [Option.bind_eq_bind, Option.bind_eq_some_iff] at hrun
  obtain ⟨within, -, hwithin⟩ := hrun
  split at hwithin
  · rw [Option.bind_eq_some_iff] at hwithin
    obtain ⟨tmp, -, hchecked⟩ := hwithin
    exact safeCheck_resource hchecked
  · cases hwithin
    rfl

/-- No command changes what there is of each resource. -/
theorem bankerCommand_resource {b b' : Banker r} {command : BankerCommand r}
    {answer : Bool} (hcommand : bankerCommand b command = some (b', answer)) :
    b'.resource = b.resource := by
  cases command with
  | request pid amounts =>
      have hrun : requestJudge { b with req := amounts } pid =
          some (b', answer) := hcommand
      rw [requestJudge_resource hrun]
  | new pid amounts =>
      simp only [bankerCommand] at hcommand
      split at hcommand
      · cases hcommand
        unfold newProcess
        split <;> rfl
      · cases hcommand
        rfl
  | terminate pid =>
      simp only [bankerCommand] at hcommand
      split at hcommand
      · obtain ⟨b'', hrun, hb'⟩ := Option.map_eq_some_iff.mp hcommand
        cases hb'
        exact recycle_resource hrun
      · cases hcommand
        rfl

/-- The books of the banker are right in every state it can reach. -/
theorem banker_bookkept {resource : Vector Int32 r} {b : Banker r}
    {commands : List (BankerCommand r)} (hresource : 0 ≤ vecInt resource)
    (hrun : Run bankerStep (fun b command => command.Allowed b)
      (bankerBoot resource) commands b) :
    b.Bookkept ∧ b.resource = resource := by
  refine ⟨(bankerStep_inv hresource hrun).toBalanced.bookkept, ?_⟩
  refine hrun.invariant (fun b => b.resource = resource) ?_ rfl
  intro b b' command hb _ hstep
  obtain ⟨⟨b'', answer⟩, hcommand, rfl⟩ := Option.map_eq_some_iff.mp hstep
  exact (bankerCommand_resource hcommand).trans hb

/-! Requests of processes that there are not. -/

/-- A request is answered `NOT OK`, and a later `new` of the same pid is judged as
if it had not been made. -/
def Banker.Refuses (b : Banker r) (pid : Int) (amounts : Vector Int32 r) : Prop :=
  ∃ b', bankerCommand b (.request pid amounts) = some (b', false) ∧
    b'.max = b.max ∧ b'.allocated = b.allocated ∧ b'.needed = b.needed ∧
      b'.remain = b.remain ∧
      ∀ req, newJudge { b' with req := req } pid = newJudge { b with req := req } pid

/-- `_max[pid]` is a vector without elements, and the first of them is read. -/
theorem request_unknown (hr : 0 < r) {b : Banker r} {pid : Int} (hpid : pid ∉ b.live)
    (amounts : Vector Int32 r) : bankerCommand b (.request pid amounts) = none := by
  have hread : b.max.read pid = none := by
    rw [Banker.mem_live, Std.TreeMap.mem_iff_isSome_getElem?,
      Option.not_isSome_iff_eq_none] at hpid
    rw [PidMap.read, if_neg (Nat.ne_of_gt hr), hpid]
  simp only [bankerCommand, requestJudge, requestWithin, hread, Option.bind_eq_bind,
    Option.bind_none]

/-- In no state is a request of a process that is not live refused as it should
be: there is no answer to it at all. -/
theorem unknown_request_not_refused (hr : 0 < r) {b : Banker r} {pid : Int}
    (hpid : pid ∉ b.live) (amounts : Vector Int32 r) : ¬ b.Refuses pid amounts := by
  intro hrefuses
  obtain ⟨b', hanswer, -⟩ := hrefuses
  cases (request_unknown hr hpid amounts).symm.trans hanswer

namespace BankerWitness

/-- Ten units of one resource, and a process that may use six of them. -/
def opened : Banker 1 :=
  (bankerStep (bankerBoot #v[10]) (.new 1 #v[6])).get (by decide +kernel)

/-- The process has been granted four units. -/
def granted : Banker 1 :=
  (bankerStep opened (.request 1 #v[4])).get (by decide +kernel)

theorem granted_reachable :
    Run bankerStep (fun b command => command.Allowed b) (bankerBoot #v[10])
      [.new 1 #v[6], .request 1 #v[4]] granted := by
  have hopened : Run bankerStep (fun b command => command.Allowed b)
      (bankerBoot #v[10]) [.new 1 #v[6]] opened :=
    (Run.nil _).snoc (show 0 ≤ vecInt #v[6] by decide +kernel)
      (Option.some_get _).symm
  exact hopened.snoc ⟨by decide +kernel, by decide +kernel⟩
    (Option.some_get _).symm

theorem banker_never_deadlocks_granted :
    ∃ order : List Int, order.Nodup ∧
      (∀ pid, pid ∈ order ↔ pid ∈ granted.max) ∧
      drain granted order = some (List.replicate (2 * order.length) true) :=
  banker_never_deadlocks (by decide +kernel) granted_reachable

theorem request_granted_iff_safe_granted :
    ∃ b' answer, requestJudge { granted with req := #v[2] } 1 =
        some (b', answer) ∧
      (answer = true ↔
        vecInt #v[2] ≤ granted.cap 1 - granted.held 1 ∧
          vecInt #v[2] ≤ granted.free ∧
          Safe (Function.update granted.need 1 (granted.need 1 - vecInt #v[2]))
            (Function.update granted.held 1 (granted.held 1 + vecInt #v[2]))
            (granted.free - vecInt #v[2]) granted.live) ∧
      (answer = true →
        Banker.GrantedTo { granted with req := #v[2] } 1 b') ∧
      (answer = false → b' = { granted with req := #v[2] }) :=
  request_granted_iff_safe (by decide +kernel) granted_reachable
    (by decide +kernel) (by decide +kernel)

theorem banker_bookkept_granted :
    granted.Bookkept ∧ granted.resource = #v[10] :=
  banker_bookkept (by decide +kernel) granted_reachable

theorem unknown_request_not_refused_granted : ¬ granted.Refuses 2 #v[1] :=
  unknown_request_not_refused (by decide) (by decide +kernel) _

/-- A request before any process has been created. -/
theorem first_request_fails :
    ¬ ∀ (r : Nat) (resource : Vector Int32 r) (commands : List (BankerCommand r))
      (b : Banker r) (pid : Int) (amounts : Vector Int32 r), 0 < r →
      Run bankerStep (fun _ _ => True) (bankerBoot resource) commands b →
      pid ∉ b.live → b.Refuses pid amounts := by
  intro hclaim
  have hpid : (1 : Int) ∉ (bankerBoot #v[10]).live := by decide +kernel
  obtain ⟨b', hanswer, -⟩ :=
    hclaim 1 #v[10] [] _ 1 #v[1] (by decide) (Run.nil _) hpid
  cases (request_unknown (by decide) hpid #v[1]).symm.trans hanswer

example : drain granted [1] = some [true, true] := by decide +kernel

end BankerWitness

end PintosLabs
