/-
What `request_judge` answers: a request within the maximum and the free
resources is granted exactly when the state after it is safe, and a request
that is refused changes nothing.
-/
import PintosLabs.BankerScan

namespace PintosLabs

variable {r : Nat}

/-! The banker's state as needs and holdings by pid. -/

def Banker.need (b : Banker r) (pid : Int) : Fin r → Int :=
  vecInt (b.needed.vec pid)

def Banker.held (b : Banker r) (pid : Int) : Fin r → Int :=
  vecInt (b.allocated.vec pid)

def Banker.cap (b : Banker r) (pid : Int) : Fin r → Int :=
  vecInt (b.max.vec pid)

def Banker.free (b : Banker r) : Fin r → Int := vecInt b.remain

def Banker.total (b : Banker r) : Fin r → Int := vecInt b.resource

def Banker.asked (b : Banker r) : Fin r → Int := vecInt b.req

/-- The live processes. -/
def Banker.live (b : Banker r) : List Int := b.max.keys

@[simp] theorem Banker.mem_live {b : Banker r} {pid : Int} :
    pid ∈ b.live ↔ pid ∈ b.max :=
  Std.TreeMap.mem_keys

theorem Banker.live_nodup (b : Banker r) : b.live.Nodup := b.max.keys_nodup

/-- The books of the banker balance: one entry of each map for each live
process, its maximum split into what it holds and what it may still need, and
the resources split into the free ones and the held ones. -/
structure Banker.Balanced (b : Banker r) : Prop where
  mem_needed : ∀ pid, pid ∈ b.needed ↔ pid ∈ b.max
  mem_allocated : ∀ pid, pid ∈ b.allocated ↔ pid ∈ b.max
  held_nonneg : ∀ pid, 0 ≤ b.held pid
  need_nonneg : ∀ pid, 0 ≤ b.need pid
  cap_eq : ∀ pid, b.cap pid = b.held pid + b.need pid
  cap_le : ∀ pid ∈ b.live, b.cap pid ≤ b.total
  free_nonneg : 0 ≤ b.free
  balance : b.free + heldSum b.held b.live = b.total

theorem Banker.Balanced.setReq {b : Banker r} (hb : b.Balanced)
    (req : Vector Int32 r) : ({ b with req := req } : Banker r).Balanced :=
  ⟨hb.1, hb.2, hb.3, hb.4, hb.5, hb.6, hb.7, hb.8⟩

section Balanced

variable {b : Banker r} (hb : b.Balanced)
include hb

theorem Banker.Balanced.needed_keys_perm : b.needed.keys.Perm b.live := by
  rw [List.perm_ext_iff_of_nodup b.needed.keys_nodup b.live_nodup]
  intro pid
  rw [Std.TreeMap.mem_keys, mem_live, hb.mem_needed]

theorem Banker.Balanced.heldSum_nonneg : 0 ≤ heldSum b.held b.live := by
  apply List.sum_nonneg
  rintro _ hv
  obtain ⟨pid, -, rfl⟩ := List.mem_map.mp hv
  exact hb.held_nonneg pid

theorem Banker.Balanced.held_le {pid : Int} (hlive : pid ∈ b.max) :
    b.held pid ≤ heldSum b.held b.live := by
  have hsub : ∀ p ∈ [pid], p ∈ b.live := by simpa using hlive
  have hle := heldSum_le_of_subset (List.nodup_singleton pid) hsub
    (fun p _ => hb.held_nonneg p)
  simpa using hle

/-- No sum of a free and a held amount overflows. -/
theorem Banker.Balanced.free_add_held_lt {pid : Int} (hlive : pid ∈ b.max)
    (i : Fin r) : b.free i + b.held pid i < 2 ^ 31 := by
  have hle : b.held pid i ≤ heldSum b.held b.live i := hb.held_le hlive i
  have hbalance := congrFun hb.balance i
  have htotal : b.total i < 2 ^ 31 := vecInt_lt b.resource i
  simp only [Pi.add_apply] at hbalance
  omega

theorem Banker.Balanced.requestWithin_eq {pid : Int} (hlive : pid ∈ b.max)
    (hasked : 0 ≤ b.asked) :
    requestWithin b pid =
      some (decide (b.held pid + b.asked ≤ b.cap pid ∧ b.asked ≤ b.free)) := by
  have hcap := PidMap.read_of_mem hlive
  have hheld := PidMap.read_of_mem ((hb.mem_allocated pid).mpr hlive)
  simp only [requestWithin, hcap, hheld, Option.bind_eq_bind,
    Option.bind_some, Option.some.injEq]
  rw [Bool.eq_iff_iff, decide_eq_true_iff, List.all_eq_true]
  -- where the request is not above what is free, its sum cannot wrap
  have hsum : ∀ i : Fin r, b.asked i ≤ b.free i →
      (b.req[i] + (b.allocated.vec pid)[i]).toInt =
        b.asked i + b.held pid i := by
    intro i hle
    have hlt := hb.free_add_held_lt hlive i
    have hpos : 0 ≤ b.asked i := hasked i
    have hpos' : 0 ≤ b.held pid i := hb.held_nonneg pid i
    rw [Int32.toInt_add]
    change (b.asked i + b.held pid i).bmod (2 ^ 32) = _
    exact bmod_eq_self (by omega) (by omega)
  have hentry : ∀ i : Fin r,
      (!(decide ((b.max.vec pid)[i] < b.req[i] + (b.allocated.vec pid)[i]) ||
        decide (b.req[i] > b.remain[i]))) = true ↔
      b.held pid i + b.asked i ≤ b.cap pid i ∧ b.asked i ≤ b.free i := by
    intro i
    simp only [Bool.not_eq_true', Bool.or_eq_false_iff, decide_eq_false_iff_not,
      gt_iff_lt, Int32.lt_iff_toInt_lt, not_lt]
    constructor
    · rintro ⟨hmax, hfree⟩
      rw [hsum i hfree] at hmax
      exact ⟨by rw [add_comm]; exact hmax, hfree⟩
    · rintro ⟨hmax, hfree⟩
      rw [hsum i hfree]
      exact ⟨by rw [add_comm]; exact hmax, hfree⟩
  constructor
  · intro h
    exact ⟨fun i => ((hentry i).mp (h i (List.mem_finRange i))).1,
      fun i => ((hentry i).mp (h i (List.mem_finRange i))).2⟩
  · rintro ⟨hmax, hfree⟩ i -
    exact (hentry i).mpr ⟨hmax i, hfree i⟩

end Balanced

/-! The copied maps, and writing them back. -/

theorem foldlM_insert {keys : List Int} {find : Int → Option (Vector Int32 r)}
    {value : Int → Vector Int32 r} (g : Int → Vector Int32 r → Vector Int32 r)
    (hfind : ∀ key ∈ keys, find key = some (value key)) (tmp : PidMap r) :
    ∃ tmp', keys.foldlM
        (fun (tmp : PidMap r) key => do
          let held ← find key
          some (tmp.insert key (g key held))) tmp = some tmp' ∧
      (∀ key, key ∈ tmp' ↔ key ∈ keys ∨ key ∈ tmp) ∧
      ∀ key, tmp'.vec key =
        if key ∈ keys then g key (value key) else tmp.vec key := by
  induction keys generalizing tmp with
  | nil => exact ⟨tmp, rfl, by simp, by simp⟩
  | cons head tail ih =>
      simp only [List.forall_mem_cons] at hfind
      obtain ⟨tmp', hrun, hmem, hvec⟩ :=
        ih hfind.2 (tmp.insert head (g head (value head)))
      refine ⟨tmp', ?_, ?_, ?_⟩
      · simp only [List.foldlM_cons, hfind.1, Option.bind_eq_bind,
          Option.bind_some]
        exact hrun
      · intro key
        rw [hmem, PidMap.mem_insert, List.mem_cons]
        tauto
      · intro key
        rw [hvec, PidMap.vec_insert]
        by_cases htail : key ∈ tail
        · simp [htail]
        · by_cases hhead : head = key
          · subst hhead
            simp [htail]
          · simp [htail, hhead, Ne.symm hhead]

section Copies

variable {b : Banker r} (hb : b.Balanced) {pid : Int} (hlive : pid ∈ b.max)

/-- What the request would leave each process needing. -/
def Banker.needAfter (b : Banker r) (pid : Int) : Int → Fin r → Int :=
  Function.update b.need pid (b.need pid - b.asked)

/-- What the request would leave each process holding. -/
def Banker.heldAfter (b : Banker r) (pid : Int) : Int → Fin r → Int :=
  Function.update b.held pid (b.held pid + b.asked)

theorem PidMap.vec_tmpNeededOf (b : Banker r) {pid key : Int}
    (hkey : key ∈ b.needed) :
    (tmpNeededOf b pid).vec key =
      if key = pid then subVector (b.needed.vec key) b.req
      else b.needed.vec key := by
  obtain ⟨v, hv⟩ :=
    Option.isSome_iff_exists.mp (Std.TreeMap.mem_iff_isSome_getElem?.mp hkey)
  simp [tmpNeededOf, vec, Std.TreeMap.getElem?_map, hv]

@[simp] theorem tmpNeededOf_keys (b : Banker r) (pid : Int) :
    (tmpNeededOf b pid).keys = b.needed.keys :=
  Std.TreeMap.keys_map

include hb in
theorem Banker.Balanced.tmpAllocatedOf_eq (pid : Int) :
    ∃ tmp, tmpAllocatedOf b pid = some tmp ∧
      (∀ key, key ∈ tmp ↔ key ∈ b.max) ∧
      ∀ key ∈ b.max, tmp.vec key =
        if key = pid then addVector (b.allocated.vec key) b.req
        else b.allocated.vec key := by
  have hfind : ∀ key ∈ b.needed.keys,
      b.allocated.read key = some (b.allocated.vec key) := by
    intro key hkey
    apply PidMap.read_of_mem
    rw [hb.mem_allocated, ← hb.mem_needed]
    exact Std.TreeMap.mem_keys.mp hkey
  obtain ⟨tmp, hrun, hmem, hvec⟩ := foldlM_insert
    (fun key held => if key = pid then addVector held b.req else held) hfind ∅
  have hkeys : ∀ key, key ∈ b.needed.keys ↔ key ∈ b.max := by
    intro key
    rw [Std.TreeMap.mem_keys, hb.mem_needed]
  refine ⟨tmp, hrun, ?_, ?_⟩
  · intro key
    rw [hmem, hkeys]
    simp
  · intro key hkey
    rw [hvec, if_pos ((hkeys key).mpr hkey)]

end Copies

theorem foldlM_commitEntry {tmpAllocated : PidMap r}
    {entries : List (Int × Vector Int32 r)} (maps : PidMap r × PidMap r)
    (hnodup : (entries.map Prod.fst).Nodup)
    (htmp : ∀ entry ∈ entries, entry.1 ∈ tmpAllocated)
    (hfst : ∀ entry ∈ entries, entry.1 ∈ maps.1)
    (hsnd : ∀ entry ∈ entries, entry.1 ∈ maps.2) :
    ∃ maps', entries.foldlM (commitEntry tmpAllocated) maps = some maps' ∧
      (∀ key, key ∈ maps'.1 ↔ key ∈ maps.1) ∧
      (∀ key, key ∈ maps'.2 ↔ key ∈ maps.2) ∧
      (∀ entry ∈ entries, maps'.1.vec entry.1 = tmpAllocated.vec entry.1 ∧
        maps'.2.vec entry.1 = entry.2) ∧
      ∀ key, key ∉ entries.map Prod.fst →
        maps'.1.vec key = maps.1.vec key ∧ maps'.2.vec key = maps.2.vec key := by
  induction entries generalizing maps with
  | nil => exact ⟨maps, rfl, by simp, by simp, by simp, by simp⟩
  | cons entry rest ih =>
      simp only [List.forall_mem_cons] at htmp hfst hsnd
      simp only [List.map_cons, List.nodup_cons] at hnodup
      obtain ⟨maps', hrun, hmem₁, hmem₂, hlisted, hother⟩ := ih
        (maps.1.insert entry.1 (tmpAllocated.vec entry.1),
          maps.2.insert entry.1 entry.2) hnodup.2 htmp.2
        (fun e he => PidMap.mem_insert.mpr (Or.inr (hfst.2 e he)))
        (fun e he => PidMap.mem_insert.mpr (Or.inr (hsnd.2 e he)))
      refine ⟨maps', ?_, ?_, ?_, ?_, ?_⟩
      · simpa [commitEntry, PidMap.read_of_mem htmp.1,
          PidMap.read_of_mem hfst.1, PidMap.read_of_mem hsnd.1] using hrun
      · intro key
        rw [hmem₁, PidMap.mem_insert]
        exact or_iff_right_of_imp fun h => h ▸ hfst.1
      · intro key
        rw [hmem₂, PidMap.mem_insert]
        exact or_iff_right_of_imp fun h => h ▸ hsnd.1
      · rw [List.forall_mem_cons]
        refine ⟨?_, hlisted⟩
        obtain ⟨h₁, h₂⟩ := hother entry.1 hnodup.1
        simp [h₁, h₂, PidMap.vec_insert]
      · intro key hkey
        simp only [List.map_cons, List.mem_cons, not_or] at hkey
        obtain ⟨h₁, h₂⟩ := hother key hkey.2
        simp [h₁, h₂, PidMap.vec_insert, Ne.symm hkey.1]

/-- The state a granted request leads to. -/
structure Banker.GrantedTo (b : Banker r) (pid : Int) (b' : Banker r) :
    Prop where
  max_eq : b'.max = b.max
  resource_eq : b'.resource = b.resource
  req_eq : b'.req = b.req
  free_eq : b'.free = b.free - b.asked
  mem_needed : ∀ key, key ∈ b'.needed ↔ key ∈ b.needed
  mem_allocated : ∀ key, key ∈ b'.allocated ↔ key ∈ b.allocated
  need_eq : b'.need = b.needAfter pid
  held_eq : b'.held = b.heldAfter pid

/-- When the banker may grant the request: it stays within the maximum of the
process and within what is free, and the state after it is safe. -/
def Banker.Grantable (b : Banker r) (pid : Int) : Prop :=
  (b.held pid + b.asked ≤ b.cap pid ∧ b.asked ≤ b.free) ∧
    Safe (b.needAfter pid) (b.heldAfter pid) (b.free - b.asked) b.live

section Request

variable {b : Banker r} (hb : b.Balanced) {pid : Int} (hlive : pid ∈ b.max)
  (hasked : 0 ≤ b.asked)
include hb

theorem Banker.Balanced.asked_le_need
    (hcap : b.held pid + b.asked ≤ b.cap pid) : b.asked ≤ b.need pid := by
  rw [hb.cap_eq] at hcap
  exact le_of_add_le_add_left hcap

include hasked

theorem Banker.Balanced.vecInt_tmpNeededOf
    (hcap : b.held pid + b.asked ≤ b.cap pid) {key : Int}
    (hkey : key ∈ b.needed) :
    vecInt ((tmpNeededOf b pid).vec key) = b.needAfter pid key := by
  rw [PidMap.vec_tmpNeededOf b hkey, needAfter]
  by_cases hpid : key = pid
  · subst hpid
    rw [if_pos rfl, Function.update_self]
    exact vecInt_subVector hasked (hb.asked_le_need hcap)
  · rw [if_neg hpid, Function.update_of_ne hpid]
    rfl

theorem Banker.Balanced.heldAfter_nonneg (key : Int) :
    0 ≤ b.heldAfter pid key := by
  rw [heldAfter]
  by_cases hpid : key = pid
  · subst hpid
    rw [Function.update_self]
    exact add_nonneg (hb.held_nonneg key) hasked
  · rw [Function.update_of_ne hpid]
    exact hb.held_nonneg key

include hlive

theorem Banker.Balanced.vecInt_addVector_asked (hfree : b.asked ≤ b.free) :
    vecInt (addVector (b.allocated.vec pid) b.req) =
      b.held pid + b.asked := by
  apply vecInt_addVector
  · exact add_nonneg (hb.held_nonneg pid) hasked
  · intro i
    have hle : b.asked i ≤ b.free i := hfree i
    have hlt := hb.free_add_held_lt hlive i
    change b.held pid i + b.asked i < _
    omega

/-- The scan of `safe_check` starts with every process waiting and nothing
out of range. -/
theorem Banker.Balanced.scanReady (hcap : b.held pid + b.asked ≤ b.cap pid)
    (hfree : b.asked ≤ b.free) {tmpAllocated : PidMap r}
    (hmem : ∀ key, key ∈ tmpAllocated ↔ key ∈ b.max)
    (hvec : ∀ key ∈ b.max, tmpAllocated.vec key =
      if key = pid then addVector (b.allocated.vec key) b.req
      else b.allocated.vec key) :
    ScanReady tmpAllocated (b.needAfter pid) (b.heldAfter pid)
      ⟨subVector b.remain b.req, fun _ => false, false⟩
      (tmpNeededOf b pid).toList := by
  have hkeys : ∀ entry ∈ (tmpNeededOf b pid).toList, entry.1 ∈ b.needed := by
    intro entry hentry
    rw [← Std.TreeMap.mem_keys, ← tmpNeededOf_keys b pid,
      ← Std.TreeMap.map_fst_toList_eq_keys]
    exact List.mem_map_of_mem hentry
  have hsub : vecInt (subVector b.remain b.req) = b.free - b.asked :=
    vecInt_subVector hasked hfree
  constructor
  · intro entry hentry
    rw [← PidMap.vec_of_mem_toList hentry]
    exact hb.vecInt_tmpNeededOf hasked hcap (hkeys entry hentry)
  · intro entry hentry
    rw [hmem, ← hb.mem_needed]
    exact hkeys entry hentry
  · intro entry hentry
    have hmax := (hb.mem_needed _).mp (hkeys entry hentry)
    rw [hvec _ hmax, heldAfter]
    by_cases hpid : entry.1 = pid
    · rw [if_pos hpid, hpid, Function.update_self]
      exact hb.vecInt_addVector_asked hlive hasked hfree
    · rw [if_neg hpid, Function.update_of_ne hpid]
      rfl
  · exact fun entry _ => hb.heldAfter_nonneg hasked entry.1
  · rw [Std.TreeMap.map_fst_toList_eq_keys]
    exact PidMap.keys_nodup _
  · rw [hsub]
    exact sub_nonneg.mpr hfree
  · intro i
    have hperm : (ScanState.waiting
        ⟨subVector b.remain b.req, fun _ => false, false⟩
        (tmpNeededOf b pid).toList).Perm b.live := by
      simp only [ScanState.waiting, Bool.not_false, List.filter_true,
        Std.TreeMap.map_fst_toList_eq_keys, tmpNeededOf_keys]
      exact hb.needed_keys_perm
    rw [hsub, heldSum_perm hperm, heldAfter, heldSum_update_add b.asked
      b.live_nodup (mem_live.mpr hlive)]
    have hbalance := congrFun hb.balance i
    have htotal : b.total i < 2 ^ 31 := vecInt_lt b.resource i
    simp only [Pi.add_apply, Pi.sub_apply] at hbalance ⊢
    omega

section Bounds

variable (hcap : b.held pid + b.asked ≤ b.cap pid) (hfree : b.asked ≤ b.free)
  {tmpAllocated : PidMap r} (hmem : ∀ key, key ∈ tmpAllocated ↔ key ∈ b.max)
  (hvec : ∀ key ∈ b.max, tmpAllocated.vec key =
    if key = pid then addVector (b.allocated.vec key) b.req
    else b.allocated.vec key)
include hcap hfree hmem hvec

/-- The scan finishes everybody exactly when the request is grantable. -/
theorem Banker.Balanced.scanPasses_grantable :
    ∃ st, scanPasses tmpAllocated (tmpNeededOf b pid)
        (tmpNeededOf b pid).size
        ⟨subVector b.remain b.req, fun _ => false, false⟩ = some st ∧
      ((tmpNeededOf b pid).keys.all st.finish = true ↔ b.Grantable pid) := by
  have hready := hb.scanReady hlive hasked hcap hfree hmem hvec
  obtain ⟨st, hscan, hwaiting⟩ :=
    scanPasses_waiting (tmpNeededOf b pid).size _ hready
  refine ⟨st, hscan, ?_⟩
  have hkeys : (tmpNeededOf b pid).toList.map Prod.fst = b.needed.keys := by
    rw [Std.TreeMap.map_fst_toList_eq_keys, tmpNeededOf_keys]
  have hstart : ScanState.waiting
      ⟨subVector b.remain b.req, fun _ => false, false⟩
      (tmpNeededOf b pid).toList = b.needed.keys := by
    simp [ScanState.waiting, hkeys]
  have hsub : vecInt (subVector b.remain b.req) = b.free - b.asked :=
    vecInt_subVector hasked hfree
  have hsize : (tmpNeededOf b pid).size = b.needed.keys.length := by
    rw [← Std.TreeMap.length_keys, tmpNeededOf_keys]
  rw [hstart, hsub, hsize] at hwaiting
  have hnil := scan_eq_nil_iff_safe (b.needAfter pid) (b.heldAfter pid)
    (b.free - b.asked) b.needed.keys_nodup (fun key _ => hb.heldAfter_nonneg hasked key)
  rw [Grantable, and_iff_right ⟨hcap, hfree⟩,
    ← Safe.perm_iff hb.needed_keys_perm, ← hnil, ← hwaiting]
  simp [ScanState.waiting, hkeys]

/-- The write-back leads to the granted state. -/
theorem Banker.Balanced.commit_granted :
    ∃ maps, (tmpNeededOf b pid).toList.foldlM (commitEntry tmpAllocated)
        (b.allocated, b.needed) = some maps ∧
      b.GrantedTo pid
        { b with
          remain := subVector b.remain b.req
          allocated := maps.1
          needed := maps.2 } := by
  have hready := hb.scanReady hlive hasked hcap hfree hmem hvec
  have hmax : ∀ entry ∈ (tmpNeededOf b pid).toList, entry.1 ∈ b.max :=
    fun entry hentry => (hmem _).mp (hready.mem entry hentry)
  obtain ⟨maps, hcommit, hmem₁, hmem₂, hlisted, hother⟩ :=
    foldlM_commitEntry (b.allocated, b.needed)
      hready.nodup hready.mem
      (fun entry hentry => (hb.mem_allocated _).mpr (hmax entry hentry))
      (fun entry hentry => (hb.mem_needed _).mpr (hmax entry hentry))
  have hkeys : (tmpNeededOf b pid).toList.map Prod.fst = b.needed.keys := by
    rw [Std.TreeMap.map_fst_toList_eq_keys, tmpNeededOf_keys]
  -- a listed pid has the copied vectors, any other pid its old ones
  have hcopied : ∀ key, vecInt (maps.1.vec key) = b.heldAfter pid key ∧
      vecInt (maps.2.vec key) = b.needAfter pid key := by
    intro key
    by_cases hkey : key ∈ b.needed.keys
    · rw [← hkeys] at hkey
      obtain ⟨entry, hentry, rfl⟩ := List.mem_map.mp hkey
      obtain ⟨h₁, h₂⟩ := hlisted entry hentry
      rw [h₁, h₂]
      exact ⟨hready.held_eq entry hentry, hready.need_eq entry hentry⟩
    · obtain ⟨h₁, h₂⟩ := hother key (hkeys ▸ hkey)
      have hpid : key ≠ pid := by
        rintro rfl
        exact hkey (Std.TreeMap.mem_keys.mpr ((hb.mem_needed key).mpr hlive))
      rw [h₁, h₂, heldAfter, needAfter, Function.update_of_ne hpid,
        Function.update_of_ne hpid]
      exact ⟨rfl, rfl⟩
  exact ⟨maps, hcommit, rfl, rfl, rfl, vecInt_subVector hasked hfree, hmem₂,
    hmem₁, funext fun key => (hcopied key).2, funext fun key => (hcopied key).1⟩

end Bounds

/-- The answer of `request_judge`, and the state it leaves. -/
theorem Banker.Balanced.requestJudge_spec :
    (∃ b', requestJudge b pid = some (b', true) ∧ b.Grantable pid ∧
      b.GrantedTo pid b') ∨
    (requestJudge b pid = some (b, false) ∧ ¬ b.Grantable pid) := by
  have hwithin := hb.requestWithin_eq hlive hasked
  by_cases hbounds : b.held pid + b.asked ≤ b.cap pid ∧ b.asked ≤ b.free
  case neg =>
    refine Or.inr ⟨?_, fun h => hbounds h.1⟩
    simp [requestJudge, hwithin, hbounds]
  obtain ⟨hcap, hfree⟩ := hbounds
  obtain ⟨tmpAllocated, htmp, hmem, hvec⟩ := hb.tmpAllocatedOf_eq pid
  have hrun : requestJudge b pid =
      safeCheck b tmpAllocated (tmpNeededOf b pid) := by
    simp [requestJudge, hwithin, hcap, hfree, htmp]
  obtain ⟨st, hscan, hsafe⟩ :=
    hb.scanPasses_grantable hlive hasked hcap hfree hmem hvec
  rw [hrun]
  by_cases hgrant : b.Grantable pid
  · obtain ⟨maps, hcommit, hgranted⟩ :=
      hb.commit_granted hlive hasked hcap hfree hmem hvec
    refine Or.inl ⟨_, ?_, hgrant, hgranted⟩
    simp only [safeCheck, hscan, hcommit, Option.bind_eq_bind,
      Option.bind_some, if_pos (hsafe.mpr hgrant)]
  · refine Or.inr ⟨?_, hgrant⟩
    simp only [safeCheck, hscan, Option.bind_eq_bind, Option.bind_some,
      if_neg (fun h => hgrant (hsafe.mp h))]

end Request

end PintosLabs
