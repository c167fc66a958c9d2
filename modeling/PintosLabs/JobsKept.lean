/-
No job is lost: what has been enqueued, and neither dequeued nor finished, is in
the wait queue or in `current`, once.
-/
import PintosLabs.JobQueue

namespace PintosLabs

namespace Scheduler

variable {k k' : Scheduler} {nodes nodes' : List Nat} {a : Nat}

/-- A job still belongs to the scheduler: no command has dequeued it, and if its
end was reported then it is yet to leave `current`. -/
def Remains (k : Scheduler) (a : Nat) : Prop :=
  a < k.heap.size ∧ (k.job a).jid ∉ k.dequeued ∧
    ((k.job a).jid ∈ k.finished → a ∈ k.current ∧ (k.job a).state = .done)

/-- What holds between two runs of the handler. -/
structure Kept (k : Scheduler) (nodes : List Nat) : Prop where
  queue : k.Queue nodes
  jobid : k.jobid = k.heap.size
  jid : ∀ a < k.heap.size, (k.job a).jid = a + 1
  mem_iff : ∀ a, a ∈ k.members nodes ↔ k.Remains a
  done : ∀ c ∈ k.current, (k.job c).state = .done → (k.job c).jid ∈ k.finished
  waiting : ∀ a ∈ nodes, (k.job a).state ≠ .done
  dequeued_le : ∀ j ∈ k.dequeued, j ≤ k.jobid
  finished_le : ∀ j ∈ k.finished, j ≤ k.jobid

namespace Kept

theorem lt_size (h : k.Kept nodes) (ha : a ∈ k.members nodes) : a < k.heap.size :=
  ((h.mem_iff a).mp ha).1

theorem jid_inj (h : k.Kept nodes) {a b : Nat} (ha : a < k.heap.size)
    (hb : b < k.heap.size) (heq : (k.job a).jid = (k.job b).jid) : a = b := by
  rw [h.jid a ha, h.jid b hb] at heq
  omega

theorem mem_members : a ∈ k.members nodes ↔ a ∈ nodes ∨ a ∈ k.current := by
  rw [members, List.mem_append, Option.mem_toList]
  exact Iff.rfl

theorem mem_append_active :
    a ∈ nodes ++ k.active.toList ↔ a ∈ nodes ∨ a ∈ k.current ∧ (k.job a).state ≠ .done := by
  rw [List.mem_append, Option.mem_toList]
  exact or_congr_right mem_active

/-- `schedule` behind its command: the finished job is gone. -/
theorem switched (h : k.Kept nodes) (hswitch : Switched k k' nodes nodes') :
    k'.Kept nodes' := by
  have hsame := hswitch.same
  have hremains : ∀ a, a ∈ k'.members nodes' ↔ a < k.heap.size ∧
      (k.job a).jid ∉ k.dequeued ∧ (k.job a).jid ∉ k.finished := by
    intro a
    rw [hswitch.members.mem_iff, mem_append_active]
    constructor
    · intro hmem
      obtain ⟨hlt, hdeq, hfin⟩ := (h.mem_iff a).mp
        (mem_members.mpr (hmem.imp_right And.left))
      refine ⟨hlt, hdeq, fun hmark => ?_⟩
      obtain ⟨hcurrent, hdone⟩ := hfin hmark
      exact hmem.elim (fun hnode => h.waiting a hnode hdone) fun hactive => hactive.2 hdone
    · rintro ⟨hlt, hdeq, hfin⟩
      refine (mem_members.mp ((h.mem_iff a).mpr
        ⟨hlt, hdeq, fun hmark => absurd hmark hfin⟩)).imp_right fun hcurrent => ?_
      exact ⟨hcurrent, fun hdone => hfin (h.done a hcurrent hdone)⟩
  refine ⟨hswitch.queue, ?_, fun a ha => ?_, fun a => ?_, fun c hc hdone => ?_,
    fun a ha hdone => ?_, ?_, ?_⟩
  · rw [hsame.jobid, hsame.size]
    exact h.jobid
  · rw [hsame.jid]
    exact h.jid a (hsame.size ▸ ha)
  · rw [hremains, Remains, hsame.size, hsame.jid, hsame.dequeued, hsame.finished]
    refine and_congr_right fun _ => and_congr_right fun _ =>
      ⟨fun hfin hmark => absurd hmark hfin, fun hleaves hmark => ?_⟩
    obtain ⟨hcurrent, hdone⟩ := hleaves hmark
    exact hswitch.current_state a hcurrent hdone
  · exact absurd hdone (hswitch.current_state c hc)
  · have hmem : a ∈ nodes ++ k.active.toList :=
      hswitch.members.mem_iff.mp (mem_members.mpr (Or.inl ha))
    have hdone := hswitch.done a hdone
    rcases mem_append_active.mp hmem with hmem | hmem
    · exact h.waiting a hmem hdone
    · exact hmem.2 hdone
  · rw [hsame.dequeued, hsame.jobid]
    exact h.dequeued_le
  · rw [hsame.finished, hsame.jobid]
    exact h.finished_le

theorem enqueued (h : k.Kept nodes) {pid : Nat} (hqueue : k'.Queue (nodes ++ [k.heap.size]))
    (henq : Enqueued k k' pid) : k'.Kept (nodes ++ [k.heap.size]) := by
  have hnew : (k'.job k.heap.size).jid = k.heap.size + 1 := by
    rw [henq.new_jid, h.jobid]
  have hjid : ∀ a < k'.heap.size, (k'.job a).jid = a + 1 := by
    intro a ha
    rw [henq.size] at ha
    rcases Nat.lt_succ_iff_lt_or_eq.mp ha with ha | rfl
    · rw [henq.job a ha]
      exact h.jid a ha
    · exact hnew
  refine ⟨hqueue, ?_, hjid, fun a => ?_, fun c hc hdone => ?_, fun a ha hdone => ?_,
    fun j hj => ?_, fun j hj => ?_⟩
  · rw [henq.jobid, henq.size, h.jobid]
    rfl
  · rw [mem_members, List.mem_append, List.mem_singleton, Remains, henq.size,
      henq.dequeued, henq.finished, henq.current]
    have hsplit : a < k.heap.size + 1 ↔ a < k.heap.size ∨ a = k.heap.size :=
      Nat.lt_succ_iff_lt_or_eq
    rw [or_right_comm, ← mem_members, h.mem_iff, hsplit]
    by_cases ha : a = k.heap.size
    · subst ha
      rw [hnew]
      refine iff_of_true (Or.inr rfl) ⟨Or.inr rfl, fun hmem => ?_, fun hmem => ?_⟩
      · have hle := h.dequeued_le _ hmem
        rw [h.jobid] at hle
        omega
      · have hle := h.finished_le _ hmem
        rw [h.jobid] at hle
        omega
    · rw [or_iff_left ha, or_iff_left ha, Remains]
      refine and_congr_right fun hlt => ?_
      rw [henq.job a hlt]
  · have hlt := h.queue.current_lt c (henq.current ▸ hc)
    rw [henq.job c hlt] at hdone ⊢
    rw [henq.finished]
    exact h.done c (henq.current ▸ hc) hdone
  · rcases List.mem_append.mp ha with ha | ha
    · rw [henq.job a (h.queue.lt_size a ha)] at hdone
      exact h.waiting a ha hdone
    · rw [List.mem_singleton.mp ha, henq.new_state] at hdone
      cases hdone
  · rw [henq.jobid]
    have hle := h.dequeued_le j (henq.dequeued ▸ hj)
    omega
  · rw [henq.jobid]
    have hle := h.finished_le j (henq.finished ▸ hj)
    omega

/-- The jobs that a command leaves are those with another number. -/
theorem mem_current_doDeq {deqid : Int} (hdeq : Dequeued k k' deqid nodes nodes') (c : Nat) :
    c ∈ k'.current ↔ c ∈ k.current ∧ (k.job c).jid ≠ deqid := by
  rcases hdeq.outcome with ⟨d, hd, hjid, hnone, -⟩ | ⟨hne, hsame, -⟩
  · rw [hnone]
    refine iff_of_false nofun ?_
    rintro ⟨hc, hne⟩
    exact hne (Option.mem_unique hc hd ▸ hjid)
  · rw [hsame]
    exact ⟨fun hc => ⟨hc, hne c hc⟩, And.left⟩

theorem mem_nodes_doDeq (h : k.Kept nodes) {deqid : Int}
    (hdeq : Dequeued k k' deqid nodes nodes') (a : Nat) :
    a ∈ nodes' ↔ a ∈ nodes ∧ (k.job a).jid ≠ deqid := by
  have hinj : ∀ {b}, b ∈ k.members nodes → (k.job b).jid = deqid → a ∈ nodes →
      a ≠ b → (k.job a).jid ≠ deqid := by
    intro b hb hjid ha hne heq
    exact hne (h.jid_inj (h.queue.lt_size a ha) (h.lt_size hb) (heq.trans hjid.symm))
  rcases hdeq.outcome with ⟨d, hd, hjid, -, rfl, -⟩ |
      ⟨-, -, -, ⟨rfl, hnone⟩ | ⟨before, b, after, hsplit, rfl, hjid⟩⟩
  · refine ⟨fun ha => ⟨ha, hinj (mem_members.mpr (Or.inr hd)) hjid ha ?_⟩, And.left⟩
    rintro rfl
    exact h.queue.current_notMem a hd ha
  · exact ⟨fun ha => ⟨ha, hnone a ha⟩, And.left⟩
  · have hnodup := h.queue.nodup
    rw [hsplit, List.nodup_middle, List.nodup_cons] at hnodup
    have hmem : a ∈ nodes ↔ a = b ∨ a ∈ before ++ after := by
      rw [hsplit]
      simp only [List.mem_append, List.mem_cons]
      tauto
    constructor
    · intro ha
      have hmiddle := hmem.mpr (Or.inr ha)
      refine ⟨hmiddle, hinj (mem_members.mpr (Or.inl ?_)) hjid hmiddle ?_⟩
      · simp [hsplit]
      · rintro rfl
        exact hnodup.1 ha
    · rintro ⟨ha, hne⟩
      refine (hmem.mp ha).resolve_left fun heq => hne ?_
      rw [heq]
      exact hjid

theorem mem_doDeq (h : k.Kept nodes) {deqid : Int}
    (hdeq : Dequeued k k' deqid nodes nodes') (a : Nat) :
    a ∈ k'.members nodes' ↔ a ∈ k.members nodes ∧ (k.job a).jid ≠ deqid := by
  rw [mem_members, h.mem_nodes_doDeq hdeq, mem_current_doDeq hdeq, ← or_and_right,
    ← mem_members]

theorem doDeq (h : k.Kept nodes) {deqid : Int} (hdeq : Dequeued k k' deqid nodes nodes') :
    k'.Kept nodes' := by
  have hmark : ∀ a < k.heap.size, (k'.job a).jid ∉ k'.dequeued ↔
      (k.job a).jid ∉ k.dequeued ∧ (k.job a).jid ≠ deqid := by
    intro a ha
    rw [hdeq.job, hdeq.dequeued]
    split
    · rw [List.mem_cons, not_or, and_comm]
    case isFalse hrange =>
      refine ⟨fun hnot => ⟨hnot, fun heq => hrange ?_⟩, And.left⟩
      rw [← heq, h.jid a ha, h.jobid]
      omega
  refine ⟨hdeq.queue, ?_, fun a ha => ?_, fun a => ?_, fun c hc => ?_, fun a ha => ?_,
    fun j hj => ?_, ?_⟩
  · rw [hdeq.jobid, hdeq.size]
    exact h.jobid
  · rw [hdeq.job]
    exact h.jid a (hdeq.size ▸ ha)
  · rw [h.mem_doDeq hdeq, h.mem_iff, Remains, Remains, hdeq.size, hdeq.finished, and_assoc,
      mem_current_doDeq hdeq]
    refine and_congr_right fun hlt => ?_
    rw [hmark a hlt, hdeq.job]
    tauto
  · rw [hdeq.job, hdeq.finished]
    exact h.done c ((mem_current_doDeq hdeq c).mp hc).1
  · rw [hdeq.job]
    exact h.waiting a ((h.mem_nodes_doDeq hdeq a).mp ha).1
  · rw [hdeq.jobid]
    rw [hdeq.dequeued] at hj
    split at hj
    case isTrue hrange =>
      rcases List.mem_cons.mp hj with rfl | hj
      · exact hrange.2
      · exact h.dequeued_le j hj
    · exact h.dequeued_le j hj
  · rw [hdeq.finished, hdeq.jobid]
    exact h.finished_le

/-- What a command leaves, and of the jobs that were there no other ones. -/
theorem doCmd (h : k.Kept nodes) {cmd : JobCmd} (haccepts : k.accepts cmd)
    (hroom : ∀ defpri pid, cmd = .enq defpri pid → k.jobid < 2 ^ 31 - 1) :
    ∃ k' nodes', k.doCmd cmd = some k' ∧ k'.Kept nodes' ∧
      k.heap.size ≤ k'.heap.size ∧
      ∀ a < k.heap.size, k'.job a = k.job a ∧ (a ∈ k'.members nodes' →
        a ∈ k.members nodes) := by
  cases cmd with
  | nothing =>
      exact ⟨k, nodes, rfl, h, Nat.le_refl _, fun a _ => ⟨rfl, id⟩⟩
  | stat =>
      exact ⟨k, nodes, rfl, h, Nat.le_refl _, fun a _ => ⟨rfl, id⟩⟩
  | enq defpri pid =>
      obtain ⟨hpos, -⟩ := of_decide_eq_true haccepts
      obtain ⟨k', hrun, hqueue, henq⟩ := h.queue.doEnq hpos (hroom defpri pid rfl) pid
      refine ⟨k', _, hrun, h.enqueued hqueue henq, by rw [henq.size]; omega,
        fun a ha => ⟨henq.job a ha, fun hmem => ?_⟩⟩
      rw [mem_members, List.mem_append, List.mem_singleton, henq.current] at hmem
      rw [mem_members]
      exact hmem.imp_left fun hmem => hmem.resolve_right (Nat.ne_of_lt ha)
  | deq deqid =>
      obtain ⟨k', nodes', hrun, hdeq⟩ := h.queue.doDeq deqid
      refine ⟨k', nodes', hrun, h.doDeq hdeq, Nat.le_of_eq hdeq.size.symm,
        fun a ha => ⟨congrFun hdeq.job a, fun hmem => ?_⟩⟩
      exact ((h.mem_doDeq hdeq a).mp hmem).1

theorem schedule (h : k.Kept nodes) {cmd : JobCmd} (haccepts : k.accepts cmd)
    (hroom : ∀ defpri pid, cmd = .enq defpri pid → k.jobid < 2 ^ 31 - 1) :
    ∃ k' nodes', k.schedule cmd = some k' ∧ k'.Kept nodes' ∧ k'.next = none ∧
      (∀ c ∈ k'.current, (k'.job c).state ≠ .done) ∧
      (k'.current = none → nodes' = []) ∧ k.heap.size ≤ k'.heap.size ∧
      ∀ a < k.heap.size, a ∈ k'.members nodes' → a ∈ k.members nodes := by
  obtain ⟨k₁, nodes₁, hcmd, h₁, hsize, hold⟩ := h.doCmd haccepts hroom
  obtain ⟨k₂, k₃, k', nodes', hupdate, hselect, -, hswitch, h'⟩ := h₁.queue.schedule
  refine ⟨k', nodes', ?_, h₁.switched h', h'.next, h'.current_state, fun hnone => ?_, ?_,
    fun a ha hmem => ?_⟩
  · simp only [Scheduler.schedule, select, hcmd, hupdate, hselect, hswitch,
      Option.bind_eq_bind, Option.bind_some]
  · obtain ⟨hempty, hactive⟩ := h'.current_none hnone
    have hmembers := h'.members
    rw [hempty, hactive] at hmembers
    exact (List.append_eq_nil_iff.mp hmembers.eq_nil).1
  · rw [h'.same.size]
    exact hsize
  · refine (hold a ha).2 (mem_members.mpr ?_)
    exact (mem_append_active.mp (h'.members.mem_iff.mp hmem)).imp_right And.left

theorem setProcesses (h : k.Kept nodes) (processes : Nat → Option Process) :
    Kept { k with processes := processes } nodes :=
  ⟨h.queue.congr rfl rfl rfl, h.jobid, h.jid, h.mem_iff, h.done, h.waiting,
    h.dequeued_le, h.finished_le⟩

/-- The job in `current` is marked. -/
theorem finish (h : k.Kept nodes) {c : Nat} (hc : c ∈ k.current) :
    Kept { k.setJob c { k.job c with state := .done } with
      finished := (k.job c).jid :: k.finished } nodes := by
  obtain ⟨k₁, hk₁⟩ : ∃ k₁, k₁ = k.setJob c { k.job c with state := .done } := ⟨_, rfl⟩
  have hlt := h.queue.current_lt c hc
  have hnotMem := h.queue.current_notMem c hc
  have hsame : SameJobs k k₁ := hk₁ ▸ k.sameJobs_setJob c rfl rfl rfl
  have hdone : (k₁.job c).state = .done := by
    rw [hk₁, setJob_job_self]
  have hother : ∀ a, a ≠ c → k₁.job a = k.job a := fun a ha => by
    rw [hk₁, setJob_job_of_ne k ha]
  have hcurrent : k₁.current = k.current := hk₁ ▸ rfl
  have h₁ : k₁.Queue nodes := by
    rw [hk₁]
    exact h.queue.setJob (fun hmem => absurd hmem hnotMem) rfl
  rw [← hk₁]
  refine ⟨h₁.congr rfl rfl rfl, ?_, fun a ha => ?_, fun a => ?_, fun b hb _ => ?_,
    fun a ha hdone' => ?_, ?_, fun j hj => ?_⟩
  · exact hsame.jobid.trans (h.jobid.trans (congrArg Nat.cast hsame.size.symm))
  · exact (hsame.jid a).trans (h.jid a (hsame.size ▸ ha))
  · have hmem : a ∈ k₁.members nodes ↔ a ∈ k.members nodes := by
      rw [mem_members, mem_members, hcurrent]
    refine hmem.trans ((h.mem_iff a).trans ?_)
    change k.Remains a ↔ a < k₁.heap.size ∧ (k₁.job a).jid ∉ k₁.dequeued ∧
      ((k₁.job a).jid ∈ (k.job c).jid :: k.finished → a ∈ k₁.current ∧
        (k₁.job a).state = .done)
    rw [Remains, hsame.size, hsame.jid, hsame.dequeued, hcurrent, List.mem_cons]
    refine and_congr_right fun ha => and_congr_right fun _ => ?_
    by_cases heq : a = c
    · subst heq
      have hleaves := ((h.mem_iff a).mp (mem_members.mpr (Or.inr hc))).2.2
      exact iff_of_true hleaves fun _ => ⟨hc, hdone⟩
    · rw [hother a heq, or_iff_right fun hjid => heq (h.jid_inj ha hlt hjid)]
  · have hb : b = c := Option.mem_unique (hcurrent ▸ hb) hc
    change (k₁.job b).jid ∈ (k.job c).jid :: k.finished
    rw [hb, hsame.jid]
    exact List.mem_cons_self
  · have hne : a ≠ c := fun heq => hnotMem (heq ▸ ha)
    change (k₁.job a).state = .done at hdone'
    rw [hother a hne] at hdone'
    exact h.waiting a ha hdone'
  · change ∀ j ∈ k₁.dequeued, j ≤ k₁.jobid
    rw [hsame.dequeued, hsame.jobid]
    exact h.dequeued_le
  · change j ≤ k₁.jobid
    rw [hsame.jobid]
    rcases List.mem_cons.mp hj with rfl | hj
    · rw [h.jid c hlt, h.jobid]
      omega
    · exact h.finished_le j hj

/-- The end of a process is reported by `waitpid`. -/
theorem reportEnd (h : k.Kept nodes) {pid : Nat} {exited : Bool}
    (hreport : k.reportEnd pid exited = some k') : k'.Kept nodes := by
  obtain ⟨c, hc, hreport⟩ := Option.bind_eq_some_iff.mp hreport
  have h₁ := h.setProcesses (Function.update k.processes pid none)
  split at hreport
  · rw [← Option.some.inj hreport]
    exact h₁.finish hc
  · rw [← Option.some.inj hreport]
    exact h₁

theorem room_of_doCmd {cmd : JobCmd} (hrun : k.doCmd cmd = some k') :
    ∀ defpri pid, cmd = .enq defpri pid → k.jobid < 2 ^ 31 - 1 := by
  rintro defpri pid rfl
  obtain ⟨jid, hjid, -⟩ := Option.bind_eq_some_iff.mp hrun
  rw [allocjid] at hjid
  split at hjid
  case isTrue hroom => exact hroom
  case isFalse => cases hjid

theorem room_of_schedule {cmd : JobCmd} (hrun : k.schedule cmd = some k') :
    ∀ defpri pid, cmd = .enq defpri pid → k.jobid < 2 ^ 31 - 1 := by
  obtain ⟨k₂, hselect, -⟩ := Option.bind_eq_some_iff.mp hrun
  obtain ⟨k₁, hcmd, -⟩ := Option.bind_eq_some_iff.mp hselect
  exact room_of_doCmd hcmd

theorem step (h : k.Kept nodes) (hnext : k.next = none) {act : SchedulerAct}
    (hstep : k.step act = some k') : ∃ nodes', k'.Kept nodes' ∧ k'.next = none := by
  cases act with
  | schedule cmd =>
      simp only [Scheduler.step] at hstep
      split at hstep
      case isTrue haccepts =>
        obtain ⟨k₁, nodes', hrun, h', hnext', -⟩ :=
          h.schedule haccepts (room_of_schedule hstep)
        rw [Option.some.inj (hstep.symm.trans hrun)]
        exact ⟨nodes', h', hnext'⟩
      case isFalse => cases hstep
  | exits pid =>
      simp only [Scheduler.step] at hstep
      split at hstep
      · rw [← Option.some.inj hstep]
        exact ⟨nodes, h.setProcesses _, hnext⟩
      · cases hstep
  | crashes pid =>
      simp only [Scheduler.step] at hstep
      split at hstep
      · rw [← Option.some.inj hstep]
        exact ⟨nodes, h.setProcesses _, hnext⟩
      · cases hstep
  | sigchld pid =>
      cases pid with
      | none =>
          rw [← Option.some.inj hstep]
          exact ⟨nodes, h, hnext⟩
      | some pid =>
          have hsame : ∀ {exited}, k.reportEnd pid exited = some k' →
              k'.next = k.next := by
            intro exited hreport
            obtain ⟨c, -, hreport⟩ := Option.bind_eq_some_iff.mp hreport
            split at hreport
            · exact Option.some.inj hreport ▸ rfl
            · exact Option.some.inj hreport ▸ rfl
          simp only [Scheduler.step] at hstep
          split at hstep
          · exact ⟨nodes, h.reportEnd hstep, (hsame hstep).trans hnext⟩
          · exact ⟨nodes, h.reportEnd hstep, (hsame hstep).trans hnext⟩
          · cases hstep

theorem boot : Scheduler.boot.Kept [] where
  queue := ⟨rfl, nofun, nofun, nofun, fun _ _ => rfl, nofun, nofun, nofun⟩
  jobid := rfl
  jid := nofun
  mem_iff _ := iff_of_false nofun fun h => absurd h.1 (Nat.not_lt_zero _)
  done := nofun
  waiting := nofun
  dequeued_le := nofun
  finished_le := nofun

/-- The jobs are kept in every state of every run. -/
theorem of_run {ok : Scheduler → SchedulerAct → Prop} {acts : List SchedulerAct}
    (hrun : Run Scheduler.step ok Scheduler.boot acts k) :
    ∃ nodes, k.Kept nodes ∧ k.next = none :=
  hrun.invariant (fun k => ∃ nodes, k.Kept nodes ∧ k.next = none)
    (fun ⟨_, h, hnext⟩ _ hstep => h.step hnext hstep) ⟨[], boot, rfl⟩

end Kept

namespace JobsKeptWitness

end JobsKeptWitness

end Scheduler

end PintosLabs
