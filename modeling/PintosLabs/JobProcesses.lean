/-
The processes of the jobs.  The handler of `SIGCHLD` takes every end for the end
of the job in `current`; that is right as long as no other process runs, and no
other end is left to report.
-/
import PintosLabs.JobsKept

namespace PintosLabs

def Process.hasEnded : Process → Bool
  | exited | killed => true
  | running | stopped _ => false

theorem Process.signal_isLive {action : SignalAction} {p : Process}
    (h : (p.signal action).isLive) : p.isLive := by
  cases p with
  | running => rfl
  | stopped doomed => rfl
  | exited => cases action <;> exact h
  | killed => cases action <;> exact h

/-- What a stopped process has left to it. -/
theorem Process.signal_stop {p : Process} (h : ∀ doomed, p.signal .stop ≠ .stopped doomed) :
    p.hasEnded ∧ p.signal .stop = p := by
  cases p with
  | running => exact absurd rfl (h false)
  | stopped doomed => exact absurd rfl (h doomed)
  | exited => exact ⟨rfl, rfl⟩
  | killed => exact ⟨rfl, rfl⟩

theorem deliver_self (processes : Nat → Option Process) (pid sig : Nat) :
    deliver processes pid sig pid =
      (processes pid).map (Process.signal (signalAction sig)) := Function.update_self _ _ _

theorem deliver_of_ne (processes : Nat → Option Process) {pid pid' : Nat}
    (h : pid' ≠ pid) (sig : Nat) : deliver processes pid sig pid' = processes pid' :=
  Function.update_of_ne h _ _

/-- No signal brings a process back. -/
theorem deliver_live {processes : Nat → Option Process} {pid pid' sig : Nat} {p : Process}
    (hp : deliver processes pid sig pid' = some p) (hlive : p.isLive) :
    ∃ q, processes pid' = some q ∧ q.isLive := by
  by_cases heq : pid' = pid
  · subst heq
    rw [deliver_self] at hp
    obtain ⟨q, hq, rfl⟩ := Option.map_eq_some_iff.mp hp
    exact ⟨q, hq, Process.signal_isLive hlive⟩
  · rw [deliver_of_ne processes heq] at hp
    exact ⟨p, hp, hlive⟩

namespace Scheduler

/-- `jobswitch` is to give the processor to another job. -/
def switches (k : Scheduler) : Bool :=
  match k.next, k.active with
  | some n, some c => !k.staysAhead c n
  | _, _ => false

/-- The process of `current` has ended, and `waitpid` has not reported it. -/
def EndUnreported (k : Scheduler) : Prop :=
  ∃ c ∈ k.current, (k.processes (k.job c).pid).any Process.hasEnded

/-- A command that dequeues `current` finds its process gone, and `kill` with its
arguments exchanged changes nothing. -/
def DeqSafe (k : Scheduler) : JobCmd → Prop
  | .deq deqid => ∀ c ∈ k.current, (k.job c).jid = deqid →
      k.processes (k.job c).pid = none ∧
        (k.processes sigTerm).map (Process.signal (signalAction (k.job c).pid)) =
          k.processes sigTerm
  | _ => True

/-- The condition on a step: `schedule` takes no job from `current` before the end
of its process is reported. -/
def KeepsOwner (k : Scheduler) : SchedulerAct → Prop
  | .schedule cmd => k.DeqSafe cmd ∧
      (k.EndUnreported → ∀ k₁ ∈ k.select cmd, k₁.switches = false)
  | _ => True

instance (k : Scheduler) : Decidable k.EndUnreported :=
  inferInstanceAs (Decidable (∃ c ∈ k.current, _))

instance (k : Scheduler) (cmd : JobCmd) : Decidable (k.DeqSafe cmd) :=
  match cmd with
  | .deq _ => inferInstanceAs (Decidable (∀ c ∈ k.current, _))
  | .nothing | .enq _ _ | .stat => inferInstanceAs (Decidable True)

instance (k : Scheduler) (act : SchedulerAct) : Decidable (k.KeepsOwner act) :=
  match act with
  | .schedule _ => inferInstanceAs (Decidable (_ ∧ _))
  | .exits _ | .crashes _ | .sigchld _ => inferInstanceAs (Decidable True)

variable {k k' : Scheduler} {nodes nodes' : List Nat} {c : Nat}

/-- Only the process of `current` is not stopped. -/
def Attributed (k : Scheduler) : Prop :=
  ∀ pid p, k.processes pid = some p → (∀ doomed, p ≠ .stopped doomed) →
    ∃ c ∈ k.active, (k.job c).pid = pid

/-- Every process that is there belongs to a job that is there. -/
def Owned (k : Scheduler) (nodes : List Nat) : Prop :=
  ∀ pid p, k.processes pid = some p → p.isLive →
    ∃ a ∈ k.members nodes, (k.job a).pid = pid ∧ (k.job a).state ≠ .done

theorem jobswitch_current (hrun : k.jobswitch = some k') (hactive : k.active = some c)
    (hstays : k.switches = false) : k'.current = some c := by
  rw [switches, hactive] at hstays
  rw [jobswitch, show k.removeDone.current = some c from hactive] at hrun
  cases hnext : k.next with
  | none =>
      rw [show k.removeDone.next = none from hnext] at hrun
      rw [← Option.some.inj hrun]
      exact hactive
  | some n =>
      rw [hnext, Bool.not_eq_false'] at hstays
      rw [show k.removeDone.next = some n from hnext] at hrun
      obtain ⟨k₁, -, hrun⟩ := Option.bind_eq_some_iff.mp hrun
      rw [← Option.some.inj hrun]
      change some (if k.staysAhead c n then c else n) = some c
      rw [hstays]
      rfl

/-! What `schedule` does to the processes. -/

theorem mem_active_of_job {c : Nat} (hcurrent : k'.current = k.current)
    (hjob : ∀ a ∈ k.current, k'.job a = k.job a) (hc : c ∈ k.active) : c ∈ k'.active := by
  obtain ⟨hmem, hstate⟩ := mem_active.mp hc
  exact mem_active.mpr ⟨hcurrent ▸ hmem, hjob c hmem ▸ hstate⟩

theorem Attributed.doCmd (h : k.Attributed) (hkept : k.Kept nodes) {cmd : JobCmd}
    (haccepts : k.accepts cmd) (hsafe : k.DeqSafe cmd) (hrun : k.doCmd cmd = some k') :
    k'.Attributed := by
  cases cmd with
  | nothing => exact Option.some.inj hrun ▸ h
  | stat => exact Option.some.inj hrun ▸ h
  | enq defpri newPid =>
      obtain ⟨hpos, -⟩ := of_decide_eq_true haccepts
      have hroom := Kept.room_of_doCmd hrun defpri newPid rfl
      obtain ⟨k₁, henqRun, -, henq⟩ := hkept.queue.doEnq hpos hroom newPid
      rw [Option.some.inj (hrun.symm.trans henqRun)]
      have hjob : ∀ a ∈ k.current, k₁.job a = k.job a := fun a ha =>
        henq.job a (hkept.queue.current_lt a ha)
      intro pid p hp hstopped
      rw [henq.processes] at hp
      by_cases heq : pid = newPid
      · rw [heq, Function.update_self] at hp
        exact absurd (Option.some.inj hp).symm (hstopped false)
      · rw [Function.update_of_ne heq] at hp
        obtain ⟨c, hc, hpid⟩ := h pid p hp hstopped
        refine ⟨c, mem_active_of_job henq.current hjob hc, ?_⟩
        rw [hjob c (mem_active.mp hc).1, hpid]
  | deq deqid =>
      obtain ⟨k₁, nodes', hdeqRun, hdeq⟩ := hkept.queue.doDeq deqid
      rw [Option.some.inj (hrun.symm.trans hdeqRun)]
      intro pid p hp hstopped
      rcases hdeq.outcome with ⟨c, hc, hjid, -, -, hprocesses⟩ | ⟨-, hcurrent, hprocesses, -⟩
      · obtain ⟨hgone, hkill⟩ := hsafe c hc hjid
        have hsame : deliver k.processes sigTerm (k.job c).pid = k.processes := by
          rw [deliver, hkill, Function.update_eq_self]
        rw [hprocesses, hsame] at hp
        obtain ⟨d, hd, rfl⟩ := h pid p hp hstopped
        rw [Option.mem_unique (mem_active.mp hd).1 hc, hgone] at hp
        cases hp
      · rw [hprocesses] at hp
        obtain ⟨c, hc, hpid⟩ := h pid p hp hstopped
        have hjob : ∀ a ∈ k.current, k₁.job a = k.job a := fun a _ => congrFun hdeq.job a
        refine ⟨c, mem_active_of_job hcurrent hjob hc, ?_⟩
        rw [hdeq.job, hpid]

/-- Behind the command: the process that goes on is that of the new `current`, and
the other one is stopped, unless it had ended. -/
theorem Attributed.switched (h : k.Attributed) (hswitch : Switched k k' nodes nodes')
    (hstays : ∀ c ∈ k.active, (k.processes (k.job c).pid).any Process.hasEnded →
      k'.current = some c) : k'.Attributed := by
  intro pid p hp hstopped
  have hcurrent : ∀ c ∈ k'.current, (k.job c).pid = pid →
      ∃ c ∈ k'.active, (k'.job c).pid = pid := fun c hc hpid =>
    ⟨c, mem_active.mpr ⟨hc, hswitch.current_state c hc⟩, (hswitch.same.pid c).trans hpid⟩
  rcases hswitch.outcome with ⟨-, hsame, hprocesses⟩ | ⟨c, -, hc, hprocesses⟩
  · rw [hprocesses] at hp
    obtain ⟨c, hc, hpid⟩ := h pid p hp hstopped
    exact hcurrent c (hsame ▸ hc) hpid
  · by_cases heq : (k.job c).pid = pid
    · exact hcurrent c hc heq
    · rw [hprocesses, deliver_of_ne _ (Ne.symm heq)] at hp
      cases hactive : k.active with
      | none =>
          rw [hactive] at hp
          obtain ⟨d, hd, -⟩ := h pid p hp hstopped
          rw [hactive] at hd
          cases hd
      | some a =>
          rw [hactive] at hp
          change deliver k.processes (k.job a).pid sigStop pid = some p at hp
          by_cases hpid : pid = (k.job a).pid
          · subst hpid
            rw [deliver_self] at hp
            obtain ⟨q, hq, rfl⟩ := Option.map_eq_some_iff.mp hp
            have hended := (Process.signal_stop hstopped).1
            refine hcurrent a (hstays a hactive ?_) rfl
            rw [hq]
            exact hended
          · rw [deliver_of_ne _ hpid] at hp
            obtain ⟨d, hd, rfl⟩ := h pid p hp hstopped
            rw [hactive] at hd
            exact absurd (Option.some.inj hd ▸ rfl) hpid

/-- A command does not end the process of a job that it leaves in `current`. -/
theorem endUnreported_of_doCmd (hkept : k.Kept nodes) {cmd : JobCmd}
    (haccepts : k.accepts cmd) (hrun : k.doCmd cmd = some k') (hc : c ∈ k'.active)
    (hended : (k'.processes (k'.job c).pid).any Process.hasEnded) : k.EndUnreported := by
  have hc := (mem_active.mp hc).1
  cases cmd with
  | nothing =>
      rw [← Option.some.inj hrun] at hc hended
      exact ⟨c, hc, hended⟩
  | stat =>
      rw [← Option.some.inj hrun] at hc hended
      exact ⟨c, hc, hended⟩
  | enq defpri pid =>
      obtain ⟨hpos, -⟩ := of_decide_eq_true haccepts
      have hroom := Kept.room_of_doCmd hrun defpri pid rfl
      obtain ⟨k₁, henqRun, -, henq⟩ := hkept.queue.doEnq hpos hroom pid
      rw [Option.some.inj (hrun.symm.trans henqRun)] at hc hended
      rw [henq.current] at hc
      rw [henq.job c (hkept.queue.current_lt c hc), henq.processes] at hended
      refine ⟨c, hc, ?_⟩
      by_cases heq : (k.job c).pid = pid
      · rw [heq, Function.update_self] at hended
        cases hended
      · rwa [Function.update_of_ne heq] at hended
  | deq deqid =>
      obtain ⟨k₁, nodes', hdeqRun, hdeq⟩ := hkept.queue.doDeq deqid
      rw [Option.some.inj (hrun.symm.trans hdeqRun)] at hc hended
      rcases hdeq.outcome with ⟨-, -, -, hnone, -⟩ | ⟨-, hsame, hprocesses, -⟩
      · rw [hnone] at hc
        cases hc
      · rw [hprocesses, hdeq.job] at hended
        exact ⟨c, hsame ▸ hc, hended⟩

theorem Attributed.schedule (h : k.Attributed) (hkept : k.Kept nodes) {cmd : JobCmd}
    (haccepts : k.accepts cmd) (hkeeps : k.KeepsOwner (.schedule cmd))
    (hrun : k.schedule cmd = some k') : k'.Attributed := by
  obtain ⟨k₁, nodes₁, hcmd, hkept₁, -⟩ :=
    hkept.doCmd haccepts (Kept.room_of_schedule hrun)
  obtain ⟨k₂, k₃, k'', nodes', hupdate, hselect, hactive, hswitch, hswitched⟩ :=
    hkept₁.queue.schedule
  have hselected : k.select cmd = some k₃ := by
    simp only [select, hcmd, hupdate, hselect, Option.bind_eq_bind, Option.bind_some]
  have hrun' : k.schedule cmd = some k'' := by
    simp only [Scheduler.schedule, hselected, hswitch, Option.bind_eq_bind, Option.bind_some]
  rw [Option.some.inj (hrun.symm.trans hrun')]
  refine (h.doCmd hkept haccepts hkeeps.1 hcmd).switched hswitched fun c hc hended => ?_
  have hunreported := endUnreported_of_doCmd hkept haccepts hcmd hc hended
  exact jobswitch_current hswitch (hactive.trans hc) (hkeeps.2 hunreported k₃ hselected)

/-- A process that runs ends. -/
theorem Attributed.ends (h : k.Attributed) {pid : Nat} {p : Process}
    (hrunning : k.processes pid = some .running) :
    Attributed { k with processes := Function.update k.processes pid (some p) } := by
  intro pid' p' hp hstopped
  change Function.update k.processes pid (some p) pid' = some p' at hp
  by_cases heq : pid' = pid
  · rw [heq]
    exact h pid .running hrunning fun _ => nofun
  · rw [Function.update_of_ne heq] at hp
    exact h pid' p' hp hstopped

/-- The end that is reported is that of the process of `current`, and then no
other process is left that is not stopped. -/
theorem Attributed.reported (h : k.Attributed) {pid : Nat} {p : Process}
    (hp : k.processes pid = some p) (hended : p.hasEnded) :
    ∃ c ∈ k.current, (k.job c).pid = pid ∧ ∀ pid' q,
      Function.update k.processes pid none pid' = some q → ∃ doomed, q = .stopped doomed := by
  have hstopped : ∀ doomed, p ≠ .stopped doomed := by
    rintro doomed rfl
    cases hended
  obtain ⟨c, hc, hpid⟩ := h pid p hp hstopped
  refine ⟨c, (mem_active.mp hc).1, hpid, fun pid' q hq => ?_⟩
  by_cases heq : pid' = pid
  · rw [heq, Function.update_self] at hq
    cases hq
  · rw [Function.update_of_ne heq] at hq
    by_contra hnot
    obtain ⟨d, hd, hpid'⟩ := h pid' q hq fun doomed hdoomed => hnot ⟨doomed, hdoomed⟩
    rw [Option.mem_unique hd hc, hpid] at hpid'
    exact heq hpid'.symm

theorem Attributed.step (h : k.Attributed) (hkept : k.Kept nodes) {act : SchedulerAct}
    (hkeeps : k.KeepsOwner act) (hstep : k.step act = some k') : k'.Attributed := by
  cases act with
  | schedule cmd =>
      simp only [Scheduler.step] at hstep
      split at hstep
      case isTrue haccepts => exact h.schedule hkept haccepts hkeeps hstep
      case isFalse => cases hstep
  | exits pid =>
      simp only [Scheduler.step] at hstep
      split at hstep
      case isTrue hrunning => exact Option.some.inj hstep ▸ h.ends hrunning
      case isFalse => cases hstep
  | crashes pid =>
      simp only [Scheduler.step] at hstep
      split at hstep
      case isTrue hrunning => exact Option.some.inj hstep ▸ h.ends hrunning
      case isFalse => cases hstep
  | sigchld pid =>
      cases pid with
      | none => exact Option.some.inj hstep ▸ h
      | some pid =>
          have hreport : ∀ {p exited}, k.processes pid = some p → p.hasEnded →
              k.reportEnd pid exited = some k' → k'.Attributed := by
            intro p exited hp hended hreport
            obtain ⟨-, -, -, hstopped⟩ := h.reported hp hended
            obtain ⟨c, -, hreport⟩ := Option.bind_eq_some_iff.mp hreport
            have hprocesses : k'.processes = Function.update k.processes pid none := by
              split at hreport
              · exact Option.some.inj hreport ▸ rfl
              · exact Option.some.inj hreport ▸ rfl
            intro pid' q hq hnot
            rw [hprocesses] at hq
            obtain ⟨doomed, hq⟩ := hstopped pid' q hq
            exact absurd hq (hnot doomed)
          simp only [Scheduler.step] at hstep
          split at hstep
          case h_1 hp => exact hreport hp rfl hstep
          case h_2 hp => exact hreport hp rfl hstep
          case h_3 => cases hstep

/-- What holds in every state of a run whose steps meet the condition. -/
theorem Attributed.of_run {ok : Scheduler → SchedulerAct → Prop}
    (hok : ∀ k act, ok k act → k.KeepsOwner act) {acts : List SchedulerAct}
    (hrun : Run Scheduler.step ok boot acts k) : k.Attributed := by
  have hall := hrun.invariant (fun k => (∃ nodes, k.Kept nodes ∧ k.next = none) ∧
    k.Attributed) (fun {k _ act} h hallowed hstep => by
      obtain ⟨⟨nodes, hkept, hnext⟩, hattributed⟩ := h
      exact ⟨hkept.step hnext hstep,
        hattributed.step hkept (hok k act hallowed) hstep⟩)
    ⟨⟨[], Kept.boot, rfl⟩, nofun⟩
  exact hall.2

/-! Whose end is taken for whose. -/

/-- `schedule` marks no job. -/
theorem done_schedule (hkept : k.Kept nodes) {cmd : JobCmd} (haccepts : k.accepts cmd)
    (hrun : k.schedule cmd = some k') {a : Nat} (ha : a < k.heap.size)
    (hdone : (k'.job a).state = .done) : (k.job a).state = .done := by
  obtain ⟨k₁, nodes₁, hcmd, hkept₁, -, hold⟩ :=
    hkept.doCmd haccepts (Kept.room_of_schedule hrun)
  obtain ⟨k₂, k₃, k'', nodes', hupdate, hselect, -, hswitch, hswitched⟩ :=
    hkept₁.queue.schedule
  have hrun' : k.schedule cmd = some k'' := by
    simp only [Scheduler.schedule, select, hcmd, hupdate, hselect, hswitch,
      Option.bind_eq_bind, Option.bind_some]
  rw [Option.some.inj (hrun.symm.trans hrun')] at hdone
  have hdone := hswitched.done a hdone
  rwa [(hold a ha).1] at hdone

/-- The handler marks the job in `current`, and that is the one whose process has
ended. -/
theorem Attributed.marks (h : k.Attributed) (hkept : k.Kept nodes) {act : SchedulerAct}
    (hstep : k.step act = some k') {a : Nat} (ha : a < k.heap.size)
    (hbefore : (k.job a).state ≠ .done) (hdone : (k'.job a).state = .done) :
    act = .sigchld (some (k.job a).pid) ∧ k.processes (k.job a).pid = some .exited := by
  cases act with
  | schedule cmd =>
      simp only [Scheduler.step] at hstep
      split at hstep
      case isTrue haccepts =>
        exact absurd (done_schedule hkept haccepts hstep ha hdone) hbefore
      case isFalse => cases hstep
  | exits pid =>
      simp only [Scheduler.step] at hstep
      split at hstep
      · rw [← Option.some.inj hstep] at hdone
        exact absurd hdone hbefore
      · cases hstep
  | crashes pid =>
      simp only [Scheduler.step] at hstep
      split at hstep
      · rw [← Option.some.inj hstep] at hdone
        exact absurd hdone hbefore
      · cases hstep
  | sigchld pid =>
      cases pid with
      | none =>
          rw [← Option.some.inj hstep] at hdone
          exact absurd hdone hbefore
      | some pid =>
          simp only [Scheduler.step] at hstep
          split at hstep
          case h_1 hp =>
            obtain ⟨c, hc, hpid, -⟩ := h.reported hp rfl
            obtain ⟨d, hd, hreport⟩ := Option.bind_eq_some_iff.mp hstep
            rw [if_pos rfl] at hreport
            rw [← Option.some.inj hreport] at hdone
            have heq : a = c := by
              by_contra hne
              rw [Option.mem_unique hd hc] at hdone
              exact hbefore (setJob_job_of_ne k hne _ ▸ hdone)
            rw [heq, hpid]
            exact ⟨rfl, hp⟩
          case h_2 hp =>
            obtain ⟨d, -, hreport⟩ := Option.bind_eq_some_iff.mp hstep
            rw [if_neg (fun h => by cases h)] at hreport
            rw [← Option.some.inj hreport] at hdone
            exact absurd hdone hbefore
          case h_3 => cases hstep

/-- The handler finds a job in `current` when an end is reported, and marks it done
only when its own process has exited. -/
def EndsAttributed (k : Scheduler) : Prop :=
  (∀ pid, k.processes pid = some .exited ∨ k.processes pid = some .killed →
    (k.step (.sigchld (some pid))).isSome) ∧
  ∀ act k', k.step act = some k' → ∀ a < k.heap.size, (k.job a).state ≠ .done →
    (k'.job a).state = .done → act = .sigchld (some (k.job a).pid) ∧
      k.processes (k.job a).pid = some .exited

/-- In a run in which no job leaves `current` before the end of its process is
reported, every end is taken for the end of its own job. -/
theorem ends_attributed {acts : List SchedulerAct}
    (hrun : Run Scheduler.step KeepsOwner boot acts k) : k.EndsAttributed := by
  have h := Attributed.of_run (fun _ _ => id) hrun
  obtain ⟨nodes, hkept, -⟩ := Kept.of_run hrun
  refine ⟨fun pid hp => ?_, fun act k' hstep a ha => h.marks hkept hstep ha⟩
  rcases hp with hp | hp
  · obtain ⟨c, hc, -⟩ := h.reported hp rfl
    simp only [step, hp, reportEnd, show k.current = some c from hc, Option.bind_eq_bind,
      Option.bind_some, if_true, Option.isSome_some]
  · obtain ⟨c, hc, -⟩ := h.reported hp rfl
    simp only [step, hp, reportEnd, show k.current = some c from hc, Option.bind_eq_bind,
      Option.bind_some, Bool.false_eq_true, if_false, Option.isSome_some]

namespace JobProcessesWitness

/-- The first job is dequeued while it runs; its process goes on, and ends when the
second job runs. -/
def dequeuesCurrent : List SchedulerAct :=
  [.schedule (.enq 0 100), .schedule (.deq 1), .schedule (.enq 0 101), .exits 100]

theorem end_taken_for_another :
    ¬ ∀ (acts : List SchedulerAct) (k : Scheduler),
      Run Scheduler.step (fun _ _ => True) boot acts k → k.EndsAttributed := by
  intro hall
  obtain ⟨k, hrun, k', hk', hbefore, hdone, hsize, hpid⟩ :
      ∃ k, dequeuesCurrent.foldlM Scheduler.step boot = some k ∧
        ∃ k', k.step (.sigchld (some 100)) = some k' ∧ (k.job 1).state = .running ∧
          (k'.job 1).state = .done ∧ k.heap.size = 2 ∧ (k.job 1).pid = 101 :=
    ⟨_, rfl, _, rfl, rfl, rfl, rfl, rfl⟩
  have hmarks := (hall _ k (Run.of_foldlM hrun)).2 _ k' hk' 1 (by omega)
    (hbefore ▸ nofun) hdone
  rw [hpid] at hmarks
  exact absurd hmarks.1 nofun

/-- A job comes to its end, and the next one starts. -/
def twoInTurn : List SchedulerAct :=
  [.schedule (.enq 2 100), .schedule (.enq 3 101), .exits 101, .sigchld (some 101),
    .schedule .nothing]

theorem ends_attributed_two : ∃ k,
    Run Scheduler.step KeepsOwner boot twoInTurn k ∧ k.EndsAttributed := by
  obtain ⟨k, hrun⟩ : ∃ k, twoInTurn.foldlM (fun k act =>
      if decide (KeepsOwner k act) then step k act else none) boot = some k := ⟨_, rfl⟩
  have hrun := Run.of_check (fun k act => decide (KeepsOwner k act))
    (fun _ => True) (fun _ _ => trivial) (fun _ h => of_decide_eq_true h) trivial hrun
  exact ⟨k, hrun, ends_attributed hrun⟩

end JobProcessesWitness

/-! Which processes are left. -/

/-- A command dequeues no job whose process is still there. -/
def DeqEnded (k : Scheduler) : JobCmd → Prop
  | .deq deqid => ∀ nodes, Segment k.heap.next k.head nodes none →
      ∀ a ∈ k.members nodes, (k.job a).jid = deqid → k.processes (k.job a).pid = none
  | _ => True

/-- The condition on a step: what is dequeued has no process, and no job is taken
from `current` before the end of its process is reported. -/
def LeavesNone (k : Scheduler) (act : SchedulerAct) : Prop :=
  k.KeepsOwner act ∧ match act with
    | .schedule cmd => k.DeqEnded cmd
    | _ => True

theorem Owned.doCmd (h : k.Owned nodes) (hkept : k.Kept nodes) {cmd : JobCmd}
    (haccepts : k.accepts cmd) (hsafe : k.DeqSafe cmd) (hended : k.DeqEnded cmd)
    (hrun : k.doCmd cmd = some k') : ∃ nodes', k'.Kept nodes' ∧ k'.Owned nodes' := by
  cases cmd with
  | nothing => exact Option.some.inj hrun ▸ ⟨nodes, hkept, h⟩
  | stat => exact Option.some.inj hrun ▸ ⟨nodes, hkept, h⟩
  | enq defpri newPid =>
      obtain ⟨hpos, -⟩ := of_decide_eq_true haccepts
      have hroom := Kept.room_of_doCmd hrun defpri newPid rfl
      obtain ⟨k₁, henqRun, hqueue, henq⟩ := hkept.queue.doEnq hpos hroom newPid
      rw [Option.some.inj (hrun.symm.trans henqRun)]
      refine ⟨_, hkept.enqueued hqueue henq, fun pid p hp hlive => ?_⟩
      have hmem : ∀ a, a ∈ k₁.members (nodes ++ [k.heap.size]) ↔
          a ∈ k.members nodes ∨ a = k.heap.size := by
        intro a
        rw [Kept.mem_members, Kept.mem_members, List.mem_append, List.mem_singleton,
          henq.current, or_right_comm]
      rw [henq.processes] at hp
      by_cases heq : pid = newPid
      · refine ⟨k.heap.size, (hmem _).mpr (Or.inr rfl), henq.new_pid.trans heq.symm, ?_⟩
        rw [henq.new_state]
        exact nofun
      · rw [Function.update_of_ne heq] at hp
        obtain ⟨a, ha, hpid, hstate⟩ := h pid p hp hlive
        refine ⟨a, (hmem a).mpr (Or.inl ha), ?_⟩
        rw [henq.job a (hkept.lt_size ha)]
        exact ⟨hpid, hstate⟩
  | deq deqid =>
      obtain ⟨k₁, nodes', hdeqRun, hdeq⟩ := hkept.queue.doDeq deqid
      rw [Option.some.inj (hrun.symm.trans hdeqRun)]
      refine ⟨nodes', hkept.doDeq hdeq, fun pid p hp hlive => ?_⟩
      have hp : k.processes pid = some p := by
        rcases hdeq.outcome with ⟨c, hc, hjid, -, -, hprocesses⟩ | ⟨-, -, hprocesses, -⟩
        · obtain ⟨-, hkill⟩ := hsafe c hc hjid
          rw [hprocesses, deliver, hkill, Function.update_eq_self] at hp
          exact hp
        · rwa [hprocesses] at hp
      obtain ⟨a, ha, hpid, hstate⟩ := h pid p hp hlive
      have hne : (k.job a).jid ≠ deqid := by
        intro hjid
        have hgone := hended nodes hkept.queue.list a ha hjid
        rw [hpid, hp] at hgone
        cases hgone
      refine ⟨a, (hkept.mem_doDeq hdeq a).mpr ⟨ha, hne⟩, ?_⟩
      rw [hdeq.job]
      exact ⟨hpid, hstate⟩

theorem Owned.switched (h : k.Owned nodes) (hswitch : Switched k k' nodes nodes') :
    k'.Owned nodes' := by
  intro pid p hp hlive
  obtain ⟨q, hq, hqlive⟩ : ∃ q, k.processes pid = some q ∧ q.isLive := by
    rcases hswitch.outcome with ⟨-, -, hprocesses⟩ | ⟨c, -, -, hprocesses⟩
    · exact ⟨p, hprocesses ▸ hp, hlive⟩
    · rw [hprocesses] at hp
      obtain ⟨q, hq, hqlive⟩ := deliver_live hp hlive
      cases hactive : k.active with
      | none =>
          rw [hactive] at hq
          exact ⟨q, hq, hqlive⟩
      | some a =>
          rw [hactive] at hq
          exact deliver_live hq hqlive
  obtain ⟨a, ha, hpid, hstate⟩ := h pid q hq hqlive
  refine ⟨a, hswitch.members.mem_iff.mpr (Kept.mem_append_active.mpr ?_),
    (hswitch.same.pid a).trans hpid, fun hdone => hstate (hswitch.done a hdone)⟩
  exact (Kept.mem_members.mp ha).imp_right fun hcurrent => ⟨hcurrent, hstate⟩

theorem Owned.setProcess (h : k.Owned nodes) {pid : Nat} {p : Option Process}
    (hended : ∀ q ∈ p, ¬ q.isLive) :
    Owned { k with processes := Function.update k.processes pid p } nodes := by
  intro pid' q hq hlive
  change Function.update k.processes pid p pid' = some q at hq
  by_cases heq : pid' = pid
  · rw [heq, Function.update_self] at hq
    exact absurd hlive (hended q hq)
  · rw [Function.update_of_ne heq] at hq
    exact h pid' q hq hlive

/-- A job that is marked done has no process any more. -/
theorem Owned.finish (h : k.Owned nodes) (hgone : k.processes (k.job c).pid = none)
    (finished : List Int) :
    Owned { k.setJob c { k.job c with state := .done } with finished := finished }
      nodes := by
  intro pid p hp hlive
  change k.processes pid = some p at hp
  obtain ⟨a, ha, hpid, hstate⟩ := h pid p hp hlive
  have hne : a ≠ c := by
    rintro rfl
    rw [hpid, hp] at hgone
    cases hgone
  refine ⟨a, ha, ?_⟩
  change ((k.setJob c _).job a).pid = pid ∧ ((k.setJob c _).job a).state ≠ .done
  rw [setJob_job_of_ne k hne]
  exact ⟨hpid, hstate⟩

theorem Owned.step (h : k.Owned nodes) (hkept : k.Kept nodes) (hattr : k.Attributed)
    {act : SchedulerAct} (hleaves : k.LeavesNone act) (hstep : k.step act = some k') :
    ∃ nodes', k'.Kept nodes' ∧ k'.Owned nodes' := by
  cases act with
  | schedule cmd =>
      simp only [Scheduler.step] at hstep
      split at hstep
      case isTrue haccepts =>
        obtain ⟨k₃, hselect, hswitch⟩ := Option.bind_eq_some_iff.mp hstep
        obtain ⟨k₁, hcmd, hselect⟩ := Option.bind_eq_some_iff.mp hselect
        obtain ⟨nodes₁, hkept₁, h₁⟩ :=
          h.doCmd hkept haccepts hleaves.1.1 hleaves.2 hcmd
        obtain ⟨k₂, k₃', k'', nodes', hupdate, hselect', -, hswitch', hswitched⟩ :=
          hkept₁.queue.schedule
        simp only [hupdate, Option.bind_eq_bind, Option.bind_some, hselect',
          Option.some.injEq] at hselect
        rw [← hselect, hswitch', Option.some.injEq] at hswitch
        rw [← hswitch]
        exact ⟨nodes', hkept₁.switched hswitched, h₁.switched hswitched⟩
      case isFalse => cases hstep
  | exits pid =>
      simp only [Scheduler.step] at hstep
      split at hstep
      · rw [← Option.some.inj hstep]
        exact ⟨nodes, hkept.setProcesses _, h.setProcess fun q hq => by cases hq; exact (fun h => by cases h)⟩
      · cases hstep
  | crashes pid =>
      simp only [Scheduler.step] at hstep
      split at hstep
      · rw [← Option.some.inj hstep]
        exact ⟨nodes, hkept.setProcesses _, h.setProcess fun q hq => by cases hq; exact (fun h => by cases h)⟩
      · cases hstep
  | sigchld pid =>
      cases pid with
      | none => exact Option.some.inj hstep ▸ ⟨nodes, hkept, h⟩
      | some pid =>
          have hreaped := @Owned.setProcess k nodes h pid none (fun _ h => by cases h)
          simp only [Scheduler.step] at hstep
          split at hstep
          case h_1 hp =>
            refine ⟨nodes, hkept.reportEnd hstep, ?_⟩
            obtain ⟨c, hc, hpid, -⟩ := hattr.reported hp rfl
            obtain ⟨d, hd, hreport⟩ := Option.bind_eq_some_iff.mp hstep
            rw [if_pos rfl] at hreport
            rw [← Option.some.inj hreport]
            refine hreaped.finish ?_ _
            rw [Option.mem_unique hd hc]
            change Function.update k.processes pid none (k.job c).pid = none
            rw [hpid, Function.update_self]
          case h_2 =>
            refine ⟨nodes, hkept.reportEnd hstep, ?_⟩
            obtain ⟨d, -, hreport⟩ := Option.bind_eq_some_iff.mp hstep
            rw [if_neg (fun h => by cases h)] at hreport
            rw [← Option.some.inj hreport]
            exact hreaped
          case h_3 => cases hstep

/-- Only the process of `current` runs, and every process that is there belongs to
a job that is there. -/
def OneRuns (k : Scheduler) : Prop :=
  (∀ pid, k.processes pid = some .running → ∃ c ∈ k.current, (k.job c).pid = pid) ∧
  ∀ nodes, Segment k.heap.next k.head nodes none →
    ∀ pid p, k.processes pid = some p → p.isLive →
      ∃ a ∈ k.members nodes, (k.job a).pid = pid

/-- In a run in which no job is dequeued before its process has gone, and no job
leaves `current` before the end of its process is reported, one process runs. -/
theorem one_runs {acts : List SchedulerAct}
    (hrun : Run Scheduler.step LeavesNone boot acts k) : k.OneRuns := by
  have hattr := Attributed.of_run (fun _ _ => And.left) hrun
  obtain ⟨⟨nodes, hkept, howned⟩, -⟩ := hrun.invariant
    (fun k => (∃ nodes, k.Kept nodes ∧ k.Owned nodes) ∧ k.Attributed)
    (fun {k _ act} h hallowed hstep => by
      obtain ⟨⟨nodes, hkept, howned⟩, hattr⟩ := h
      exact ⟨howned.step hkept hattr hallowed hstep,
        hattr.step hkept hallowed.1 hstep⟩)
    ⟨⟨[], Kept.boot, nofun⟩, nofun⟩
  refine ⟨fun pid hp => ?_, fun nodes' hlist pid p hp hlive => ?_⟩
  · obtain ⟨c, hc, hpid⟩ := hattr pid _ hp fun _ => nofun
    exact ⟨c, (mem_active.mp hc).1, hpid⟩
  · rw [hkept.queue.list.unique hlist]
    obtain ⟨a, ha, hpid, -⟩ := howned pid p hp hlive
    exact ⟨a, ha, hpid⟩

namespace JobProcessesWitness

/-- Two processes run once the first job has been dequeued and the second started. -/
theorem two_run :
    ¬ ∀ (acts : List SchedulerAct) (k : Scheduler),
      Run Scheduler.step (fun _ _ => True) boot acts k → k.OneRuns := by
  intro hall
  obtain ⟨k, hrun, hrunning, hcurrent, hpid⟩ :
      ∃ k, (dequeuesCurrent.take 3).foldlM Scheduler.step boot = some k ∧
        k.processes 100 = some .running ∧ k.current = some 1 ∧ (k.job 1).pid = 101 :=
    ⟨_, rfl, rfl, rfl, rfl⟩
  obtain ⟨c, hc, hpid'⟩ := (hall _ k (Run.of_foldlM hrun)).1 100 hrunning
  rw [hcurrent] at hc
  rw [← Option.some.inj hc, hpid] at hpid'
  exact absurd hpid' (by decide)

/-- The condition, with what is not asked of the commands of this run left out. -/
def checkLeavesNone (k : Scheduler) : SchedulerAct → Bool
  | .schedule (.deq _) => false
  | act => decide (KeepsOwner k act)

theorem leavesNone_of_check {act : SchedulerAct} (h : checkLeavesNone k act = true) :
    k.LeavesNone act := by
  cases act with
  | schedule cmd =>
      cases cmd with
      | deq deqid => cases h
      | nothing | enq _ _ | stat => exact ⟨of_decide_eq_true h, trivial⟩
  | exits pid | crashes pid | sigchld pid => exact ⟨trivial, trivial⟩

theorem one_runs_two : ∃ k,
    Run Scheduler.step LeavesNone boot twoInTurn k ∧ k.OneRuns := by
  obtain ⟨k, hrun⟩ : ∃ k, twoInTurn.foldlM (fun k act =>
      if checkLeavesNone k act then step k act else none) boot = some k := ⟨_, rfl⟩
  have hrun := Run.of_check checkLeavesNone (fun _ => True) (fun _ _ => trivial)
    (fun _ h => leavesNone_of_check h) trivial hrun
  exact ⟨k, hrun, one_runs hrun⟩

end JobProcessesWitness

end Scheduler

end PintosLabs
