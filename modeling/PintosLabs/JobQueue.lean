/-
The wait queue of the job scheduler: its nodes are unlinked and linked by hand,
and no job is lost or doubled by it, whichever job is chosen.
-/
import PintosLabs.JobScheduler

namespace PintosLabs

namespace Scheduler

/-- The wait queue holds these nodes, and `current` is none of them. -/
structure Queue (k : Scheduler) (nodes : List Nat) : Prop where
  list : Segment k.heap.next k.head nodes none
  lt_size : ∀ a ∈ nodes, a < k.heap.size
  curpri : ∀ a ∈ nodes, 0 ≤ (k.job a).curpri
  defpri : ∀ a < k.heap.size, 0 ≤ (k.job a).defpri
  fresh : ∀ a, k.heap.size ≤ a → k.heap.next a = none
  current_lt : ∀ c ∈ k.current, c < k.heap.size
  current_notMem : ∀ c ∈ k.current, c ∉ nodes
  current_next : ∀ c ∈ k.current, k.heap.next c = none

/-- The same jobs, whatever their turn. -/
structure SameJobs (k k' : Scheduler) : Prop where
  size : k'.heap.size = k.heap.size
  jid : ∀ a, (k'.job a).jid = (k.job a).jid
  pid : ∀ a, (k'.job a).pid = (k.job a).pid
  defpri : ∀ a, (k'.job a).defpri = (k.job a).defpri
  jobid : k'.jobid = k.jobid
  dequeued : k'.dequeued = k.dequeued
  finished : k'.finished = k.finished

namespace SameJobs

variable {k k' k'' : Scheduler}

theorem refl (k : Scheduler) : SameJobs k k :=
  ⟨rfl, fun _ => rfl, fun _ => rfl, fun _ => rfl, rfl, rfl, rfl⟩

theorem trans (h : SameJobs k k') (h' : SameJobs k' k'') : SameJobs k k'' where
  size := h'.size.trans h.size
  jid a := (h'.jid a).trans (h.jid a)
  pid a := (h'.pid a).trans (h.pid a)
  defpri a := (h'.defpri a).trans (h.defpri a)
  jobid := h'.jobid.trans h.jobid
  dequeued := h'.dequeued.trans h.dequeued
  finished := h'.finished.trans h.finished

end SameJobs

section Fields

variable (k : Scheduler) (a : Nat) (j : JobInfo)

@[simp] theorem setJob_job_self : (k.setJob a j).job a = j := Function.update_self _ _ _

theorem setJob_job_of_ne {a b : Nat} (h : b ≠ a) (j : JobInfo) :
    (k.setJob a j).job b = k.job b := Function.update_of_ne h _ _

theorem sameJobs_setJob {j : JobInfo} (hjid : j.jid = (k.job a).jid)
    (hpid : j.pid = (k.job a).pid) (hdefpri : j.defpri = (k.job a).defpri) :
    SameJobs k (k.setJob a j) := by
  have hall : ∀ b, ((k.setJob a j).job b).jid = (k.job b).jid ∧
      ((k.setJob a j).job b).pid = (k.job b).pid ∧
        ((k.setJob a j).job b).defpri = (k.job b).defpri := by
    intro b
    by_cases hb : b = a
    · subst hb
      rw [setJob_job_self]
      exact ⟨hjid, hpid, hdefpri⟩
    · rw [setJob_job_of_ne k hb]
      exact ⟨rfl, rfl, rfl⟩
  exact ⟨rfl, fun b => (hall b).1, fun b => (hall b).2.1, fun b => (hall b).2.2,
    rfl, rfl, rfl⟩

end Fields

variable {k k' : Scheduler} {nodes : List Nat} {a c : Nat}

theorem Queue.length_lt (h : k.Queue nodes) : nodes.length < k.heap.size + 1 :=
  Nat.lt_succ_of_le (h.list.length_le h.lt_size)

theorem Queue.nodup (h : k.Queue nodes) : nodes.Nodup := h.list.nodup

theorem Queue.congr (h : k.Queue nodes) (hheap : k'.heap = k.heap)
    (hhead : k'.head = k.head) (hcurrent : k'.current = k.current) : k'.Queue nodes where
  list := by
    rw [hheap, hhead]
    exact h.list
  lt_size := by
    rw [hheap]
    exact h.lt_size
  curpri := by
    rw [show k'.job = k.job from funext fun a => by rw [job, job, hheap]]
    exact h.curpri
  defpri := by
    rw [show k'.job = k.job from funext fun a => by rw [job, job, hheap], hheap]
    exact h.defpri
  fresh := by
    rw [hheap]
    exact h.fresh
  current_lt := by
    rw [hheap, hcurrent]
    exact h.current_lt
  current_notMem := by
    rw [hcurrent]
    exact h.current_notMem
  current_next := by
    rw [hheap, hcurrent]
    exact h.current_next

/-- The queue does not depend on the turns of the jobs. -/
theorem Queue.setJob (h : k.Queue nodes) {j : JobInfo}
    (hcurpri : a ∈ nodes → 0 ≤ j.curpri) (hdefpri : j.defpri = (k.job a).defpri) :
    (k.setJob a j).Queue nodes where
  list := h.list
  lt_size := h.lt_size
  curpri b hb := by
    by_cases heq : b = a
    · subst heq
      rw [setJob_job_self]
      exact hcurpri hb
    · rw [setJob_job_of_ne k heq]
      exact h.curpri b hb
  defpri b hb := by
    by_cases heq : b = a
    · subst heq
      rw [setJob_job_self, hdefpri]
      exact h.defpri b hb
    · rw [setJob_job_of_ne k heq]
      exact h.defpri b hb
  fresh := h.fresh
  current_lt := h.current_lt
  current_notMem := h.current_notMem
  current_next := h.current_next

/-- `current` may be cleared, or filled with a node that is not in the queue. -/
theorem Queue.setCurrent (h : k.Queue nodes) (current : Option Nat)
    (hcurrent : ∀ c ∈ current, c < k.heap.size ∧ c ∉ nodes ∧ k.heap.next c = none)
    (next : Option Nat) : Queue { k with current := current, next := next } nodes where
  list := h.list
  lt_size := h.lt_size
  curpri := h.curpri
  defpri := h.defpri
  fresh := h.fresh
  current_lt c hc := (hcurrent c hc).1
  current_notMem c hc := (hcurrent c hc).2.1
  current_next c hc := (hcurrent c hc).2.2

/-! The functions that go through the queue. -/

/-- The turn of every waiting job comes nearer. -/
theorem Queue.updateall (h : k.Queue nodes) :
    ∃ k', k.updateall = some k' ∧ k'.Queue nodes ∧ SameJobs k k' ∧
      (∀ a, (k'.job a).state = (k.job a).state) ∧ k'.current = k.current ∧
      k'.processes = k.processes := by
  obtain ⟨k₁, hk₁⟩ : ∃ k₁, k.updateCurrent = k₁ := ⟨_, rfl⟩
  obtain ⟨hnext₁, hsize₁, hhead₁, hcurrent₁, hprocesses₁⟩ : k₁.heap.next = k.heap.next ∧
      k₁.heap.size = k.heap.size ∧ k₁.head = k.head ∧ k₁.current = k.current ∧
        k₁.processes = k.processes := by
    rw [← hk₁, updateCurrent]
    split <;> exact ⟨rfl, rfl, rfl, rfl, rfl⟩
  have hsame₁ : SameJobs k k₁ := by
    rw [← hk₁, updateCurrent]
    split
    · exact SameJobs.refl k
    · exact k.sameJobs_setJob _ rfl rfl rfl
  have hjob₁ : ∀ a, (k₁.job a).state = (k.job a).state ∧
      (k₁.job a).curpri = (k.job a).curpri := by
    intro a
    rw [← hk₁, updateCurrent]
    split
    · exact ⟨rfl, rfl⟩
    · rename_i c _
      by_cases ha : a = c
      · subst ha
        rw [setJob_job_self]
        exact ⟨rfl, rfl⟩
      · rw [setJob_job_of_ne k ha]
        exact ⟨rfl, rfl⟩
  obtain ⟨heap, hmap, hnext, hsize, hmem, hother⟩ :=
    NodeHeap.mapFrom_spec (h := k₁.heap) JobInfo.waits (n := k₁.heap.size + 1)
      (by rw [hnext₁]; exact h.list)
      (by rw [hsize₁]; exact h.length_lt)
  have hkeep : ∀ a, (heap.data a).jid = (k₁.job a).jid ∧
      (heap.data a).pid = (k₁.job a).pid ∧ (heap.data a).defpri = (k₁.job a).defpri ∧
        (heap.data a).state = (k₁.job a).state := by
    intro a
    by_cases ha : a ∈ nodes
    · rw [hmem a ha]
      exact ⟨rfl, rfl, rfl, rfl⟩
    · rw [hother a ha]
      exact ⟨rfl, rfl, rfl, rfl⟩
  have hsame : SameJobs k₁ { k₁ with heap := heap } :=
    ⟨hsize, fun a => (hkeep a).1, fun a => (hkeep a).2.1, fun a => (hkeep a).2.2.1,
      rfl, rfl, rfl⟩
  refine ⟨{ k₁ with heap := heap }, ?_, ?_, hsame₁.trans hsame,
    fun a => (hkeep a).2.2.2.trans (hjob₁ a).1, hcurrent₁, hprocesses₁⟩
  · rw [Scheduler.updateall, hk₁]
    simp only [hhead₁, hmap, Option.bind_eq_bind, Option.bind_some]
  · have hnext' : heap.next = k.heap.next := hnext.trans hnext₁
    have hsize' : heap.size = k.heap.size := hsize.trans hsize₁
    refine ⟨?_, ?_, fun a ha => ?_, fun a ha => ?_, ?_, ?_, ?_, ?_⟩
    · simp only [hnext', hhead₁]
      exact h.list
    · simp only [hsize']
      exact h.lt_size
    · have hpos := h.curpri a ha
      change 0 ≤ (heap.data a).curpri
      rw [hmem a ha]
      change 0 ≤ if (k₁.job a).curpri < 3 then (k₁.job a).curpri + 1 else (k₁.job a).curpri
      rw [(hjob₁ a).2]
      split <;> omega
    · rw [(hsame₁.trans hsame).defpri]
      exact h.defpri a (hsize' ▸ ha)
    · simp only [hsize', hnext']
      exact h.fresh
    · simp only [hsize', hcurrent₁]
      exact h.current_lt
    · simp only [hcurrent₁]
      exact h.current_notMem
    · simp only [hnext', hcurrent₁]
      exact h.current_next

/-- A node is put at the end. -/
theorem Queue.putLast (h : k.Queue nodes) (ha : a ∉ nodes) (hlt : a < k.heap.size)
    (hnext : k.heap.next a = none) (hcurpri : 0 ≤ (k.job a).curpri)
    (hcurrent : ∀ c ∈ k.current, c ≠ a) :
    ∃ k', k.putLast a = some k' ∧ k'.Queue (nodes ++ [a]) ∧ SameJobs k k' ∧
      k'.job = k.job ∧ k'.current = k.current ∧ k'.processes = k.processes ∧
      ∀ b ∉ nodes, k'.heap.next b = k.heap.next b := by
  obtain ⟨heap, head, hput, hlist, hdata, hsize, hother⟩ :=
    NodeHeap.putLast_spec h.list h.lt_size ha hnext
  have hjob : ∀ b, heap.data b = k.job b := fun b => congrFun hdata b
  refine ⟨{ k with heap := heap, head := head }, ?_, ?_,
    ⟨hsize, fun b => by rw [job, hjob], fun b => by rw [job, hjob],
      fun b => by rw [job, hjob], rfl, rfl, rfl⟩, funext hjob, rfl, rfl, hother⟩
  · rw [Scheduler.putLast, hput]
    rfl
  · refine ⟨hlist, fun b hb => ?_, fun b hb => ?_, fun b hb => ?_, fun b hb => ?_,
      fun c hc => ?_, fun c hc hmem => ?_, fun c hc => ?_⟩
    · rw [hsize]
      rcases List.mem_append.mp hb with hb | hb
      · exact h.lt_size b hb
      · exact List.mem_singleton.mp hb ▸ hlt
    · rw [job, hjob]
      rcases List.mem_append.mp hb with hb | hb
      · exact h.curpri b hb
      · exact List.mem_singleton.mp hb ▸ hcurpri
    · rw [job, hjob]
      exact h.defpri b (hsize ▸ hb)
    · have hb' : k.heap.size ≤ b := hsize ▸ hb
      rw [hother b fun hmem => absurd (h.lt_size b hmem) (Nat.not_lt.mpr hb')]
      exact h.fresh b hb'
    · rw [hsize]
      exact h.current_lt c hc
    · rcases List.mem_append.mp hmem with hmem | hmem
      · exact h.current_notMem c hc hmem
      · exact hcurrent c hc (List.mem_singleton.mp hmem)
    · rw [hother c (h.current_notMem c hc)]
      exact h.current_next c hc

/-- A node is taken out, whatever stands before and behind it. -/
theorem Queue.unlink {before after : List Nat} (h : k.Queue (before ++ a :: after)) :
    ∃ heap head, k.heap.unlink k.head (NodeHeap.trailing k.head before) (some a) =
        some (heap, head) ∧
      (∀ next, Queue { k with heap := heap, head := head, next := next }
        (before ++ after)) ∧
      heap.next a = none ∧ heap.data = k.heap.data ∧ heap.size = k.heap.size := by
  obtain ⟨heap, head, hunlink, hlist, hnext, hdata, hsize, hother⟩ :=
    NodeHeap.unlink_spec h.list
  have hsub : ∀ b ∈ before ++ after, b ∈ before ++ a :: after := by
    intro b hb
    simp only [List.mem_append, List.mem_cons] at hb ⊢
    tauto
  have hjob : ∀ b, heap.data b = k.job b := fun b => congrFun hdata b
  refine ⟨heap, head, hunlink, fun next => ?_, hnext, hdata, hsize⟩
  refine ⟨hlist, fun b hb => ?_, fun b hb => ?_, fun b hb => ?_, fun b hb => ?_,
    fun c hc => ?_, fun c hc hmem => ?_, fun c hc => ?_⟩
  · rw [hsize]
    exact h.lt_size b (hsub b hb)
  · rw [job, hjob]
    exact h.curpri b (hsub b hb)
  · rw [job, hjob]
    exact h.defpri b (hsize ▸ hb)
  · have hb' : k.heap.size ≤ b := hsize ▸ hb
    rw [hother b fun hmem => absurd (h.lt_size b hmem) (Nat.not_lt.mpr hb')]
    exact h.fresh b hb'
  · rw [hsize]
    exact h.current_lt c hc
  · exact h.current_notMem c hc (hsub c hmem)
  · rw [hother c (h.current_notMem c hc)]
    exact h.current_next c hc

/-! `jobselect` and `jobswitch`. -/

/-- Every job is at least at priority 0, so the first is chosen over none. -/
theorem Queue.foldPairs (h : k.Queue nodes) (hne : nodes ≠ []) :
    ∃ c before a after, k.heap.foldPairs (Choice.look k.job) (k.heap.size + 1) k.head
        k.head ⟨none, none, -1, -1⟩ = some c ∧
      nodes = before ++ a :: after ∧ c.select = some a ∧
      c.selectprev = NodeHeap.trailing k.head before := by
  have hprev : nodes ≠ [] → k.head = NodeHeap.trailing k.head [] := fun _ => rfl
  have hsplit : nodes = [] ++ nodes := rfl
  obtain ⟨c, hfold, hc⟩ := NodeHeap.foldPairs_spec (n := k.heap.size + 1)
    (Choice.look k.job) (P := fun passed c => passed = [] ∧ c = ⟨none, none, -1, -1⟩ ∨
      ∃ before a after, passed = before ++ a :: after ∧ c.select = some a ∧
        c.selectprev = NodeHeap.trailing k.head before)
    (fun {passed a after c} hsplit hc => by
      have hpos := h.curpri a (by simp [hsplit])
      rcases hc with ⟨rfl, rfl⟩ | ⟨before, b, rest, rfl, hselect, hprev⟩
      · refine Or.inr ⟨[], a, [], rfl, ?_⟩
        rw [Choice.look, if_pos (by change (-1 : Int) < _; omega)]
        exact ⟨rfl, rfl⟩
      · rw [Choice.look]
        split
        · exact Or.inr ⟨_, a, [], rfl, rfl, rfl⟩
        · split
          · exact Or.inr ⟨_, a, [], rfl, rfl, rfl⟩
          · exact Or.inr ⟨before, b, rest ++ [a], by simp, hselect, hprev⟩)
    hsplit hprev h.list h.length_lt (Or.inl ⟨rfl, rfl⟩)
  rcases hc with ⟨hnil, -⟩ | ⟨before, a, after, hsplit, hselect, hprev⟩
  · exact absurd hnil hne
  · exact ⟨c, before, a, after, hfold, hsplit, hselect, hprev⟩

/-- The job that is to run next has left the queue. -/
structure Chosen (k : Scheduler) (nodes : List Nat) : Prop where
  queue : k.Queue nodes
  next_lt : ∀ n ∈ k.next, n < k.heap.size
  next_notMem : ∀ n ∈ k.next, n ∉ nodes
  next_next : ∀ n ∈ k.next, k.heap.next n = none
  next_curpri : ∀ n ∈ k.next, 0 ≤ (k.job n).curpri
  next_none : k.next = none → nodes = []
  ne_current : ∀ n ∈ k.next, n ∉ k.current

theorem Queue.jobselect (h : k.Queue nodes) :
    ∃ k' nodes', k.jobselect = some k' ∧ k'.Chosen nodes' ∧
      (nodes' ++ k'.next.toList).Perm nodes ∧ SameJobs k k' ∧ k'.job = k.job ∧
      k'.current = k.current ∧ k'.processes = k.processes := by
  cases nodes with
  | nil =>
      have hhead : k.head = none := h.list
      refine ⟨{ k with next := none }, [], ?_, ?_, List.Perm.refl _,
        ⟨rfl, fun _ => rfl, fun _ => rfl, fun _ => rfl, rfl, rfl, rfl⟩, rfl, rfl, rfl⟩
      · rw [Scheduler.jobselect, hhead]
      · have hqueue := h.setCurrent k.current (fun c hc =>
          ⟨h.current_lt c hc, h.current_notMem c hc, h.current_next c hc⟩) none
        exact ⟨hqueue, nofun, nofun, nofun, nofun, fun _ => rfl, nofun⟩
  | cons first rest =>
      obtain ⟨c, before, a, after, hfold, hsplit, hselect, hprev⟩ :=
        h.foldPairs (List.cons_ne_nil first rest)
      have hnodup := h.nodup
      have hlt := h.lt_size a (by simp [hsplit])
      have hpos := h.curpri a (by simp [hsplit])
      have hcurrent : ∀ c ∈ k.current, c ≠ a := by
        rintro c hc rfl
        exact h.current_notMem c hc (by simp [hsplit])
      have hhead : k.head = some first := h.list.head_eq
      rw [hsplit] at h hnodup ⊢
      obtain ⟨heap, head, hunlink, hqueue, hnext, hdata, hsize⟩ := h.unlink
      have hjob : ∀ b, heap.data b = k.job b := fun b => congrFun hdata b
      refine ⟨{ k with heap := heap, head := head, next := some a }, before ++ after,
        ?_, ?_, ?_, ⟨hsize, fun b => by rw [job, hjob], fun b => by rw [job, hjob],
          fun b => by rw [job, hjob], rfl, rfl, rfl⟩, funext hjob, rfl, rfl⟩
      · rw [Scheduler.jobselect]
        simp only [hhead] at hfold hprev hunlink ⊢
        simp only [hfold, Option.bind_eq_bind, Option.bind_some, hselect, hprev, hunlink]
      · have hmem : ∀ n ∈ some a, n = a := fun n hn => (Option.some.inj hn).symm
        refine ⟨hqueue (some a), fun n hn => ?_, fun n hn => ?_, fun n hn => ?_,
          fun n hn => ?_, nofun, fun n hn hc => hcurrent n hc (hmem n hn)⟩
        · rw [hmem n hn, hsize]
          exact hlt
        · rw [hmem n hn]
          have hmiddle := hnodup
          rw [List.nodup_middle, List.nodup_cons] at hmiddle
          exact hmiddle.1
        · rw [hmem n hn]
          exact hnext
        · rw [hmem n hn, job, hjob]
          exact hpos
      · rw [Option.toList_some]
        exact (List.perm_append_singleton a _).trans List.perm_middle.symm

/-- The job in `current`, if it is not done. -/
def active (k : Scheduler) : Option Nat := k.removeDone.current

theorem mem_active : c ∈ k.active ↔ c ∈ k.current ∧ (k.job c).state ≠ .done := by
  rw [active, removeDone, Option.mem_filter_iff, decide_eq_true_iff]

/-- The jobs in the queue and in `current`. -/
def members (k : Scheduler) (nodes : List Nat) : List Nat := nodes ++ k.current.toList

/-- What `jobswitch` does when these jobs wait, the one chosen among them. -/
structure Switched (k k' : Scheduler) (waiting nodes' : List Nat) : Prop where
  queue : k'.Queue nodes'
  same : SameJobs k k'
  next : k'.next = none
  members : (k'.members nodes').Perm (waiting ++ k.active.toList)
  current_none : k'.current = none → waiting = [] ∧ k.active = none
  done : ∀ a, (k'.job a).state = .done → (k.job a).state = .done
  current_state : ∀ c ∈ k'.current, (k'.job c).state ≠ .done
  outcome : waiting = [] ∧ k'.current = k.active ∧ k'.processes = k.processes ∨
    ∃ c ∈ waiting ++ k.active.toList, k'.current = some c ∧
      k'.processes = deliver (k.active.elim k.processes fun a =>
        deliver k.processes (k.job a).pid sigStop) (k.job c).pid sigCont

theorem resume_job (a b : Nat) : (k.resume a).job b =
    if b = a then { k.job a with state := .running } else k.job b := by
  split
  case isTrue heq =>
    rw [heq]
    exact setJob_job_self _ _ _
  case isFalse hne => exact setJob_job_of_ne _ hne _

theorem sameJobs_resume (k : Scheduler) (a : Nat) : SameJobs k (k.resume a) := by
  have h := k.sameJobs_setJob a (j := { k.job a with state := .running }) rfl rfl rfl
  exact ⟨h.size, h.jid, h.pid, h.defpri, rfl, rfl, rfl⟩

theorem Queue.resume (h : k.Queue nodes) (hlt : a < k.heap.size) (hmem : a ∉ nodes)
    (hnext : k.heap.next a = none) : (k.resume a).Queue nodes := by
  have hset : ∀ c ∈ some a, c < k.heap.size ∧ c ∉ nodes ∧ k.heap.next c = none := by
    intro c hc
    rw [← Option.some.inj hc]
    exact ⟨hlt, hmem, hnext⟩
  have hqueue := Queue.setJob (a := a) (j := { k.job a with state := .running })
    (h.setCurrent _ hset none) (fun ha => absurd ha hmem) rfl
  exact hqueue.congr rfl rfl rfl

theorem Queue.removeDone (h : k.Queue nodes) : k.removeDone.Queue nodes :=
  h.setCurrent _ (fun c hc =>
    have hmem := (mem_active.mp hc).1
    ⟨h.current_lt c hmem, h.current_notMem c hmem, h.current_next c hmem⟩) k.next

theorem done_resume (hdone : ((k.resume c).job a).state = .done) :
    a ≠ c ∧ (k.job a).state = .done := by
  rw [resume_job] at hdone
  split at hdone
  · cases hdone
  case isFalse hne => exact ⟨hne, hdone⟩

/-- Nothing else runs when the chosen job starts. -/
theorem Chosen.start {n : Nat} (h : k.Chosen nodes) (hnext : k.next = some n)
    (hactive : k.active = none) :
    Switched k (k.removeDone.resume n) (nodes ++ k.next.toList) nodes where
  queue := h.queue.removeDone.resume (h.next_lt n hnext) (h.next_notMem n hnext)
    (h.next_next n hnext)
  same := ⟨rfl, (sameJobs_resume k n).jid, (sameJobs_resume k n).pid,
    (sameJobs_resume k n).defpri, rfl, rfl, rfl⟩
  next := rfl
  members := by
    rw [hactive, hnext, Option.toList_none, List.append_nil]
    exact List.Perm.refl _
  current_none := nofun
  done _ hdone := (done_resume hdone).2
  current_state c hc hdone := (done_resume hdone).1 (Option.some.inj hc).symm
  outcome := by
    refine Or.inr ⟨n, by simp [hnext], rfl, ?_⟩
    rw [hactive]
    rfl

/-- `current` before it is compared with `next`. -/
def paused (k : Scheduler) (c : Nat) : Scheduler :=
  (k.removeDone.kill (k.job c).pid sigStop).setJob c
    { k.job c with curpri := (k.job c).defpri, waitTime := 0, state := .ready }

theorem paused_job (a : Nat) : (k.paused c).job a =
    if a = c then { k.job c with
      curpri := (k.job c).defpri, waitTime := 0, state := .ready } else k.job a := by
  split
  case isTrue heq =>
    rw [heq]
    exact setJob_job_self _ _ _
  case isFalse hne => exact setJob_job_of_ne _ hne _

theorem done_paused (hdone : ((k.paused c).job a).state = .done) :
    (k.job a).state = .done := by
  rw [paused_job] at hdone
  split at hdone
  · cases hdone
  · exact hdone

theorem sameJobs_paused (k : Scheduler) (c : Nat) : SameJobs k (k.paused c) := by
  have h := k.sameJobs_setJob c
    (j := { k.job c with curpri := (k.job c).defpri, waitTime := 0, state := .ready })
    rfl rfl rfl
  exact ⟨h.size, h.jid, h.pid, h.defpri, rfl, rfl, rfl⟩

theorem Queue.paused (h : k.Queue nodes) (hlt : c < k.heap.size) :
    (k.paused c).Queue nodes := by
  have hqueue := h.removeDone.setJob (a := c)
    (j := { k.job c with curpri := (k.job c).defpri, waitTime := 0, state := .ready })
    (fun _ => h.defpri c hlt) rfl
  exact hqueue.congr rfl rfl rfl

/-- Where a node is put does not depend on `current`. -/
theorem putLast_setCurrent {k₁ : Scheduler}
    (hput : { k with current := none }.putLast a = some k₁) :
    k.putLast a = some { k₁ with current := k.current } := by
  obtain ⟨⟨heap, head⟩, hput, hk₁⟩ := Option.bind_eq_some_iff.mp hput
  rw [← Option.some.inj hk₁]
  exact Option.bind_eq_some_iff.mpr ⟨(heap, head), hput, rfl⟩

/-- One of the two, `x`, goes to the end of the queue; the other, `y`, runs. -/
theorem Chosen.exchange {n x y : Nat} (h : k.Chosen nodes) (hnext : k.next = some n)
    (hactive : k.active = some c) (hxy : x = n ∧ y = c ∨ x = c ∧ y = n) :
    ∃ k₁, (k.paused c).putLast x = some k₁ ∧
      Switched k (k₁.resume y) (nodes ++ k.next.toList) (nodes ++ [x]) := by
  have hc := mem_active.mp (hactive ▸ Option.mem_some_self c)
  have hlt := h.queue.current_lt c hc.1
  have hne : n ≠ c := fun heq => h.ne_current n hnext (heq ▸ hc.1)
  have hpaused := (h.queue.paused hlt).setCurrent none nofun k.next
  -- both nodes are free to be put into the queue
  have hfree : ∀ z, z = n ∨ z = c → z ∉ nodes ∧ z < k.heap.size ∧
      k.heap.next z = none ∧ 0 ≤ ((k.paused c).job z).curpri := by
    rintro z (rfl | rfl)
    · refine ⟨h.next_notMem z hnext, h.next_lt z hnext, h.next_next z hnext, ?_⟩
      rw [paused_job, if_neg hne]
      exact h.next_curpri z hnext
    · refine ⟨h.queue.current_notMem z hc.1, hlt, h.queue.current_next z hc.1, ?_⟩
      rw [paused_job, if_pos rfl]
      exact h.queue.defpri z hlt
  have hx : x = n ∨ x = c := hxy.imp And.left And.left
  have hy : y = n ∨ y = c := (hxy.imp And.right And.right).symm
  have hyx : y ≠ x := by
    rcases hxy with ⟨rfl, rfl⟩ | ⟨rfl, rfl⟩
    · exact hne.symm
    · exact hne
  obtain ⟨k₁, hput, hqueue, hsame, hjob, -, hprocesses, hother⟩ := hpaused.putLast
    (hfree x hx).1 (hfree x hx).2.1 (hfree x hx).2.2.1 (hfree x hx).2.2.2 nofun
  change k₁.job = (k.paused c).job at hjob
  have hsame' : SameJobs k (k₁.resume y) := by
    have hfirst := k.sameJobs_paused c
    refine ((⟨hfirst.size, hfirst.jid, hfirst.pid, hfirst.defpri, rfl, rfl, rfl⟩ :
      SameJobs k { k.paused c with current := none, next := k.next }).trans hsame).trans
        (sameJobs_resume k₁ y)
  refine ⟨{ k₁ with current := (k.paused c).current }, putLast_setCurrent hput, {
    queue := ?_
    same := hsame'
    next := rfl
    members := ?_
    current_none := nofun
    done := ?_
    current_state := fun z hz hdone => (done_resume hdone).1 (Option.some.inj hz).symm
    outcome := ?_ }⟩
  · refine hqueue.resume (hsame.size ▸ (hfree y hy).2.1) (fun hmem => ?_) ?_
    · rcases List.mem_append.mp hmem with hmem | hmem
      · exact (hfree y hy).1 hmem
      · exact hyx (List.mem_singleton.mp hmem)
    · rw [hother y (hfree y hy).1]
      exact (hfree y hy).2.2.1
  · have hsome : (k₁.resume y).members (nodes ++ [x]) = nodes ++ ([x] ++ [y]) :=
      List.append_assoc _ _ _
    change ((k₁.resume y).members (nodes ++ [x])).Perm _
    rw [hsome, hnext, hactive, Option.toList_some, Option.toList_some, List.append_assoc]
    refine List.Perm.append_left _ ?_
    rcases hxy with ⟨rfl, rfl⟩ | ⟨rfl, rfl⟩
    · exact List.Perm.refl _
    · exact List.Perm.swap _ _ _
  · intro z hdone
    have hdone := (done_resume hdone).2
    change (k₁.job z).state = .done at hdone
    rw [hjob] at hdone
    exact done_paused hdone
  · refine Or.inr ⟨y, ?_, rfl, ?_⟩
    · rw [hnext, hactive]
      rcases hy with rfl | rfl
      · simp
      · simp
    · have hpid : (k₁.job y).pid = (k.job y).pid := by
        rw [hjob]
        exact (k.sameJobs_paused c).pid y
      change deliver k₁.processes (k₁.job y).pid sigCont = _
      rw [hpid, hprocesses, hactive]
      rfl

theorem Chosen.jobswitch (h : k.Chosen nodes) :
    ∃ k' nodes', k.jobswitch = some k' ∧
      Switched k k' (nodes ++ k.next.toList) nodes' := by
  cases hnext : k.next with
  | none =>
      refine ⟨k.removeDone, nodes, ?_, ?_⟩
      · rw [Scheduler.jobswitch, show k.removeDone.next = none from hnext]
      · rw [h.next_none hnext]
        exact {
          queue := h.next_none hnext ▸ h.queue.removeDone
          same := ⟨rfl, fun _ => rfl, fun _ => rfl, fun _ => rfl, rfl, rfl, rfl⟩
          next := hnext
          members := List.Perm.refl _
          current_none := fun hnone => ⟨rfl, hnone⟩
          done := fun _ hdone => hdone
          current_state := fun c hc => (mem_active.mp hc).2
          outcome := Or.inl ⟨rfl, rfl, rfl⟩ }
  | some n =>
      cases hactive : k.active with
      | none =>
          refine ⟨k.removeDone.resume n, nodes, ?_, hnext ▸ h.start hnext hactive⟩
          rw [Scheduler.jobswitch, show k.removeDone.next = some n from hnext,
            show k.removeDone.current = none from hactive]
      | some c =>
          obtain ⟨k₁, hput, hswitched⟩ := h.exchange (x := if k.removeDone.staysAhead c n
            then n else c) (y := if k.removeDone.staysAhead c n then c else n) hnext hactive
            (by split <;> simp)
          refine ⟨_, _, ?_, hnext ▸ hswitched⟩
          rw [Scheduler.jobswitch, show k.removeDone.next = some n from hnext,
            show k.removeDone.current = some c from hactive]
          exact Option.bind_eq_some_iff.mpr ⟨k₁, hput, rfl⟩

/-- After its command `schedule` goes on to the end, and leaves the jobs that were
there. -/
theorem Queue.schedule (h : k.Queue nodes) :
    ∃ k₁ k₂ k' nodes', k.updateall = some k₁ ∧ k₁.jobselect = some k₂ ∧
      k₂.active = k.active ∧ k₂.jobswitch = some k' ∧ Switched k k' nodes nodes' := by
  obtain ⟨k₁, hupdate, h₁, hsame₁, hstate₁, hcurrent₁, hprocesses₁⟩ := h.updateall
  obtain ⟨k₂, nodes₂, hselect, h₂, hperm, hsame₂, hjob₂, hcurrent₂, hprocesses₂⟩ :=
    h₁.jobselect
  obtain ⟨k', nodes', hswitch, h'⟩ := h₂.jobswitch
  have hsame := hsame₁.trans hsame₂
  have hstate : ∀ a, (k₂.job a).state = (k.job a).state := fun a => by
    rw [hjob₂, hstate₁]
  have hactive : k₂.active = k.active := by
    rw [active, Scheduler.removeDone, active, Scheduler.removeDone]
    simp only [hstate, hcurrent₂, hcurrent₁]
  have hprocesses : k₂.processes = k.processes := hprocesses₂.trans hprocesses₁
  refine ⟨k₁, k₂, k', nodes', hupdate, hselect, hactive, hswitch, {
    queue := h'.queue
    same := hsame.trans h'.same
    next := h'.next
    members := ?_
    current_none := fun hnone => ?_
    done := fun a hdone => hstate a ▸ h'.done a hdone
    current_state := h'.current_state
    outcome := ?_ }⟩
  · rw [← hactive]
    exact h'.members.trans (hperm.append_right _)
  · obtain ⟨hempty, hnone⟩ := h'.current_none hnone
    rw [hempty] at hperm
    exact ⟨hperm.nil_eq.symm, hactive ▸ hnone⟩
  · rcases h'.outcome with ⟨hempty, hcurrent, hsame⟩ | ⟨c, hmem, hcurrent, hchanged⟩
    · rw [hempty] at hperm
      exact Or.inl ⟨hperm.nil_eq.symm, hcurrent.trans hactive, hsame.trans hprocesses⟩
    · refine Or.inr ⟨c, ?_, hcurrent, ?_⟩
      · rw [← hactive]
        exact (hperm.append_right _).mem_iff.mp hmem
      · simp only [hchanged, hactive, hprocesses, hsame.pid]

/-! The commands. -/

/-- A new job stands at the end of the queue, and its process is stopped. -/
structure Enqueued (k k' : Scheduler) (pid : Nat) : Prop where
  size : k'.heap.size = k.heap.size + 1
  jobid : k'.jobid = k.jobid + 1
  job : ∀ a < k.heap.size, k'.job a = k.job a
  new_jid : (k'.job k.heap.size).jid = k.jobid + 1
  new_pid : (k'.job k.heap.size).pid = pid
  new_state : (k'.job k.heap.size).state = .ready
  current : k'.current = k.current
  processes : k'.processes = Function.update k.processes pid (some (.stopped false))
  dequeued : k'.dequeued = k.dequeued
  finished : k'.finished = k.finished

theorem Queue.doEnq (h : k.Queue nodes) {defpri : Int} (hdefpri : 0 ≤ defpri)
    (hjobid : k.jobid < 2 ^ 31 - 1) (pid : Nat) :
    ∃ k', k.doEnq defpri pid = some k' ∧ k'.Queue (nodes ++ [k.heap.size]) ∧
      Enqueued k k' pid := by
  obtain ⟨j, hj⟩ : ∃ j : JobInfo, j =
    { jid := k.jobid + 1, pid := pid, defpri := defpri, curpri := defpri, waitTime := 0,
      runTime := 0, state := .ready } := ⟨_, rfl⟩
  obtain ⟨k₁, hk₁⟩ : ∃ k₁, k₁ =
    { k with heap := k.heap.alloc j, jobid := k.jobid + 1 } := ⟨_, rfl⟩
  have hold : ∀ a < k.heap.size, k₁.job a = k.job a := fun a ha => by
    rw [hk₁]
    exact NodeHeap.alloc_data_of_lt ha
  have hnew : k₁.job k.heap.size = j := by
    rw [hk₁]
    exact NodeHeap.alloc_data_self k.heap j
  have hnext : ∀ a, a ≠ k.heap.size → k₁.heap.next a = k.heap.next a := fun a ha => by
    rw [hk₁]
    exact Function.update_of_ne ha _ _
  have hnewNext : k₁.heap.next k.heap.size = none := by
    rw [hk₁]
    exact NodeHeap.alloc_next_self k.heap j
  have hsize : k₁.heap.size = k.heap.size + 1 := by rw [hk₁]; rfl
  have hcurrent : k₁.current = k.current := by rw [hk₁]
  have h₁ : k₁.Queue nodes := by
    refine ⟨?_, fun a ha => ?_, fun a ha => ?_, fun a ha => ?_, fun a ha => ?_,
      fun c hc => ?_, fun c hc => ?_, fun c hc => ?_⟩
    · have hhead : k₁.head = k.head := by rw [hk₁]
      rw [hhead]
      exact h.list.congr fun a ha => hnext a (Nat.ne_of_lt (h.lt_size a ha))
    · rw [hsize]
      exact Nat.lt_succ_of_lt (h.lt_size a ha)
    · rw [hold a (h.lt_size a ha)]
      exact h.curpri a ha
    · rw [hsize] at ha
      rcases Nat.lt_succ_iff_lt_or_eq.mp ha with ha | rfl
      · rw [hold a ha]
        exact h.defpri a ha
      · rw [hnew, hj]
        exact hdefpri
    · rw [hsize] at ha
      rw [hnext a (Nat.ne_of_gt ha)]
      exact h.fresh a (Nat.le_of_succ_le ha)
    · rw [hsize]
      exact Nat.lt_succ_of_lt (h.current_lt c (hcurrent ▸ hc))
    · exact h.current_notMem c (hcurrent ▸ hc)
    · have hlt := h.current_lt c (hcurrent ▸ hc)
      rw [hnext c (Nat.ne_of_lt hlt)]
      exact h.current_next c (hcurrent ▸ hc)
  obtain ⟨k₂, hput, h₂, hsame, hjob, hcurrent₂, hprocesses, -⟩ := h₁.putLast
    (fun hmem => absurd (h.lt_size _ hmem) (Nat.lt_irrefl _)) (by omega) hnewNext
    (by rw [hnew, hj]; exact hdefpri)
    (fun c hc => Nat.ne_of_lt (h.current_lt c (hcurrent ▸ hc)))
  refine ⟨{ k₂ with processes := Function.update k₂.processes pid (some (.stopped false)) },
    ?_, h₂.congr rfl rfl rfl, {
    size := hsame.size.trans hsize
    jobid := hsame.jobid.trans (by rw [hk₁])
    job := fun a ha => (congrFun hjob a).trans (hold a ha)
    new_jid := by
      change (k₂.job k.heap.size).jid = _
      rw [hjob, hnew, hj]
    new_pid := by
      change (k₂.job k.heap.size).pid = _
      rw [hjob, hnew, hj]
    new_state := by
      change (k₂.job k.heap.size).state = _
      rw [hjob, hnew, hj]
    current := hcurrent₂.trans hcurrent
    processes := by
      have hsame₁ : k₁.processes = k.processes := by rw [hk₁]
      rw [← hsame₁, ← hprocesses]
    dequeued := hsame.dequeued.trans (by rw [hk₁])
    finished := hsame.finished.trans (by rw [hk₁]) }⟩
  rw [Scheduler.doEnq, allocjid, if_pos hjobid]
  simp only [Option.bind_eq_bind, Option.bind_some, ← hj, ← hk₁, hput]

/-- What a command makes of the jobs that are there: it takes out at most one, with
the number it names. -/
structure Dequeued (k k' : Scheduler) (deqid : Int) (nodes nodes' : List Nat) : Prop where
  queue : k'.Queue nodes'
  size : k'.heap.size = k.heap.size
  job : k'.job = k.job
  jobid : k'.jobid = k.jobid
  dequeued : k'.dequeued = if 1 ≤ deqid ∧ deqid ≤ k.jobid then deqid :: k.dequeued
    else k.dequeued
  finished : k'.finished = k.finished
  outcome :
    (∃ c ∈ k.current, (k.job c).jid = deqid ∧ k'.current = none ∧ nodes' = nodes ∧
      k'.processes = deliver k.processes sigTerm (k.job c).pid) ∨
    (∀ c ∈ k.current, (k.job c).jid ≠ deqid) ∧ k'.current = k.current ∧
      k'.processes = k.processes ∧
      (nodes' = nodes ∧ (∀ a ∈ nodes, (k.job a).jid ≠ deqid) ∨
        ∃ before a after, nodes = before ++ a :: after ∧ nodes' = before ++ after ∧
          (k.job a).jid = deqid)

theorem Queue.deqWaiting (h : k.Queue nodes) (deqid : Int) :
    ∃ k' nodes', k.deqWaiting deqid = some k' ∧ k'.Queue nodes' ∧ SameJobs k k' ∧
      k'.job = k.job ∧ k'.current = k.current ∧ k'.processes = k.processes ∧
      (nodes' = nodes ∧ (∀ a ∈ nodes, (k.job a).jid ≠ deqid) ∨
        ∃ before a after, nodes = before ++ a :: after ∧ nodes' = before ++ after ∧
          (k.job a).jid = deqid) := by
  have hprev : nodes ≠ [] → k.head = NodeHeap.trailing k.head [] := fun _ => rfl
  rcases NodeHeap.findPair_spec (fun p => decide ((k.job p).jid = deqid))
    (n := k.heap.size + 1) [] nofun hprev h.list h.length_lt with ⟨hfind, hnone⟩ | ⟨before, a, after, hsplit, -, hstop, hfind⟩
  · refine ⟨k, nodes, ?_, h, SameJobs.refl k, rfl, rfl, rfl,
      Or.inl ⟨rfl, fun a ha => of_decide_eq_false (hnone a ha)⟩⟩
    rw [Scheduler.deqWaiting, hfind]
    rfl
  · have hsplit : nodes = before ++ a :: after := hsplit
    rw [hsplit] at h
    obtain ⟨heap, head, hunlink, hqueue, -, hdata, hsize⟩ := h.unlink
    have hjob : ∀ b, heap.data b = k.job b := fun b => congrFun hdata b
    refine ⟨{ k with heap := heap, head := head }, before ++ after, ?_, hqueue k.next,
      ⟨hsize, fun b => by rw [job, hjob], fun b => by rw [job, hjob],
        fun b => by rw [job, hjob], rfl, rfl, rfl⟩, funext hjob, rfl, rfl,
      Or.inr ⟨before, a, after, hsplit, rfl, of_decide_eq_true hstop⟩⟩
    rw [Scheduler.deqWaiting, hfind]
    simp only [Option.bind_eq_bind, Option.bind_some, hunlink]

theorem Queue.doDeq (h : k.Queue nodes) (deqid : Int) :
    ∃ k' nodes', k.doDeq deqid = some k' ∧ Dequeued k k' deqid nodes nodes' := by
  obtain ⟨k₁, hk₁⟩ : ∃ k₁, k₁ = (if 1 ≤ deqid ∧ deqid ≤ k.jobid then
    { k with dequeued := deqid :: k.dequeued } else k) := ⟨_, rfl⟩
  obtain ⟨hheap, hhead, hcurrent, hprocesses, hjobid, hfinished, hdequeued⟩ :
      k₁.heap = k.heap ∧ k₁.head = k.head ∧ k₁.current = k.current ∧
        k₁.processes = k.processes ∧ k₁.jobid = k.jobid ∧ k₁.finished = k.finished ∧
          k₁.dequeued = if 1 ≤ deqid ∧ deqid ≤ k.jobid then deqid :: k.dequeued
            else k.dequeued := by
    rw [hk₁]
    split <;> exact ⟨rfl, rfl, rfl, rfl, rfl, rfl, rfl⟩
  have hjob : k₁.job = k.job := by
    funext a
    rw [job, job, hheap]
  have h₁ : k₁.Queue nodes := h.congr hheap hhead hcurrent
  have hdeq : k.doDeq deqid =
      (k₁.current.filter fun c => (k₁.job c).jid = deqid).elim (k₁.deqWaiting deqid)
        fun c => some { k₁.kill sigTerm (k₁.job c).pid with current := none } := by
    simp only [Scheduler.doDeq, ← hk₁]
    cases k₁.current.filter fun c => (k₁.job c).jid = deqid <;> rfl
  cases hnamed : k₁.current.filter fun c => (k₁.job c).jid = deqid with
  | some c =>
      have hc := Option.mem_filter_iff.mp hnamed
      rw [decide_eq_true_iff, hcurrent, hjob] at hc
      refine ⟨{ k₁.kill sigTerm (k₁.job c).pid with current := none }, nodes, ?_, {
        queue := (h₁.setCurrent none (fun _ h => by cases h) k₁.next).congr rfl rfl rfl
        size := congrArg NodeHeap.size hheap
        job := hjob
        jobid := hjobid
        dequeued := hdequeued
        finished := hfinished
        outcome := Or.inl ⟨c, hc.1, hc.2, rfl, rfl, ?_⟩ }⟩
      · rw [hdeq, hnamed, Option.elim_some]
      · change deliver k₁.processes sigTerm (k₁.job c).pid = _
        rw [hprocesses, hjob]
  | none =>
      obtain ⟨k', nodes', hrun, hqueue, hsame, hjob', hcurrent', hprocesses', hout⟩ :=
        h₁.deqWaiting deqid
      refine ⟨k', nodes', ?_, {
        queue := hqueue
        size := hsame.size.trans (congrArg NodeHeap.size hheap)
        job := hjob'.trans hjob
        jobid := hsame.jobid.trans hjobid
        dequeued := hsame.dequeued.trans hdequeued
        finished := hsame.finished.trans hfinished
        outcome := Or.inr ⟨fun c hc heq => ?_, hcurrent'.trans hcurrent,
          hprocesses'.trans hprocesses, ?_⟩ }⟩
      · rw [hdeq, hnamed, Option.elim_none, hrun]
      · have hmem : c ∈ k₁.current.filter fun c => (k₁.job c).jid = deqid := by
          rw [Option.mem_filter_iff, decide_eq_true_iff, hcurrent, hjob]
          exact ⟨hc, heq⟩
        rw [hnamed] at hmem
        cases hmem
      · rw [hjob] at hout
        exact hout

end Scheduler

end PintosLabs
