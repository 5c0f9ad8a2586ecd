import FiberVm.Proofs.Machine.Orderly

/-!
# Timers

Timers are kept by deadline and, for equal deadlines, in the order in which they were armed. A poll takes off those
that are due and queues their fibers in this order. A scheduling decision may poll more than once: before it looks for
somebody to go on, and again after every sleep if nobody could.
-/

set_option autoImplicit false

namespace FiberVm

/-- `l` has the timers that are armed, by deadline and, for equal deadlines, in the order given. -/
structure ByDeadline (armed l : List Timer) : Prop where
  sorted : l.Pairwise fun t u => t.deadline ≤ u.deadline
  equal : ∀ d, l.filter (fun t => t.deadline = d) = armed.filter fun t => t.deadline = d

namespace ByDeadline

variable {armed l : List Timer}

theorem nil : ByDeadline [] [] := ⟨.nil, fun _ => rfl⟩

theorem filter (order : ByDeadline armed l) (p : Timer → Bool) : ByDeadline (armed.filter p) (l.filter p) := by
  refine ⟨order.sorted.filter p, fun d => ?_⟩
  rw [List.filter_comm, order.equal, List.filter_comm]

theorem perm (order : ByDeadline armed l) : l.Perm armed := by
  refine List.perm_iff_count.2 fun t => ?_
  have among : ∀ l : List Timer, (l.filter fun u => u.deadline = t.deadline).count t = l.count t := fun l =>
    List.count_filter (decide_eq_true rfl)
  rw [← among, order.equal, among]

theorem arm (order : ByDeadline armed l) (t : Timer) : ByDeadline (armed ++ [t]) (Scheduler.arm t l) := by
  obtain ⟨sorted, equal⟩ := order
  suffices inserted : (Scheduler.arm t l).Pairwise (fun t u => t.deadline ≤ u.deadline) ∧
      ∀ d, (Scheduler.arm t l).filter (fun u => u.deadline = d) =
        l.filter (fun u => u.deadline = d) ++ [t].filter fun u => u.deadline = d by
    refine ⟨inserted.1, fun d => ?_⟩
    rw [inserted.2, equal, List.filter_append]
  clear equal
  induction l with
  | nil => exact ⟨List.pairwise_singleton _ t, fun d => rfl⟩
  | cons u l ih =>
    obtain ⟨first, rest⟩ := List.pairwise_cons.1 sorted
    obtain ⟨sorted', equal'⟩ := ih rest
    rw [Scheduler.arm]
    split
    · next before =>
      have all : ∀ x ∈ u :: l, t.deadline < x.deadline :=
        List.forall_mem_cons.2 ⟨before, fun x mem => Int.lt_of_lt_of_le before (first x mem)⟩
      refine ⟨List.pairwise_cons.2 ⟨fun x mem => Int.le_of_lt (all x mem), sorted⟩, fun d => ?_⟩
      by_cases own : t.deadline = d
      · have none : (u :: l).filter (fun x => x.deadline = d) = [] := by
          refine List.filter_eq_nil_iff.2 fun x mem => ?_
          have := all x mem
          simp only [decide_eq_true_eq]
          omega
        rw [none, List.filter_cons_of_pos (by simpa using own), none]
        simp [own]
      · rw [List.filter_cons_of_neg (by simpa using own)]
        simp [own]
    · next behind =>
      refine ⟨List.pairwise_cons.2 ⟨fun x mem => ?_, sorted'⟩, fun d => ?_⟩
      · rcases List.mem_cons.1 ((Scheduler.perm_arm t l).mem_iff.1 mem) with rfl | mem
        · exact Int.not_lt.1 behind
        · exact first x mem
      · rw [List.filter_cons, List.filter_cons, equal']
        split <;> rfl

end ByDeadline

theorem takeWhile_due {l : List Timer} (sorted : l.Pairwise fun t u => t.deadline ≤ u.deadline) (now : Int) :
    l.takeWhile (fun t => t.deadline ≤ now) = l.filter (fun t => t.deadline ≤ now) ∧
      l.dropWhile (fun t => t.deadline ≤ now) = l.filter fun t => now < t.deadline := by
  induction l with
  | nil => exact ⟨rfl, rfl⟩
  | cons u l ih =>
    obtain ⟨first, rest⟩ := List.pairwise_cons.1 sorted
    obtain ⟨due, later⟩ := ih rest
    by_cases is : u.deadline ≤ now
    · simp [is, due, later]
    · have all : ∀ x ∈ u :: l, now < x.deadline := by
        refine List.forall_mem_cons.2 ⟨by omega, fun x mem => ?_⟩
        have := first x mem
        omega
      constructor
      · rw [List.takeWhile_cons_of_neg (by simpa using is)]
        refine (List.filter_eq_nil_iff.2 fun x mem => ?_).symm
        have := all x mem
        simp only [decide_eq_true_eq]
        omega
      · rw [List.dropWhile_cons_of_neg (by simpa using is)]
        exact (List.filter_eq_self.2 fun x mem => by simpa using all x mem).symm

/-- What matters to sleepers: somebody goes to sleep, or the clock is polled. -/
inductive Beat
  | sleeps (t : Timer)
  | polls (s : Scheduler)

/-- Those of `armed` who are to sleep on after a poll. -/
def Scheduler.leaves (s : Scheduler) (armed : List Timer) : List Timer :=
  armed.filter fun t => s.look.clock.now < t.deadline

/-- What a poll does with the timers that are armed, in the order of their sleep. -/
structure Scheduler.Rouses (s : Scheduler) (armed : List Timer) : Prop where
  once : (armed.map Timer.fiber).Nodup
  /-- Nobody has been woken before. -/
  asleep : ∀ t ∈ armed, s.HasState t.fiber .blocked
  /-- Those whose time has come are queued, ordered by deadline. -/
  queue : ∃ due, ByDeadline (armed.filter fun t => t.deadline ≤ s.look.clock.now) due ∧
    s.poll.ready = s.ready ++ due.map Timer.fiber
  awake : ∀ t ∈ armed, t.deadline ≤ s.look.clock.now → s.poll.HasState t.fiber .ready
  /-- All others sleep on. -/
  later : ByDeadline (s.leaves armed) s.poll.timers
  still : ∀ t ∈ s.leaves armed, s.poll.HasState t.fiber .blocked

namespace Beat

/-- Who is asleep afterwards, in the order of their sleep. -/
def onto (armed : List Timer) : Beat → List Timer
  | sleeps t => armed ++ [t]
  | polls s => s.leaves armed

/-- Every poll wakes those whose time has come. Nobody else has been woken. -/
def Timely (armed : List Timer) : List Beat → Prop
  | [] => True
  | b :: beats => (∀ s, b = polls s → s.Rouses armed) ∧ Timely (b.onto armed) beats

/-- Who is asleep in the end, in the order of their sleep. -/
def asleep (armed : List Timer) (beats : List Beat) : List Timer := beats.foldl onto armed

theorem timely_append {armed : List Timer} {beats beats' : List Beat} :
    Timely armed (beats ++ beats') ↔ Timely armed beats ∧ Timely (asleep armed beats) beats' := by
  induction beats generalizing armed with
  | nil => simp [Timely, asleep]
  | cons b beats ih => exact (and_congr_right fun _ => ih).trans and_assoc.symm

theorem Timely.rouses {armed : List Timer} {before after : List Beat} {s : Scheduler}
    (timely : Timely armed (before ++ polls s :: after)) : s.Rouses (asleep armed before) :=
  (timely_append.1 timely).2.1 s rfl

end Beat

namespace Scheduler

/-- The table, the queue and the places agree, and the timers are those that are armed. -/
structure Slumbers (nodes : Addr → List Nat) (armed : List Timer) (s : Scheduler) : Prop extends InOrder nodes s where
  kept : ByDeadline armed s.timers

section

variable {s s' : Scheduler} {W : Addr → List Nat} {armed : List Timer} {canceled : Bool}

theorem Slumbers.undisturbed (slumbers : s.Slumbers W armed) (u : s.Undisturbed s') : s'.Slumbers W armed :=
  ⟨slumbers.toInOrder.undisturbed u, u.timers ▸ slumbers.kept⟩

theorem Slumbers.preempt (slumbers : s.Slumbers W armed) (running : s.current.state = .running) :
    s.preempt.Slumbers W armed := ⟨slumbers.toInOrder.preempt running, slumbers.kept⟩

theorem Slumbers.once (slumbers : s.Slumbers W armed) : (armed.map Timer.fiber).Nodup :=
  ((slumbers.kept.perm.map Timer.fiber).nodup_iff).1 (slumbers.parked.once none)

theorem Slumbers.blocked (slumbers : s.Slumbers W armed) {t : Timer} (mem : t ∈ armed) :
    s.HasState t.fiber .blocked :=
  slumbers.parked.blocked none t.fiber (List.mem_map_of_mem (slumbers.kept.perm.mem_iff.2 mem))

theorem Slumbers.wakeDue (slumbers : s.Slumbers W armed) :
    s.wakeDue.ready = s.ready ++ (s.timers.filter fun t => t.deadline ≤ s.clock.now).map Timer.fiber ∧
      ∀ t ∈ armed, (t.deadline ≤ s.clock.now → s.wakeDue.HasState t.fiber .ready) ∧
        (s.clock.now < t.deadline → s.wakeDue.HasState t.fiber .blocked) := by
  obtain ⟨due, later⟩ := takeWhile_due slumbers.kept.sorted s.clock.now
  have whole := slumbers.parked.once none
  rw [Scheduler.places] at whole
  have cons := (slumbers.toOrderly.setTimers (s.timers.dropWhile fun t => t.deadline ≤ s.clock.now)).cons
  have blocked : ∀ t ∈ s.timers, s.HasState t.fiber .blocked := fun t mem =>
    slumbers.parked.blocked none t.fiber (List.mem_map_of_mem mem)
  unfold Scheduler.wakeDue
  rw [due]
  refine ⟨cons.foldl_wake_queue ((List.filter_sublist.map _).nodup whole) fun id mem => ?_, fun t mem => ?_⟩
  · obtain ⟨t, inside, rfl⟩ := List.mem_map.1 mem
    exact blocked t (List.mem_of_mem_filter inside)
  have mem := slumbers.kept.perm.mem_iff.2 mem
  refine ⟨fun now => cons.foldl_wake_ready (blocked t mem) ?_, fun now => ?_⟩
  · exact List.mem_map_of_mem (List.mem_filter.2 ⟨mem, by simpa using now⟩)
  · refine (hasState_foldl_wake _ Timer.fiber _ fun among => ?_).2 (blocked t mem)
    obtain ⟨u, inside, same⟩ := List.mem_map.1 among
    obtain ⟨inside, past⟩ := List.mem_filter.1 inside
    obtain rfl := List.inj_on_of_nodup_map whole inside mem same
    exact Int.not_le.2 now (by simpa using past)

/-- If nobody sleeps there is nobody to wake. -/
theorem Slumbers.poll_wakes (slumbers : s.Slumbers W armed) :
    s.poll.ready = s.ready ++ (s.timers.filter fun t => t.deadline ≤ s.look.clock.now).map Timer.fiber ∧
      ∀ t ∈ armed, (t.deadline ≤ s.look.clock.now → s.poll.HasState t.fiber .ready) ∧
        (s.look.clock.now < t.deadline → s.poll.HasState t.fiber .blocked) := by
  cases timers : s.timers with
  | nil =>
    have none : armed = [] := (timers ▸ slumbers.kept.perm : [].Perm armed).nil_eq.symm
    rw [poll_nil timers, none]
    exact ⟨(List.append_nil _).symm, List.forall_mem_nil _⟩
  | cons u rest =>
    have looked : s.look.Slumbers W armed := slumbers.undisturbed (.clock s _)
    rw [poll_cons timers, ← timers]
    exact looked.wakeDue

theorem Slumbers.poll (slumbers : s.Slumbers W armed) : s.Rouses armed ∧ s.poll.Slumbers W (s.leaves armed) := by
  have later : ByDeadline (s.leaves armed) s.poll.timers := by
    have timers := s.poll_timers
    rw [(takeWhile_due slumbers.kept.sorted s.look.clock.now).2] at timers
    exact timers ▸ slumbers.kept.filter _
  obtain ⟨queue, wakes⟩ := slumbers.poll_wakes
  refine ⟨⟨slumbers.once, fun t => slumbers.blocked, ⟨_, slumbers.kept.filter _, queue⟩, fun t mem => (wakes t mem).1,
    later, fun t mem => ?_⟩, slumbers.toInOrder.poll, later⟩
  obtain ⟨mem, ahead⟩ := List.mem_filter.1 mem
  exact (wakes t mem).2 (of_decide_eq_true ahead)

set_option linter.unusedVariables false in
/-- The schedulers whose timers are polled while nobody is ready. -/
def awaitPolls (canceled : Bool) (s : Scheduler) : List Scheduler :=
  if s.ready.isEmpty then
    match h : s.timers with
    | [] => []
    | t :: rest =>
      if canceled then []
      else s.sleepUntil t.deadline :: awaitPolls canceled (s.sleepUntil t.deadline).poll
  else []
termination_by (s.timers.length, s.lag)
decreasing_by exact sleepUntil_poll_lt s t rest h

/-- The polls of the search for the next fiber. -/
def nextPolls (canceled : Bool) (s : Scheduler) : List Scheduler := s :: awaitPolls canceled s.poll

/-- The polls of a scheduling decision. -/
def polls (canceled : Bool) (s : Scheduler) : List Scheduler :=
  if s.current.state = .running then
    if 0 < s.charge.slice then []
    else if s.charge.poll.ready.isEmpty then [s.charge]
    else s.charge :: nextPolls canceled s.charge.poll.preempt
  else nextPolls canceled s

theorem Slumbers.awaitReady (canceled : Bool) (slumbers : s.Slumbers W armed) :
    Beat.Timely armed ((awaitPolls canceled s).map .polls) ∧ ∀ s', awaitReady canceled s = .ok () s' →
      s'.Slumbers W (Beat.asleep armed ((awaitPolls canceled s).map .polls)) := by
  fun_induction Scheduler.awaitReady canceled s generalizing armed with
  | case1 s empty none =>
    rw [awaitPolls, if_pos empty]
    split
    · refine ⟨trivial, fun s' run => ?_⟩
      cases run
    · next some => cases none.symm.trans some
  | case2 s empty t rest some stop =>
    rw [awaitPolls, if_pos empty]
    split
    · next none => cases some.symm.trans none
    · rw [if_pos stop]
      refine ⟨trivial, fun s' run => ?_⟩
      cases run
  | case3 s empty t rest some go ih =>
    rw [awaitPolls, if_pos empty]
    split
    · next none => cases some.symm.trans none
    · next u rest' some' =>
      obtain ⟨rfl, -⟩ := List.cons.inj (some.symm.trans some')
      rw [if_neg go, List.map_cons]
      have slept : (s.sleepUntil t.deadline).Slumbers W armed := slumbers.undisturbed (.clock s _)
      obtain ⟨rouses, after⟩ := slept.poll
      obtain ⟨timely, ends⟩ := ih after
      exact ⟨⟨fun _ is => Beat.polls.inj is ▸ rouses, timely⟩, ends⟩
  | case4 s ready =>
    rw [awaitPolls, if_neg ready]
    refine ⟨trivial, fun s' run => ?_⟩
    cases run
    exact slumbers

theorem Slumbers.next (canceled : Bool) (slumbers : s.Slumbers W armed) (idle : s.current.state ≠ .running) :
    Beat.Timely armed ((nextPolls canceled s).map .polls) ∧ ∀ s', next canceled s = .ok () s' →
      s'.Slumbers W (Beat.asleep armed ((nextPolls canceled s).map .polls)) := by
  obtain ⟨rouses, after⟩ := slumbers.poll
  obtain ⟨timely, ends⟩ := after.awaitReady canceled
  refine ⟨⟨fun _ is => Beat.polls.inj is ▸ rouses, timely⟩, fun s' run => ?_⟩
  refine ⟨((InOrder.kept W).next slumbers.toInOrder idle run).1, ?_⟩
  unfold Scheduler.next at run
  cases waited : Scheduler.awaitReady canceled s.poll with
  | error c s₁ =>
    rw [waited] at run
    cases run
  | ok u s₁ =>
    rw [waited] at run
    cases run
    obtain ⟨order, -, some⟩ := (InOrder.kept W).awaitReady after.toInOrder (poll_idle idle) waited
    obtain ⟨id, rest, ready⟩ := List.exists_cons_of_ne_nil some
    obtain ⟨-, timers, -⟩ := order.cons.resume_cases ready
    rw [timers]
    exact (ends s₁ waited).kept

theorem Slumbers.reschedule (canceled : Bool) (slumbers : s.Slumbers W armed) :
    Beat.Timely armed ((polls canceled s).map .polls) ∧ ∀ s', reschedule canceled s = .ok () s' →
      s'.Slumbers W (Beat.asleep armed ((polls canceled s).map .polls)) := by
  by_cases running : s.current.state = .running
  · have charged : s.charge.Slumbers W armed := slumbers.undisturbed ⟨rfl, rfl, rfl, rfl, rfl, rfl⟩
    obtain ⟨rouses, after⟩ := charged.poll
    rw [polls, if_pos running, reschedule_of_running running]
    split
    · refine ⟨trivial, fun s' run => ?_⟩
      cases run
      exact charged
    split
    · refine ⟨⟨fun _ is => Beat.polls.inj is ▸ rouses, trivial⟩, fun s' run => ?_⟩
      cases run
      exact after.undisturbed ⟨rfl, rfl, rfl, rfl, rfl, rfl⟩
    · obtain ⟨timely, ends⟩ := (after.preempt (poll_running running)).next canceled nofun
      exact ⟨⟨fun _ is => Beat.polls.inj is ▸ rouses, timely⟩, ends⟩
  · rw [polls, if_neg running, reschedule_of_blocked running]
    exact slumbers.next canceled running

end

end Scheduler

end FiberVm
