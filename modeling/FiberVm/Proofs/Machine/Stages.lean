import Mathlib.Data.List.Chain
import FiberVm.Proofs.Machine.Fibers
import FiberVm.Proofs.Machine.Timers

/-!
# Stages of a scheduling decision

Fibers become ready one after the other, and one after the other they are resumed. So the schedulers are listed that
a decision goes through: one for each sleeper whose time has come, one when the current fiber gives way, and the one
in which the next fiber has been resumed. What has happened from one stage to the next is told from the states of the
fibers, and the queue is not asked. Whoever becomes ready is queued behind all others, and whoever is resumed was the
first. So the queue holds those who have become ready and have not been resumed since, in order.
-/

set_option autoImplicit false

namespace FiberVm

namespace Scheduler

/-- What the queue is about. -/
inductive Event
  | readied (id : Nat)
  | resumed (id : Nat)
deriving DecidableEq

/-- Those who have become ready, in order. -/
def Event.readied? : Event → Option Nat
  | readied id => some id
  | resumed _ => none

/-- Those who have been resumed, in order. -/
def Event.resumed? : Event → Option Nat
  | readied _ => none
  | resumed id => some id

def idsIn (s : Scheduler) (state : FiberState) : List Nat := (s.live.filter fun f => f.state = state).map Fiber.id

/-- The fibers that are in the state given and have not been in it before. -/
def comers (state : FiberState) (s s' : Scheduler) : List Nat :=
  (s'.idsIn state).filter fun id => id ∉ s.idsIn state

/-- What has happened between two schedulers, told from the states of the fibers. -/
def eventsTo (s s' : Scheduler) : List Event :=
  (comers .ready s s').map .readied ++ (comers .running s s').map .resumed

/-- What has happened on the way through some stages. -/
def eventsThrough (s : Scheduler) : List Scheduler → List Event
  | [] => []
  | s' :: stages => s.eventsTo s' ++ s'.eventsThrough stages

/-- The stages of waking some fibers one after the other. -/
def wakings (s : Scheduler) : List Nat → List Scheduler
  | [] => []
  | id :: ids => s.wake id :: (s.wake id).wakings ids

/-- The stages of a poll. -/
def pollings (s : Scheduler) : List Scheduler :=
  wakings { s.look with timers := s.timers.dropWhile fun t => t.deadline ≤ s.look.clock.now }
    ((s.timers.takeWhile fun t => t.deadline ≤ s.look.clock.now).map Timer.fiber)

/-- The stages of the search for the next fiber, up to the one in which it has been found. -/
def searchStages (canceled : Bool) (s : Scheduler) : List Scheduler := (nextPolls canceled s).flatMap pollings

/-- The stages of a scheduling decision, up to the one in which it has been made. -/
def decisionStages (canceled : Bool) (s : Scheduler) : List Scheduler :=
  if s.current.state = .running then
    if 0 < s.charge.slice then []
    else if s.charge.poll.ready.isEmpty then s.charge.pollings
    else s.charge.pollings ++ s.charge.poll.preempt :: s.charge.poll.preempt.searchStages canceled
  else s.searchStages canceled

/-- The fiber becomes ready, and nobody else changes. -/
structure Readies (id : Nat) (s s' : Scheduler) : Prop where
  before : ¬ s.HasState id .ready
  after : s'.HasState id .ready
  others : ∀ k, k ≠ id → ∀ state, s'.HasState k state ↔ s.HasState k state

/-- The fiber is resumed, and nobody else changes who has not ended. -/
structure Picks (id : Nat) (s s' : Scheduler) : Prop where
  before : s.HasState id .ready
  after : s'.current.id = id ∧ s'.current.state = .running
  others : ∀ k, k ≠ id → ∀ state, state ≠ .terminated → (s'.HasState k state ↔ s.HasState k state)

/-- Nobody becomes ready, and nobody is resumed. -/
structure Idles (s s' : Scheduler) : Prop where
  ready : ∀ k, s'.HasState k .ready ↔ s.HasState k .ready
  running : ∀ k, s'.HasState k .running → s.HasState k .running

/-- From one stage to the next at most one fiber becomes ready, or one is resumed. Whoever becomes ready is queued
behind all others, and whoever is resumed was the first in the queue. -/
inductive Advances (s s' : Scheduler) : Prop
  | idles : Idles s s' → s'.ready = s.ready → Advances s s'
  | readies {id : Nat} : Readies id s s' → s'.ready = s.ready ++ [id] → Advances s s'
  | picks {id : Nat} : Picks id s s' → s.ready = id :: s'.ready → Advances s s'

/-- Everyone is in the same state, and the queue is the same. -/
structure Still (s s' : Scheduler) : Prop where
  states : ∀ k state, s'.HasState k state ↔ s.HasState k state
  ready : s'.ready = s.ready

section Comers

variable {s s₀ s₁ s' : Scheduler} {id k : Nat} {state : FiberState}

theorem mem_idsIn (alive : state ≠ .terminated) : id ∈ s.idsIn state ↔ s.HasState id state := by
  simp only [idsIn, List.mem_map, List.mem_filter, decide_eq_true_eq, hasState_iff alive, and_right_comm, and_assoc]

theorem Consistent.nodup_idsIn (cons : s.Consistent) (state : FiberState) : (s.idsIn state).Nodup :=
  cons.nodup_live.sublist (List.filter_sublist.map _)

theorem mem_comers (alive : state ≠ .terminated) :
    id ∈ comers state s s' ↔ s'.HasState id state ∧ ¬ s.HasState id state := by
  simp only [comers, List.mem_filter, decide_eq_true_eq, mem_idsIn alive]

theorem comers_eq_nil (alive : state ≠ .terminated) (old : ∀ k, s'.HasState k state → s.HasState k state) :
    comers state s s' = [] := by
  refine List.eq_nil_iff_forall_not_mem.2 fun k mem => ?_
  obtain ⟨after, before⟩ := (mem_comers alive).1 mem
  exact before (old k after)

theorem comers_eq_singleton (cons : s'.Consistent) (alive : state ≠ .terminated) (before : ¬ s.HasState id state)
    (after : s'.HasState id state) (old : ∀ k, k ≠ id → s'.HasState k state → s.HasState k state) :
    comers state s s' = [id] := by
  have once : (comers state s s').Nodup := (cons.nodup_idsIn state).sublist List.filter_sublist
  refine List.perm_singleton.1 ((List.perm_ext_iff_of_nodup once (List.nodup_singleton id)).2 fun k => ?_)
  rw [mem_comers alive, List.mem_singleton]
  constructor
  · rintro ⟨here, there⟩
    by_contra ne
    exact there (old k ne here)
  · rintro rfl
    exact ⟨after, before⟩

theorem Idles.eventsTo (idles : Idles s s') : s.eventsTo s' = [] := by
  have ready : comers .ready s s' = [] := comers_eq_nil nofun fun k => (idles.ready k).1
  have resumed : comers .running s s' = [] := comers_eq_nil nofun idles.running
  rw [Scheduler.eventsTo, ready, resumed]
  rfl

theorem Readies.eventsTo (readies : Readies id s s') (cons : s'.Consistent) : s.eventsTo s' = [.readied id] := by
  have resumed : comers .running s s' = [] := by
    refine comers_eq_nil nofun fun k is => ?_
    by_cases same : k = id
    · subst same
      cases cons.hasState_unique is readies.after
    · exact (readies.others k same _).1 is
  have ready : comers .ready s s' = [id] :=
    comers_eq_singleton cons nofun readies.before readies.after fun k ne => (readies.others k ne _).1
  rw [Scheduler.eventsTo, resumed, ready]
  rfl

theorem Picks.eventsTo (picks : Picks id s s') (cons : s.Consistent) (cons' : s'.Consistent) :
    s.eventsTo s' = [.resumed id] := by
  have after : s'.HasState id .running := .inl picks.after
  have ready : comers .ready s s' = [] := by
    refine comers_eq_nil nofun fun k is => ?_
    by_cases same : k = id
    · subst same
      cases cons'.hasState_unique is after
    · exact (picks.others k same .ready nofun).1 is
  have before : ¬ s.HasState id .running := fun is => by cases cons.hasState_unique is picks.before
  have resumed : comers .running s s' = [id] :=
    comers_eq_singleton cons' nofun before after fun k ne => (picks.others k ne .running nofun).1
  rw [Scheduler.eventsTo, ready, resumed]
  rfl

theorem Advances.queue (advances : Advances s s') (cons : s.Consistent) (cons' : s'.Consistent) :
    s.ready ++ (s.eventsTo s').filterMap Event.readied? = (s.eventsTo s').filterMap Event.resumed? ++ s'.ready := by
  cases advances with
  | idles idles ready =>
    rw [idles.eventsTo, ready]
    exact List.append_nil _
  | readies readies ready =>
    rw [readies.eventsTo cons', ready]
    rfl
  | picks picks ready =>
    rw [picks.eventsTo cons cons', ready]
    exact List.append_nil _

namespace Still

theorem refl (s : Scheduler) : Still s s := ⟨fun _ _ => .rfl, rfl⟩

theorem trans (still : Still s s₁) (still' : Still s₁ s') : Still s s' :=
  ⟨fun k state => (still'.states k state).trans (still.states k state), still'.ready.trans still.ready⟩

theorem undisturbed (u : s.Undisturbed s') : Still s s' := ⟨fun _ _ => u.hasState, u.ready⟩

theorem advances (still : Still s s') : Advances s s' :=
  .idles ⟨fun k => still.states k .ready, fun k => (still.states k .running).1⟩ still.ready

end Still

theorem Advances.of_still (still : Still s₀ s) (advances : Advances s s') : Advances s₀ s' := by
  cases advances with
  | idles idles ready =>
    refine .idles ⟨fun k => (idles.ready k).trans (still.states k _), fun k is => ?_⟩ (ready.trans still.ready)
    exact (still.states k _).1 (idles.running k is)
  | readies readies ready =>
    refine .readies ⟨mt (still.states _ _).2 readies.before, readies.after, fun k ne state => ?_⟩ (still.ready ▸ ready)
    exact (readies.others k ne state).trans (still.states k state)
  | picks picks ready =>
    refine .picks ⟨(still.states _ _).1 picks.before, picks.after, fun k ne state alive => ?_⟩ (still.ready ▸ ready)
    exact (picks.others k ne state alive).trans (still.states k state)

theorem Advances.undisturbed (advances : Advances s s₁) (u : s₁.Undisturbed s') : Advances s s' := by
  cases advances with
  | idles idles ready =>
    exact .idles ⟨fun k => u.hasState.trans (idles.ready k), fun k is => idles.running k (u.hasState.1 is)⟩
      (u.ready.trans ready)
  | readies readies ready =>
    refine .readies ⟨readies.before, u.hasState.2 readies.after, fun k ne state => ?_⟩ (u.ready.trans ready)
    exact u.hasState.trans (readies.others k ne state)
  | picks picks ready =>
    refine .picks ⟨picks.before, ?_, fun k ne state alive => ?_⟩ (u.ready ▸ ready)
    · rw [u.id, u.state]
      exact picks.after
    · exact u.hasState.trans (picks.others k ne state alive)

theorem eventsTo_still (still : Still s₀ s) (s' : Scheduler) : s.eventsTo s' = s₀.eventsTo s' := by
  have same : ∀ state, state ≠ .terminated → comers state s s' = comers state s₀ s' := fun state alive =>
    List.filter_congr fun id _ => decide_eq_decide.2
      (not_congr ((mem_idsIn alive).trans ((still.states id state).trans (mem_idsIn alive).symm)))
  rw [eventsTo, eventsTo, same .ready nofun, same .running nofun]

theorem eventsThrough_append (s : Scheduler) (stages stages' : List Scheduler) :
    s.eventsThrough (stages ++ stages') = s.eventsThrough stages ++ (stages.getLastD s).eventsThrough stages' := by
  induction stages generalizing s with
  | nil => rfl
  | cons s₁ stages ih => rw [List.cons_append, eventsThrough, eventsThrough, ih, List.append_assoc, List.getLastD_cons]

end Comers

section Operations

variable {s : Scheduler} {id : Nat}

theorem Consistent.advances_wake (cons : s.Consistent) (id : Nat) : Advances s (s.wake id) := by
  by_cases blocked : s.HasState id .blocked
  · obtain ⟨ready, queue⟩ := cons.wake_blocked blocked
    refine .readies ⟨fun is => ?_, ready, fun k ne state => hasState_wake_of_ne ne⟩ queue
    cases cons.hasState_unique blocked is
  · rw [wake_of_not_blocked blocked]
    exact (Still.refl s).advances

theorem Consistent.advances_spawn (cons : s.Consistent) (pc : Int) (env : Addr) : Advances s (s.spawn pc env) := by
  refine @Advances.readies _ _ s.nextId ⟨fun is => ?_, ?_, fun k ne state => ?_⟩ rfl
  · exact Nat.lt_irrefl _ (cons.hasState_lt is)
  · exact .inr ⟨_, mem_insertFiber.2 (.inl rfl), rfl, rfl⟩
  · refine or_congr_right ⟨?_, fun ⟨f, mem, is⟩ => ⟨f, mem_insertFiber.2 (.inr mem), is⟩⟩
    rintro ⟨f, mem, own, is⟩
    rcases mem_insertFiber.1 mem with rfl | mem
    · exact absurd own.symm ne
    · exact ⟨f, mem, own, is⟩

/-- The current fiber gives up. -/
theorem advances_stop (running : s.current.state = .running) (state : FiberState) (ready : state ≠ .ready)
    (other : state ≠ .running) (timers : List Timer) :
    Advances s { s with current := { s.current with state := state }, timers } := by
  refine .idles ⟨fun k => ⟨?_, ?_⟩, fun k => ?_⟩ rfl
  · rintro (⟨-, is⟩ | is)
    · exact absurd is ready
    · exact .inr is
  · rintro (⟨-, is⟩ | is)
    · rw [running] at is
      cases is
    · exact .inr is
  · rintro (⟨-, is⟩ | is)
    · exact absurd is other
    · exact .inr is

theorem Still.deliver (s : Scheduler) (id : Nat) (v : Addr) : Still s (s.deliver id v) := by
  refine ⟨fun _ _ => hasState_deliver s v, ?_⟩
  unfold Scheduler.deliver
  split
  · exact (Undisturbed.deliverSaved s v).ready
  · rfl

theorem Consistent.advances_preempt (cons : s.Consistent) (running : s.current.state = .running) :
    Advances s s.preempt := by
  refine .readies ⟨fun is => ?_, .inl ⟨rfl, rfl⟩, fun k ne state => ?_⟩ rfl
  · cases cons.hasState_unique is (.inl ⟨rfl, running⟩)
  · exact or_congr_left ⟨fun own => absurd own.1.symm ne, fun own => absurd own.1.symm ne⟩

theorem Consistent.picks (cons : s.Consistent) {rest : List Nat} (ready : s.ready = id :: rest) :
    Picks id s s.resume := by
  have waiting := cons.queued id (ready ▸ List.mem_cons_self)
  obtain ⟨-, -, -, table⟩ := cons.resume_cases ready
  rcases table with ⟨own, -, current, others⟩ | ⟨f, mem, own, is, foreign, current, others⟩
  · refine ⟨waiting, by rw [current]; exact ⟨own, rfl⟩, fun k ne state _ => ?_⟩
    rw [HasState, HasState, current, others]
    exact or_congr_left ⟨fun same => absurd (same.1.symm.trans own) ne, fun same => absurd (same.1.symm.trans own) ne⟩
  · refine ⟨waiting, by rw [current]; exact ⟨own, rfl⟩, fun k ne state alive => ?_⟩
    rw [HasState, HasState, current, others]
    constructor
    · rintro (⟨same, -⟩ | ⟨g, inside, same, is⟩)
      · exact absurd (same.symm.trans own) ne
      · rcases mem_exchanged.1 inside with ⟨rfl, -⟩ | ⟨inside, -⟩
        · exact .inl ⟨same, is⟩
        · exact .inr ⟨g, inside, same, is⟩
    · rintro (⟨same, is⟩ | ⟨g, inside, same, is⟩)
      · exact .inr ⟨s.current, mem_exchanged.2 (.inl ⟨rfl, is ▸ alive⟩), same, is⟩
      · exact .inr ⟨g, mem_exchanged.2 (.inr ⟨inside, same ▸ ne⟩), same, is⟩

theorem Consistent.advances_resume (cons : s.Consistent) (some : s.ready ≠ []) : Advances s s.resume := by
  obtain ⟨id, rest, ready⟩ := List.exists_cons_of_ne_nil some
  refine .picks (cons.picks ready) ?_
  rw [(cons.resume_cases ready).1, ready]

end Operations

/-- The stages lead from one scheduler to another, which is in order. -/
structure Leads (s : Scheduler) (stages : List Scheduler) (s' : Scheduler) : Prop where
  orderly : s'.Orderly
  advances : (s :: stages).IsChain Advances
  /-- Nothing has happened since the last stage. -/
  still : Still (stages.getLastD s) s'
  queue : s.ready ++ (s.eventsThrough stages).filterMap Event.readied? =
    (s.eventsThrough stages).filterMap Event.resumed? ++ s'.ready

namespace Leads

variable {s s₁ s' : Scheduler} {stages : List Scheduler} {canceled : Bool}

theorem refl (orderly : s.Orderly) : s.Leads [] s := ⟨orderly, .singleton s, .refl s, List.append_nil _⟩

theorem kept (leads : s.Leads stages s₁) (u : s₁.Undisturbed s') : s.Leads stages s' :=
  ⟨leads.orderly.undisturbed u, leads.advances, leads.still.trans (.undisturbed u), u.ready ▸ leads.queue⟩

theorem stage (leads : s.Leads stages s₁) (advances : Advances s₁ s') (orderly : s'.Orderly) :
    s.Leads (stages ++ [s']) s' := by
  have last : (stages ++ [s']).getLastD s = s' := List.getLastD_concat
  have through : s.eventsThrough (stages ++ [s']) = s.eventsThrough stages ++ s₁.eventsTo s' := by
    rw [eventsThrough_append, eventsThrough, eventsThrough, List.append_nil, eventsTo_still leads.still]
  refine ⟨orderly, ?_, by rw [last]; exact .refl s', ?_⟩
  · refine List.isChain_append.2 ⟨leads.advances, .singleton s', fun x mem y mem' => ?_⟩
    obtain rfl : stages.getLastD s = x := by simpa [List.getLast?_cons] using mem
    obtain rfl : s' = y := by simpa using mem'
    exact advances.of_still leads.still
  · rw [through, List.filterMap_append, List.filterMap_append, ← List.append_assoc, leads.queue, List.append_assoc,
      advances.queue leads.orderly.cons orderly.cons, List.append_assoc]

theorem wake (leads : s.Leads stages s₁) (id : Nat) : s.Leads (stages ++ [s₁.wake id]) (s₁.wake id) :=
  leads.stage (leads.orderly.cons.advances_wake id) (leads.orderly.wake id)

theorem wakings (leads : s.Leads stages s₁) (ids : List Nat) :
    s.Leads (stages ++ s₁.wakings ids) (ids.foldl Scheduler.wake s₁) := by
  induction ids generalizing s₁ stages with
  | nil => rwa [Scheduler.wakings, List.append_nil]
  | cons id ids ih =>
    rw [Scheduler.wakings, List.append_cons]
    exact ih (leads.wake id)

theorem poll (leads : s.Leads stages s₁) : s.Leads (stages ++ s₁.pollings) s₁.poll := by
  cases timers : s₁.timers with
  | nil =>
    rw [pollings, timers, poll_nil timers]
    exact leads.wakings []
  | cons t rest =>
    have orderly := (leads.orderly.undisturbed (.clock s₁ s₁.clock.look)).setTimers
      (s₁.timers.dropWhile fun t => t.deadline ≤ s₁.look.clock.now)
    rw [poll_cons timers, wakeDue, ← List.foldl_map]
    exact wakings ⟨orderly, leads.advances, leads.still.trans ⟨fun _ _ => .rfl, rfl⟩, leads.queue⟩ _

theorem preempt (leads : s.Leads stages s₁) (running : s₁.current.state = .running) :
    s.Leads (stages ++ [s₁.preempt]) s₁.preempt := by
  have orderly := leads.orderly
  exact leads.stage (orderly.cons.advances_preempt running) (orderly.preempt running)

theorem resume (leads : s.Leads stages s₁) (some : s₁.ready ≠ []) (idle : s₁.current.state ≠ .running) :
    s.Leads (stages ++ [s₁.resume]) s₁.resume :=
  leads.stage (leads.orderly.cons.advances_resume some) (leads.orderly.resume some idle).1

theorem awaitReady (leads : s.Leads stages s₁) (run : Scheduler.awaitReady canceled s₁ = .ok () s') :
    s.Leads (stages ++ (awaitPolls canceled s₁).flatMap pollings) s' := by
  fun_induction Scheduler.awaitReady canceled s₁ generalizing stages with
  | case1 => cases run
  | case2 => cases run
  | case3 s₁ empty t rest some go ih =>
    have slept : s₁.Undisturbed (s₁.sleepUntil t.deadline) := .clock s₁ _
    rw [awaitPolls, if_pos empty]
    split
    · next none => cases some.symm.trans none
    · next u rest' some' =>
      obtain ⟨rfl, -⟩ := List.cons.inj (some.symm.trans some')
      rw [if_neg go, List.flatMap_cons, ← List.append_assoc]
      exact ih (leads.kept slept).poll run
  | case4 s₁ ready =>
    cases run
    rwa [awaitPolls, if_neg ready, List.flatMap_nil, List.append_nil]

theorem next (leads : s.Leads stages s₁) (idle : s₁.current.state ≠ .running)
    (run : Scheduler.next canceled s₁ = .ok () s') : s.Leads (stages ++ s₁.searchStages canceled ++ [s']) s' := by
  obtain ⟨s₂, waited, rfl⟩ : ∃ s₂, Scheduler.awaitReady canceled s₁.poll = .ok () s₂ ∧ s' = s₂.resume := by
    unfold Scheduler.next at run
    split at run
    · next s₂ waited =>
      cases run
      exact ⟨s₂, waited, rfl⟩
    · cases run
  obtain ⟨-, idle₂, some⟩ := Orderly.kept.awaitReady leads.orderly.poll (poll_idle idle) waited
  rw [searchStages, nextPolls, List.flatMap_cons, ← List.append_assoc]
  exact (leads.poll.awaitReady waited).resume some idle₂

theorem reschedule (leads : s.Leads stages s₁) (run : Scheduler.reschedule canceled s₁ = .ok () s') :
    s.Leads (stages ++ s₁.decisionStages canceled ++ [s']) s' := by
  by_cases running : s₁.current.state = .running
  · have charged : s.Leads stages s₁.charge := leads.kept (.charge s₁)
    have polled := charged.poll
    rw [reschedule_of_running running] at run
    rw [decisionStages, if_pos running]
    split at run
    · next left =>
      cases run
      rw [if_pos left, List.append_nil]
      exact charged.stage (Still.refl _).advances charged.orderly
    next spent =>
    rw [if_neg spent]
    split at run
    · next alone =>
      cases run
      rw [if_pos alone]
      have renewed : s₁.charge.poll.Undisturbed { s₁.charge.poll with slice := s₁.charge.poll.quantum } :=
        ⟨rfl, rfl, rfl, rfl, rfl, rfl⟩
      exact polled.stage (Still.undisturbed renewed).advances (polled.orderly.undisturbed renewed)
    · next others =>
      have preempted := polled.preempt (poll_running running)
      rw [if_neg others, ← List.append_assoc, List.append_cons (stages ++ s₁.charge.pollings)]
      exact preempted.next nofun run
  · rw [reschedule_of_blocked running] at run
    rw [decisionStages, if_neg running]
    exact leads.next running run

end Leads

/-- A fiber that has used up its slice gives way to the first that is ready. -/
theorem reschedule_relieves {s : Scheduler} (canceled : Bool) (running : s.current.state = .running)
    (spent : s.slice ≤ 1) (quiet : s.timers = []) (some : s.ready ≠ []) :
    reschedule canceled s = .ok () s.charge.preempt.resume ∧ s.decisionStages canceled = [s.charge.preempt] := by
  have gone : ¬ 0 < s.charge.slice := by
    have charged : s.charge.slice = s.slice - 1 := rfl
    omega
  have polled : s.charge.poll = s.charge := poll_nil quiet
  have polled' : s.charge.preempt.poll = s.charge.preempt := poll_nil quiet
  have asleep : ∀ s' : Scheduler, s'.timers = [] → s'.pollings = [] := fun s' none => by
    rw [pollings, none]
    rfl
  have others : ¬ s.charge.ready.isEmpty = true := by
    show ¬ s.ready.isEmpty = true
    simpa using some
  have others' : ¬ s.charge.preempt.ready.isEmpty = true := by
    rw [show s.charge.preempt.ready = s.ready ++ [s.current.id] from rfl]
    simp
  constructor
  · rw [reschedule_of_running running, if_neg gone, polled, if_neg others, Scheduler.next, polled', Scheduler.awaitReady,
      if_neg others']
  · rw [decisionStages, if_pos running, if_neg gone, polled, if_neg others, asleep s.charge quiet, searchStages,
      nextPolls, polled', awaitPolls, if_neg others', List.flatMap_singleton, asleep s.charge.preempt quiet]
    rfl

end Scheduler

end FiberVm
