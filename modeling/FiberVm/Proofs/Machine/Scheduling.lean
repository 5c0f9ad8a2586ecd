import Mathlib.Data.List.Nodup
import FiberVm.Proofs.Machine.Rename
import FiberVm.Proofs.Heap.Mirror

/-!
# What the scheduler keeps true

Ids are distinct, and every id in the queue is that of a fiber that is ready. So the scheduler always
finds the fiber it is about to resume, a fiber that has ended never runs again, and every register that
is live afterwards was live before.
-/

set_option autoImplicit false

namespace FiberVm

/-- The registers of a fiber play their roles. -/
structure Fiber.Typed (D : Typing) (f : Fiber) : Prop where
  env : D f.env .environment
  operands : ∀ a ∈ f.operands, IsValue D a
  frames : ∀ a ∈ f.frames, D a .activation

namespace Scheduler

/-- Ids are distinct and below the next one, and the queue holds ready fibers, each once. -/
structure Consistent (s : Scheduler) : Prop where
  apart : ∀ f ∈ s.others, f.id ≠ s.current.id
  distinct : (s.others.map Fiber.id).Nodup
  current_lt : s.current.id < s.nextId
  others_lt : ∀ f ∈ s.others, f.id < s.nextId
  queued : ∀ id ∈ s.ready, (s.current.id = id ∧ s.current.state = .ready) ∨
    ∃ f ∈ s.others, f.id = id ∧ f.state = .ready
  once : s.ready.Nodup

/-- The registers of every live fiber play their roles. -/
structure Typed (D : Typing) (s : Scheduler) : Prop where
  current : s.current.state ≠ .terminated → s.current.Typed D
  others : ∀ f ∈ s.others, f.Typed D

theorem perm_insertFiber (f : Fiber) (l : List Fiber) : (insertFiber f l).Perm (f :: l) := by
  induction l with
  | nil => exact .refl _
  | cons g l ih =>
    rw [insertFiber]
    split
    · exact .refl _
    · exact (ih.cons g).trans (.swap f g l)

theorem mem_insertFiber {f g : Fiber} {l : List Fiber} : g ∈ insertFiber f l ↔ g = f ∨ g ∈ l := by
  rw [(perm_insertFiber f l).mem_iff, List.mem_cons]

theorem mem_live {s : Scheduler} {f : Fiber} :
    f ∈ s.live ↔ (f = s.current ∧ s.current.state ≠ .terminated) ∨ f ∈ s.others := by
  unfold live
  split
  · next dead => simp [dead]
  · next alive => simp [mem_insertFiber, alive]

section

variable {D : Typing} {s : Scheduler}

theorem Typed.live (typed : s.Typed D) {f : Fiber} (mem : f ∈ s.live) : f.Typed D := by
  rcases mem_live.1 mem with ⟨rfl, alive⟩ | mem
  · exact typed.current alive
  · exact typed.others f mem

theorem Consistent.unique (cons : s.Consistent) {f g : Fiber} (hf : f ∈ s.others)
    (hg : g ∈ s.others) (same : f.id = g.id) : f = g :=
  List.inj_on_of_nodup_map cons.distinct hf hg same

theorem Typed.wake (typed : s.Typed D) (id : Nat) : (s.wake id).Typed D := by
  unfold Scheduler.wake
  split
  · split
    · next blocked =>
      refine ⟨fun _ => ?_, typed.others⟩
      obtain ⟨env, operands, frames⟩ := typed.current (by rw [blocked]; decide)
      exact ⟨env, operands, frames⟩
    · exact typed
  · split
    · refine ⟨typed.current, fun f mem => ?_⟩
      obtain ⟨g, inside, rfl⟩ := List.mem_map.1 mem
      obtain ⟨env, operands, frames⟩ := typed.others g inside
      split
      · exact ⟨env, operands, frames⟩
      · exact ⟨env, operands, frames⟩
    · exact typed

theorem Consistent.not_queued (cons : s.Consistent) (running : s.current.state ≠ .ready) :
    s.current.id ∉ s.ready := by
  intro mem
  rcases cons.queued _ mem with ⟨-, ready⟩ | ⟨f, inside, same, -⟩
  · exact running ready
  · exact cons.apart f inside same

theorem nodup_snoc {l : List Nat} {id : Nat} (once : l.Nodup) (absent : id ∉ l) : (l ++ [id]).Nodup := by
  rw [← List.concat_eq_append]
  exact once.concat absent

/-- The current fiber goes to the end of the queue. -/
theorem Consistent.yield (cons : s.Consistent) (state : s.current.state ≠ .ready) :
    Consistent { s with current := { s.current with state := .ready }, ready := s.ready ++ [s.current.id] } := by
  refine ⟨cons.apart, cons.distinct, cons.current_lt, cons.others_lt, fun k mem => ?_,
    nodup_snoc cons.once (cons.not_queued state)⟩
  rcases List.mem_append.1 mem with mem | mem
  · exact .inr ((cons.queued k mem).resolve_left fun own => state own.2)
  · exact .inl ⟨(List.mem_singleton.1 mem).symm, rfl⟩

/-- The table is the same but for what is no matter of the queue. -/
theorem Consistent.map_others (cons : s.Consistent) {g : Fiber → Fiber} (ids : ∀ f, (g f).id = f.id)
    (states : ∀ f, f.state = .ready → (g f).state = .ready) : Consistent { s with others := s.others.map g } := by
  refine ⟨fun f mem => ?_, ?_, cons.current_lt, fun f mem => ?_, fun k mem => ?_, cons.once⟩
  · obtain ⟨f, inside, rfl⟩ := List.mem_map.1 mem
    exact (ids f).symm ▸ cons.apart f inside
  · rw [List.map_map]
    simpa only [Function.comp_def, ids] using cons.distinct
  · obtain ⟨f, inside, rfl⟩ := List.mem_map.1 mem
    exact (ids f).symm ▸ cons.others_lt f inside
  · refine (cons.queued k mem).imp_right fun ⟨f, inside, same, ready⟩ => ?_
    exact ⟨g f, List.mem_map_of_mem inside, (ids f).trans same, states f ready⟩

theorem Consistent.enqueue (cons : s.Consistent) {id : Nat} (absent : id ∉ s.ready)
    (ready : ∃ f ∈ s.others, f.id = id ∧ f.state = .ready) : Consistent { s with ready := s.ready ++ [id] } := by
  refine ⟨cons.apart, cons.distinct, cons.current_lt, cons.others_lt, fun k mem => ?_, nodup_snoc cons.once absent⟩
  rcases List.mem_append.1 mem with mem | mem
  · exact cons.queued k mem
  · exact .inr (List.mem_singleton.1 mem ▸ ready)

theorem Consistent.wake (cons : s.Consistent) (id : Nat) : (s.wake id).Consistent := by
  unfold Scheduler.wake
  split
  · next own =>
    split
    · next blocked =>
      subst own
      exact cons.yield (by rw [blocked]; decide)
    · exact cons
  · next foreign =>
    split
    · next found =>
      obtain ⟨f, inside, test⟩ := List.any_eq_true.1 found
      obtain ⟨same, blocked⟩ : f.id = id ∧ f.state = .blocked := by simpa using test
      have absent : id ∉ s.ready := by
        intro mem
        rcases cons.queued id mem with ⟨own, -⟩ | ⟨g, inside', same', ready⟩
        · exact foreign own
        · rw [cons.unique inside' inside (same'.trans same.symm), blocked] at ready
          cases ready
      let g : Fiber → Fiber := fun f => if f.id = id then { f with state := .ready } else f
      have ids : ∀ f, (g f).id = f.id := fun f => by
        show (if f.id = id then { f with state := .ready } else f).id = f.id
        split <;> rfl
      have states : ∀ f, f.state = .ready → (g f).state = .ready := fun f ready => by
        show (if f.id = id then { f with state := .ready } else f).state = .ready
        split
        · rfl
        · exact ready
      exact (cons.map_others ids states).enqueue absent
        ⟨g f, List.mem_map_of_mem inside, (ids f).trans same, by rw [show g f = _ from if_pos same]⟩
    · exact cons

/-- What holds before and survives waking holds after polling. -/
theorem poll_invariant {P : Scheduler → Prop} (wake : ∀ s id, P s → P (s.wake id))
    (timers : ∀ s ts c, P s → P { s with timers := ts, clock := c }) (holds : P s) : P s.poll := by
  have fold : ∀ (due : List Timer) (s : Scheduler), P s →
      P (due.foldl (fun s t => s.wake t.fiber) s) := by
    intro due
    induction due with
    | nil => exact fun _ holds => holds
    | cons t due ih => exact fun s holds => ih _ (wake s t.fiber holds)
  unfold Scheduler.poll
  split
  · exact holds
  · exact fold _ _ (timers s _ _ holds)

theorem Consistent.poll (cons : s.Consistent) : s.poll.Consistent :=
  poll_invariant (fun _ id cons => cons.wake id)
    (fun _ _ _ cons => ⟨cons.apart, cons.distinct, cons.current_lt, cons.others_lt, cons.queued,
      cons.once⟩) cons

theorem Typed.poll (typed : s.Typed D) : s.poll.Typed D :=
  poll_invariant (fun _ id typed => typed.wake id) (fun _ _ _ typed => ⟨typed.current, typed.others⟩) typed

/-- Both, as the scheduler needs them. -/
structure Fit (D : Typing) (s : Scheduler) : Prop where
  cons : s.Consistent
  typed : s.Typed D

theorem Fit.poll (fit : s.Fit D) : s.poll.Fit D := ⟨fit.cons.poll, fit.typed.poll⟩

theorem Fit.of_clock (fit : s.Fit D) (clock : Clock) : Fit D { s with clock } :=
  ⟨⟨fit.cons.apart, fit.cons.distinct, fit.cons.current_lt, fit.cons.others_lt, fit.cons.queued,
    fit.cons.once⟩, fit.typed.current, fit.typed.others⟩

theorem awaitReady_fit (canceled : Bool) (s : Scheduler) (fit : s.Fit D) :
    match awaitReady canceled s with
    | .ok _ s' => s'.Fit D ∧ s'.ready ≠ []
    | .error _ s' => s'.Fit D := by
  fun_induction awaitReady canceled s with
  | case1 s empty none => exact fit
  | case2 s empty t rest some stop => exact fit
  | case3 s empty t rest some go ih => exact ih (fit.of_clock _).poll
  | case4 s ready => exact ⟨fit, by simpa using ready⟩

theorem Consistent.rest (cons : s.Consistent) {id : Nat} {rest : List Nat} (ready : s.ready = id :: rest) :
    id ∉ rest ∧ rest.Nodup ∧ ∀ k ∈ rest, (s.current.id = k ∧ s.current.state = .ready) ∨
      ∃ f ∈ s.others, f.id = k ∧ f.state = .ready := by
  have once := cons.once
  rw [ready, List.nodup_cons] at once
  refine ⟨once.1, once.2, fun k mem => cons.queued k ?_⟩
  rw [ready]
  exact List.mem_cons_of_mem id mem

theorem Consistent.resume_cases (cons : s.Consistent) {id : Nat} {rest : List Nat} (ready : s.ready = id :: rest) :
    s.resume.ready = rest ∧ s.resume.timers = s.timers ∧ s.resume.nextId = s.nextId ∧
    ((s.current.id = id ∧ s.current.state = .ready ∧
        s.resume.current = { s.current with state := .running, started := true } ∧ s.resume.others = s.others) ∨
      ∃ f ∈ s.others, f.id = id ∧ f.state = .ready ∧ s.current.id ≠ id ∧
        s.resume.current = { f with state := .running, started := true } ∧
        s.resume.others = if s.current.state = .terminated then s.others.filter (fun g => g.id != id)
          else insertFiber s.current (s.others.filter fun g => g.id != id)) := by
  have turn := cons.queued id (ready ▸ List.mem_cons_self)
  unfold Scheduler.resume
  rw [ready]
  dsimp only
  by_cases own : s.current.id = id
  · rw [if_pos own]
    refine ⟨rfl, rfl, rfl, .inl ⟨own, ?_, rfl, rfl⟩⟩
    rcases turn with ⟨-, waiting⟩ | ⟨f, inside, same, -⟩
    · exact waiting
    · exact absurd (same.trans own.symm) (cons.apart f inside)
  · rw [if_neg own]
    obtain ⟨g, inside, same, waiting⟩ := turn.resolve_left fun h => own h.1
    obtain ⟨f, found⟩ : ∃ f, s.others.find? (fun f => f.id == id) = some f :=
      Option.isSome_iff_exists.1 (List.find?_isSome.2 ⟨g, inside, by simpa using same⟩)
    have mem : f ∈ s.others := List.mem_of_find?_eq_some found
    have fid : f.id = id := by simpa using List.find?_some found
    obtain rfl := cons.unique mem inside (fid.trans same.symm)
    rw [found]
    exact ⟨rfl, rfl, rfl, .inr ⟨f, mem, fid, waiting, own, rfl, rfl⟩⟩

/-- The others when the fiber `id` has been resumed: the current one joins them unless it has ended. -/
theorem mem_exchanged {id : Nat} {f : Fiber} :
    f ∈ (if s.current.state = .terminated then s.others.filter (fun g => g.id != id)
      else insertFiber s.current (s.others.filter fun g => g.id != id)) ↔
    (f = s.current ∧ s.current.state ≠ .terminated) ∨ f ∈ s.others ∧ f.id ≠ id := by
  split
  · next dead => simp [dead]
  · next alive => simp [mem_insertFiber, alive]

theorem Consistent.resume (cons : s.Consistent) (nonempty : s.ready ≠ []) : s.resume.Consistent := by
  obtain ⟨id, rest, ready⟩ := List.exists_cons_of_ne_nil nonempty
  obtain ⟨fresh, nodup, queued⟩ := cons.rest ready
  obtain ⟨left, -, nextId, table⟩ := cons.resume_cases ready
  rw [← left] at fresh nodup queued
  rcases table with ⟨own, -, current, others⟩ | ⟨f, mem, fid, -, foreign, current, others⟩
  · -- The current fiber goes on, and is no longer queued.
    refine ⟨?_, ?_, ?_, ?_, fun k mem => .inr ?_, nodup⟩
    · rw [current, others]
      exact cons.apart
    · rw [others]
      exact cons.distinct
    · rw [current, nextId]
      exact cons.current_lt
    · rw [others, nextId]
      exact cons.others_lt
    · rw [others]
      refine (queued k mem).resolve_left fun ⟨same, _⟩ => ?_
      exact absurd mem (own.symm.trans same ▸ fresh)
  · -- The current fiber changes places with another, unless it has ended.
    have kept : (s.others.filter (fun h => h.id != id)).map Fiber.id |>.Nodup :=
      cons.distinct.sublist (List.filter_sublist.map _)
    refine ⟨fun h inside => ?_, ?_, ?_, fun h inside => ?_, fun k inside => .inr ?_, nodup⟩
    · rw [others] at inside
      rw [current]
      rcases mem_exchanged.1 inside with ⟨rfl, -⟩ | ⟨-, ne⟩
      · exact fid.symm ▸ foreign
      · exact fid.symm ▸ ne
    · rw [others]
      split
      · exact kept
      · refine ((perm_insertFiber _ _).map _).nodup_iff.2 (List.nodup_cons.2 ⟨fun twice => ?_, kept⟩)
        obtain ⟨h, inside, e⟩ := List.mem_map.1 twice
        exact cons.apart h (List.mem_of_mem_filter inside) e
    · rw [current, nextId]
      exact cons.others_lt f mem
    · rw [others] at inside
      rw [nextId]
      rcases mem_exchanged.1 inside with ⟨rfl, -⟩ | ⟨inside, -⟩
      · exact cons.current_lt
      · exact cons.others_lt h inside
    · rw [others]
      rcases queued k inside with ⟨rfl, waiting⟩ | ⟨h, member, rfl, waiting⟩
      · exact ⟨s.current, mem_exchanged.2 (.inl ⟨rfl, by rw [waiting]; decide⟩), rfl, waiting⟩
      · exact ⟨h, mem_exchanged.2 (.inr ⟨member, fun e => fresh (e ▸ inside)⟩), rfl, waiting⟩

theorem Typed.resume (typed : s.Typed D) (cons : s.Consistent) (nonempty : s.ready ≠ []) : s.resume.Typed D := by
  obtain ⟨id, rest, ready⟩ := List.exists_cons_of_ne_nil nonempty
  obtain ⟨-, -, -, table⟩ := cons.resume_cases ready
  rcases table with ⟨-, waiting, current, others⟩ | ⟨f, mem, -, -, -, current, others⟩
  · obtain ⟨env, operands, frames⟩ := typed.current (by rw [waiting]; decide)
    refine ⟨fun _ => ?_, others ▸ typed.others⟩
    rw [current]
    exact ⟨env, operands, frames⟩
  · obtain ⟨env, operands, frames⟩ := typed.others f mem
    refine ⟨fun _ => ?_, fun h inside => ?_⟩
    · rw [current]
      exact ⟨env, operands, frames⟩
    · rw [others] at inside
      rcases mem_exchanged.1 inside with ⟨rfl, alive⟩ | ⟨inside, -⟩
      · exact typed.current alive
      · exact typed.others h inside

theorem Fit.resume (fit : s.Fit D) (nonempty : s.ready ≠ []) :
    s.resume.Fit D ∧ s.resume.current.state = .running := by
  refine ⟨⟨fit.cons.resume nonempty, fit.typed.resume fit.cons nonempty⟩, ?_⟩
  obtain ⟨id, rest, ready⟩ := List.exists_cons_of_ne_nil nonempty
  obtain ⟨-, -, -, ⟨-, -, current, -⟩ | ⟨f, -, -, -, -, current, -⟩⟩ := fit.cons.resume_cases ready <;> rw [current]

/-- The outcome of a scheduling decision: some fiber runs, or all registers are still typed. -/
def Decided (D : Typing) : EStateM.Result Cause Scheduler Unit → Prop
  | .ok _ s => s.Fit D ∧ s.current.state = .running
  | .error _ s => s.Fit D

theorem Fit.next (fit : s.Fit D) (canceled : Bool) : Decided D (next canceled s) := by
  have ready := awaitReady_fit canceled s.poll fit.poll
  unfold Scheduler.next
  cases run : awaitReady canceled s.poll with
  | ok u s' =>
    rw [run] at ready
    exact ready.1.resume ready.2
  | error c s' =>
    rw [run] at ready
    exact ready

theorem Fit.of_current {s' : Scheduler} (fit : s.Fit D) (others : s'.others = s.others)
    (ready : s'.ready = s.ready) (next : s'.nextId = s.nextId) (id : s'.current.id = s.current.id)
    (state : s'.current.state = s.current.state)
    (typed : s.current.state ≠ .terminated → s'.current.Typed D) : s'.Fit D := by
  obtain ⟨cons, old⟩ := fit
  refine ⟨⟨?_, ?_, ?_, ?_, ?_, ?_⟩, fun alive => typed (state ▸ alive), ?_⟩
  · rw [others, id]
    exact cons.apart
  · rw [others]
    exact cons.distinct
  · rw [id, next]
    exact cons.current_lt
  · rw [others, next]
    exact cons.others_lt
  · rw [others, ready, id, state]
    exact cons.queued
  · rw [ready]
    exact cons.once
  · rw [others]
    exact old.others

theorem poll_running (running : s.current.state = .running) : s.poll.current.state = .running := by
  refine poll_invariant (P := fun s => s.current.state = .running) (fun s id running => ?_)
    (fun _ _ _ running => running) running
  unfold Scheduler.wake
  split
  · rw [if_neg (by rw [running]; decide)]
    exact running
  · split <;> exact running

theorem Fit.preempt (fit : s.Fit D) (running : s.current.state = .running) : s.preempt.Fit D := by
  obtain ⟨env, operands, frames⟩ := fit.typed.current (by rw [running]; decide)
  exact ⟨fit.cons.yield (by rw [running]; decide), fun _ => ⟨env, operands, frames⟩, fit.typed.others⟩

theorem Fit.reschedule (fit : s.Fit D) (canceled : Bool) : Decided D (reschedule canceled s) := by
  by_cases running : s.current.state = .running
  · have charged : s.charge.Fit D := fit.of_current rfl rfl rfl rfl rfl fit.typed.current
    have polled : s.charge.poll.current.state = .running := poll_running running
    rw [reschedule_of_running running]
    split
    · exact ⟨charged, running⟩
    · split
      · exact ⟨charged.poll.of_current rfl rfl rfl rfl rfl charged.poll.typed.current, polled⟩
      · exact (charged.poll.preempt polled).next canceled
  · rw [reschedule_of_blocked running]
    exact fit.next canceled

theorem Fit.push (fit : s.Fit D) {a : Addr} (value : IsValue D a) : (s.push a).Fit D := by
  refine fit.of_current rfl rfl rfl rfl rfl fun alive => ?_
  obtain ⟨env, operands, frames⟩ := fit.typed.current alive
  exact ⟨env, List.forall_mem_cons.2 ⟨value, operands⟩, frames⟩

theorem Fit.stop (fit : s.Fit D) (running : s.current.state = .running) {state : FiberState}
    (timers : List Timer) : Fit D { s with current := { s.current with state := state }, timers } := by
  obtain ⟨cons, typed⟩ := fit
  obtain ⟨env, operands, frames⟩ := typed.current (by rw [running]; decide)
  refine ⟨⟨cons.apart, cons.distinct, cons.current_lt, cons.others_lt, fun k mem => .inr ?_, cons.once⟩,
    fun _ => ⟨env, operands, frames⟩, typed.others⟩
  refine (cons.queued k mem).resolve_left ?_
  rintro ⟨-, ready⟩
  rw [running] at ready
  cases ready

theorem Fit.sleep (fit : s.Fit D) (running : s.current.state = .running) (ms : Int64) : (s.sleep ms).Fit D :=
  (fit.of_clock s.clock.look).stop running _

theorem Fit.spawn (fit : s.Fit D) {env : Addr} (role : D env .environment) (pc : Int) :
    (s.spawn pc env).Fit D := by
  obtain ⟨cons, typed⟩ := fit
  refine ⟨⟨fun f mem => ?_, ?_, Nat.lt_succ_of_lt cons.current_lt, fun f mem => ?_, fun k mem => ?_, ?_⟩,
    typed.current, fun f mem => ?_⟩
  · rcases mem_insertFiber.1 mem with rfl | mem
    · exact Nat.ne_of_gt cons.current_lt
    · exact cons.apart f mem
  · refine ((perm_insertFiber _ _).map _).nodup_iff.2 (List.nodup_cons.2 ⟨fun twice => ?_, cons.distinct⟩)
    obtain ⟨f, mem, e⟩ := List.mem_map.1 twice
    exact Nat.ne_of_lt (cons.others_lt f mem) e
  · rcases mem_insertFiber.1 mem with rfl | mem
    · exact Nat.lt_succ_self _
    · exact Nat.lt_succ_of_lt (cons.others_lt f mem)
  · rcases List.mem_append.1 mem with mem | mem
    · refine (cons.queued k mem).imp_right fun ⟨f, inside, rest⟩ => ⟨f, ?_, rest⟩
      exact mem_insertFiber.2 (.inr inside)
    · exact .inr ⟨_, mem_insertFiber.2 (.inl rfl), (List.mem_singleton.1 mem).symm, rfl⟩
  · refine nodup_snoc cons.once fun mem => ?_
    rcases cons.queued _ mem with ⟨same, -⟩ | ⟨f, inside, same, -⟩
    · exact Nat.ne_of_lt cons.current_lt same
    · exact Nat.ne_of_lt (cons.others_lt f inside) same
  · rcases mem_insertFiber.1 mem with rfl | mem
    · exact ⟨role, fun _ mem => (nomatch mem), fun _ mem => (nomatch mem)⟩
    · exact typed.others f mem

theorem Fit.wake (fit : s.Fit D) (id : Nat) : (s.wake id).Fit D := ⟨fit.cons.wake id, fit.typed.wake id⟩

theorem Fit.deliverSaved (fit : s.Fit D) {v : Addr} (value : IsValue D v) : (s.deliverSaved v).Fit D := by
  unfold Scheduler.deliverSaved
  split
  · exact fit
  · refine fit.of_current rfl rfl rfl ?_ ?_ fun alive => ?_
    · unfold Fiber.overwrite
      split <;> rfl
    · unfold Fiber.overwrite
      split <;> rfl
    · obtain ⟨env, operands, frames⟩ := fit.typed.current alive
      unfold Fiber.overwrite
      split
      · refine ⟨env, fun a mem => ?_, frames⟩
        rcases List.mem_or_eq_of_mem_set mem with mem | rfl
        · exact operands a mem
        · exact value
      · exact ⟨env, operands, frames⟩

theorem Fit.deliver (fit : s.Fit D) {v : Addr} (value : IsValue D v) (id : Nat) :
    (s.deliver id v).Fit D := by
  unfold Scheduler.deliver
  split
  · exact fit.deliverSaved value
  · have ids : ∀ f : Fiber, (if f.id = id then f.push v else f).id = f.id := fun f => by split <;> rfl
    have states : ∀ f : Fiber, (if f.id = id then f.push v else f).state = f.state := fun f => by split <;> rfl
    refine ⟨fit.cons.map_others ids fun f ready => (states f).trans ready, fit.typed.current, fun f mem => ?_⟩
    obtain ⟨g, inside, rfl⟩ := List.mem_map.1 mem
    obtain ⟨env, operands, frames⟩ := fit.typed.others g inside
    split
    · exact ⟨env, List.forall_mem_cons.2 ⟨value, operands⟩, frames⟩
    · exact ⟨env, operands, frames⟩

end

end Scheduler

end FiberVm
