import FiberVm.Proofs.Machine.Orderly
import FiberVm.Proofs.Machine.Outcome

/-!
# Who is in the table

A census is taken along a run: who has been started and who has ended, by id. The table always holds those
who have been started and have not ended, since the scheduler itself neither takes anyone off it nor adds
anyone.
-/

set_option autoImplicit false

namespace FiberVm

namespace Scheduler

section Live

variable {s s' : Scheduler} {id : Nat}

theorem isLive_iff_mem : s.isLive id = true ↔ id ∈ s.live.map Fiber.id := by
  simp only [isLive, List.any_eq_true, beq_iff_eq, List.mem_map]

theorem Continues.isLive (c : s.Continues s') : s'.isLive id = s.isLive id := by
  have ids := c.fibers.map Fiber.id
  rw [List.map_map, List.map_map] at ids
  rw [Bool.eq_iff_iff, isLive_iff_mem, isLive_iff_mem]
  exact ids.mem_iff

theorem isLive_deliver (s : Scheduler) (k : Nat) (v : Addr) : (s.deliver k v).isLive id = s.isLive id := by
  unfold deliver
  split
  · exact (Undisturbed.deliverSaved s v).isLive id
  · have ids : ∀ f : Fiber, (if f.id = k then f.push v else f).id = f.id := by
      intro f
      split <;> rfl
    rw [Bool.eq_iff_iff, isLive_iff, isLive_iff]
    simp only [List.mem_map, exists_exists_and_eq_and, ids]

theorem nextId_deliver (s : Scheduler) (k : Nat) (v : Addr) : (s.deliver k v).nextId = s.nextId := by
  unfold deliver
  split
  · exact (Undisturbed.deliverSaved s v).nextId
  · rfl

theorem foldl_wake_live {α : Type} (ids : List α) (f : α → Nat) (s : Scheduler) :
    (ids.foldl (fun s id => s.wake (f id)) s).nextId = s.nextId ∧
      (ids.foldl (fun s id => s.wake (f id)) s).isLive id = s.isLive id := by
  induction ids generalizing s with
  | nil => exact ⟨rfl, rfl⟩
  | cons x ids ih =>
    obtain ⟨nextId, live⟩ := ih (s.wake (f x))
    exact ⟨nextId.trans (s.nextId_wake _), live.trans (s.isLive_wake _ _)⟩

theorem isLive_block (running : s.current.state = .running) (timers : List Timer) :
    isLive { s with current := { s.current with state := .blocked }, timers } id = s.isLive id := by
  rw [Bool.eq_iff_iff, isLive_iff, isLive_iff, running]
  exact or_congr_left (and_congr_right fun _ => ⟨fun _ => nofun, fun _ => nofun⟩)

theorem isLive_spawn (pc : Int) (env : Addr) :
    (s.spawn pc env).isLive id = true ↔ id = s.nextId ∨ s.isLive id = true := by
  rw [isLive_iff, isLive_iff]
  constructor
  · rintro (own | ⟨f, mem, rfl⟩)
    · exact .inr (.inl own)
    · rcases mem_insertFiber.1 mem with rfl | mem
      · exact .inl rfl
      · exact .inr (.inr ⟨f, mem, rfl⟩)
  · rintro (rfl | own | ⟨f, mem, rfl⟩)
    · exact .inr ⟨_, mem_insertFiber.2 (.inl rfl), rfl⟩
    · exact .inl own
    · exact .inr ⟨f, mem_insertFiber.2 (.inr mem), rfl⟩

theorem Consistent.isLive_terminate (cons : s.Consistent) :
    s.terminate.isLive id = true ↔ s.isLive id = true ∧ id ≠ s.current.id := by
  rw [isLive_iff, isLive_iff]
  constructor
  · rintro (⟨-, alive⟩ | ⟨f, mem, rfl⟩)
    · exact absurd rfl alive
    · exact ⟨.inr ⟨f, mem, rfl⟩, cons.apart f mem⟩
  · rintro ⟨⟨own, -⟩ | other, ne⟩
    · exact absurd own.symm ne
    · exact .inr other

end Live

end Scheduler

namespace StepLabel

/-- Neither starts nor ends a fiber. -/
def IsLocal : StepLabel → Prop
  | spawn _ _ | stop => False
  | _ => True

/-- What an instruction does to the scheduler, apart from the registers of the current fiber. -/
def apply (s : Scheduler) : StepLabel → Scheduler
  | spawn pc env => s.spawn pc env
  | stop => s.terminate
  | sleep deadline => s.doze deadline
  | act _ (.hand v w) => (s.deliver w.fiber v).wake w.fiber
  | act _ (.refill _ w) | act _ (.pass w) => s.wake w.fiber
  | act _ (.parkSender _ _) | act _ (.parkReceiver _) | wait _ _ => s.park
  | drain _ ids => ids.foldl (fun s id => s.wake id.fiber) s
  | _ => s

variable {s s' : Scheduler} {l : StepLabel}

theorem OnSched.apply (does : l.OnSched s s') : (l.apply s).Undisturbed s' := by
  cases l with
  | quiet | make | newGroup | count | spawn | stop | sleep | drain => exact does
  | wait => exact does.2
  | act ch a =>
    cases a with
    | store | take | close | hand | refill | pass => exact does
    | parkSender | parkReceiver => exact does.2

theorem live_apply (loc : l.IsLocal) (running : s.current.state = .running) (id : Nat) :
    (l.apply s).nextId = s.nextId ∧ (l.apply s).isLive id = s.isLive id := by
  cases l with
  | quiet | make | newGroup | count => exact ⟨rfl, rfl⟩
  | spawn | stop => exact loc.elim
  | sleep | wait => exact ⟨rfl, Scheduler.isLive_block running _⟩
  | drain g ids => exact s.foldl_wake_live ids Word.fiber
  | act ch a =>
    cases a with
    | store | take | close => exact ⟨rfl, rfl⟩
    | parkSender | parkReceiver => exact ⟨rfl, Scheduler.isLive_block running _⟩
    | refill v w => exact ⟨s.nextId_wake _, s.isLive_wake _ _⟩
    | pass w => exact ⟨s.nextId_wake _, s.isLive_wake _ _⟩
    | hand v w =>
      exact ⟨(Scheduler.nextId_wake _ _).trans (s.nextId_deliver _ v),
        (Scheduler.isLive_wake _ _ _).trans (s.isLive_deliver _ v)⟩

end StepLabel

/-- Who has been started and who has ended, by id. -/
structure Census where
  started : List Nat := [0]
  ended : List Nat := []

namespace Census

/-- Notes that an instruction starts a fiber, or that it ends the current one. -/
def note (m : Machine) (i : Instr) (c : Census) : Census :=
  match i with
  | .startFiber _ => { c with started := c.started ++ [m.control.sched.nextId] }
  | .stopFiber => { c with ended := c.ended ++ [m.current.id] }
  | _ => c

/-- Notes what a turn does. -/
def enter (m : Machine) (t : Turn) (c : Census) : Census :=
  match m.executed t with
  | some (i, _) => c.note m i
  | none => c

/-- The table holds those who have been started and have not ended. -/
structure Counts (c : Census) (s : Scheduler) : Prop where
  started : c.started = List.range s.nextId
  ended : ∀ id ∈ c.ended, id < s.nextId
  live : ∀ id, s.isLive id = true ↔ id < s.nextId ∧ id ∉ c.ended

section Counts

variable {c : Census} {s s' : Scheduler} {m m' : Machine} {i : Instr} {l : StepLabel}

theorem length_enter (c : Census) (m : Machine) (t : Turn) : c.started.length ≤ (c.enter m t).started.length := by
  unfold enter
  split
  · unfold note
    split
    · simp
    · exact Nat.le_refl _
    · exact Nat.le_refl _
  · exact Nat.le_refl _

theorem enter_length (c : Census) (m : Machine) (t : Turn) :
    (c.enter m t).started.length ≤ c.started.length + 1 := by
  unfold enter
  split
  · unfold note
    split
    · simp
    · exact Nat.le_succ _
    · exact Nat.le_succ _
  · exact Nat.le_succ _

theorem recount_length (ts : List Turn) (m : Machine) (c : Census) :
    (m.recount enter c ts).started.length ≤ c.started.length + ts.length := by
  induction ts generalizing m c with
  | nil => exact Nat.le_refl _
  | cons t ts ih =>
    have rest := ih (m.turn t) (c.enter m t)
    have first := c.enter_length m t
    rw [Machine.recount, List.length_cons]
    omega

theorem Counts.length (counts : c.Counts s) : c.started.length = s.nextId := by
  rw [counts.started, List.length_range]

theorem Counts.of_same (counts : c.Counts s) (nextId : s'.nextId = s.nextId)
    (live : ∀ id, s'.isLive id = s.isLive id) : c.Counts s' := by
  refine ⟨nextId ▸ counts.started, nextId ▸ counts.ended, fun id => ?_⟩
  rw [nextId, live]
  exact counts.live id

theorem note_of_plain (plain : i.IsPlain) : c.note m i = c := by
  cases i with
  | startFiber stop => exact absurd rfl (plain.2.2.2 stop)
  | stopFiber => exact absurd rfl plain.2.2.1
  | _ => rfl

theorem note_of_local (loc : l.IsLocal) (fits : l.Of m i m') : c.note m i = c := by
  cases l with
  | quiet | sleep | newGroup | count | drain | wait => exact note_of_plain fits.1
  | spawn | stop => exact loc.elim
  | make =>
    have callee := fits.1
    cases i with
    | startFiber | stopFiber => cases callee
    | _ => rfl
  | act ch a =>
    rcases fits with ⟨rfl, -⟩ | ⟨rfl, -⟩ | ⟨rfl, -⟩ | ⟨-, plain, -⟩
    · rfl
    · rfl
    · rfl
    · exact note_of_plain plain

/-- What one instruction preserves. -/
theorem Counts.deed (counts : c.Counts m.control.sched) (cons : m.control.sched.Consistent)
    (running : m.control.sched.current.state = .running) (deed : m.Deed l m') (fits : l.Of m i m') :
    (c.note m i).Counts m'.control.sched := by
  have u := deed.sched.apply
  have after : ∀ id, m'.control.sched.isLive id = (l.apply m.control.sched).isLive id := u.isLive
  by_cases loc : l.IsLocal
  · rw [note_of_local loc fits]
    have same := StepLabel.live_apply loc running
    exact counts.of_same (u.nextId.trans (same 0).1) fun id => (after id).trans (same id).2
  · cases l with
    | spawn pc env =>
      obtain ⟨stop, rfl⟩ := fits
      have next : m'.control.sched.nextId = m.control.sched.nextId + 1 := u.nextId
      refine ⟨?_, fun id mem => ?_, fun id => ?_⟩
      · rw [next, List.range_succ, ← counts.started]
        rfl
      · rw [next]
        exact Nat.lt_succ_of_lt (counts.ended id mem)
      · rw [next, after id]
        refine (Scheduler.isLive_spawn pc env).trans ?_
        rw [counts.live id]
        constructor
        · rintro (rfl | ⟨lt, not⟩)
          · exact ⟨Nat.lt_succ_self _, fun mem => Nat.lt_irrefl _ (counts.ended _ mem)⟩
          · exact ⟨Nat.lt_succ_of_lt lt, not⟩
        · rintro ⟨lt, not⟩
          exact (Nat.lt_succ_iff_lt_or_eq.1 lt).symm.imp_right (⟨·, not⟩)
    | stop =>
      obtain rfl := fits
      have next : m'.control.sched.nextId = m.control.sched.nextId := u.nextId
      refine ⟨?_, fun id mem => ?_, fun id => ?_⟩
      · rw [next, ← counts.started]
        rfl
      · rw [next]
        rcases List.mem_append.1 mem with mem | mem
        · exact counts.ended id mem
        · exact List.mem_singleton.1 mem ▸ cons.current_lt
      · rw [next, after id]
        refine cons.isLive_terminate.trans ?_
        rw [counts.live id]
        simp only [note, List.mem_append, List.mem_singleton, not_or, and_assoc]
        rfl
    | _ => exact absurd trivial loc

end Counts

end Census

end FiberVm
