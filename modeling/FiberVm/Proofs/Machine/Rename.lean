import FiberVm.Machine.Scheduler

/-!
# Scheduling does not look at addresses

A renaming of the addresses in the fibers' registers goes through every operation of the scheduler:
who runs next, who is woken and when depends on ids, states, the clock and the heights of the stacks.
-/

set_option autoImplicit false

namespace FiberVm

def Fiber.rename (ρ : Addr → Addr) (f : Fiber) : Fiber :=
  { f with env := ρ f.env, operands := f.operands.map ρ, frames := f.frames.map ρ }

def Scheduler.rename (ρ : Addr → Addr) (s : Scheduler) : Scheduler :=
  { s with current := s.current.rename ρ, others := s.others.map (Fiber.rename ρ) }

namespace Fiber

variable (ρ : Addr → Addr) (f : Fiber)

@[simp] theorem rename_id : (f.rename ρ).id = f.id := rfl
@[simp] theorem rename_state : (f.rename ρ).state = f.state := rfl
@[simp] theorem rename_pc : (f.rename ρ).pc = f.pc := rfl
@[simp] theorem rename_env : (f.rename ρ).env = ρ f.env := rfl
@[simp] theorem rename_operands : (f.rename ρ).operands = f.operands.map ρ := rfl
@[simp] theorem rename_frames : (f.rename ρ).frames = f.frames.map ρ := rfl
@[simp] theorem rename_spare : (f.rename ρ).spare = f.spare := rfl
@[simp] theorem rename_started : (f.rename ρ).started = f.started := rfl

theorem roots_rename : (f.rename ρ).roots = f.roots.map ρ := by
  simp [roots]

theorem push_rename (a : Addr) : (f.rename ρ).push (ρ a) = (f.push a).rename ρ := by
  simp [push, rename]

theorem drop_rename (n : Nat) : (f.rename ρ).drop n = (f.drop n).rename ρ := by
  simp [drop, rename, List.map_drop]

theorem overwrite_rename (height : Nat) (a : Addr) :
    (f.rename ρ).overwrite height (ρ a) = (f.overwrite height a).rename ρ := by
  unfold overwrite
  simp only [rename_operands, List.length_map]
  split
  · simp [rename, List.map_set]
  · rfl

/-- Renamings that agree on the registers rename the fiber alike. -/
theorem rename_congr {ρ ρ' : Addr → Addr} {f : Fiber} (same : ∀ a ∈ f.roots, ρ' a = ρ a) :
    f.rename ρ' = f.rename ρ := by
  have env := same f.env List.mem_cons_self
  have operands : f.operands.map ρ' = f.operands.map ρ :=
    List.map_congr_left fun a mem => same a (by simp [roots, mem])
  have frames : f.frames.map ρ' = f.frames.map ρ :=
    List.map_congr_left fun a mem => same a (by simp [roots, mem])
  simp only [rename, env, operands, frames]

end Fiber

namespace Scheduler

variable (ρ : Addr → Addr)

@[simp] theorem rename_current (s : Scheduler) : (s.rename ρ).current = s.current.rename ρ := rfl
@[simp] theorem rename_others (s : Scheduler) :
    (s.rename ρ).others = s.others.map (Fiber.rename ρ) := rfl
@[simp] theorem rename_ready (s : Scheduler) : (s.rename ρ).ready = s.ready := rfl
@[simp] theorem rename_timers (s : Scheduler) : (s.rename ρ).timers = s.timers := rfl
@[simp] theorem rename_clock (s : Scheduler) : (s.rename ρ).clock = s.clock := rfl
@[simp] theorem rename_slice (s : Scheduler) : (s.rename ρ).slice = s.slice := rfl
@[simp] theorem rename_quantum (s : Scheduler) : (s.rename ρ).quantum = s.quantum := rfl
@[simp] theorem rename_firstQuantum (s : Scheduler) :
    (s.rename ρ).firstQuantum = s.firstQuantum := rfl
@[simp] theorem rename_saved (s : Scheduler) : (s.rename ρ).saved = s.saved := rfl
@[simp] theorem rename_nextId (s : Scheduler) : (s.rename ρ).nextId = s.nextId := rfl
@[simp] theorem rename_switches (s : Scheduler) : (s.rename ρ).switches = s.switches := rfl

theorem insertFiber_rename (f : Fiber) (l : List Fiber) :
    insertFiber (f.rename ρ) (l.map (Fiber.rename ρ)) = (insertFiber f l).map (Fiber.rename ρ) := by
  induction l with
  | nil => rfl
  | cons g l ih =>
    by_cases before : f.id < g.id
    · simp [insertFiber, before]
    · simp [insertFiber, before, ih]

theorem live_rename (s : Scheduler) : (s.rename ρ).live = s.live.map (Fiber.rename ρ) := by
  unfold live
  simp only [rename_current, Fiber.rename_state, rename_others, insertFiber_rename]
  split <;> rfl

theorem isLive_rename (s : Scheduler) (id : Nat) : (s.rename ρ).isLive id = s.isLive id := by
  rw [isLive, live_rename, List.any_map]
  rfl

theorem blockedCount_rename (s : Scheduler) : (s.rename ρ).blockedCount = s.blockedCount := by
  rw [blockedCount, live_rename, List.countP_map]
  rfl

theorem roots_rename (s : Scheduler) : (s.rename ρ).roots = s.roots.map ρ := by
  simp only [roots, live_rename, List.flatMap_map, List.map_flatMap, Fiber.roots_rename]

theorem spawn_rename (s : Scheduler) (pc : Int) (env : Addr) :
    (s.rename ρ).spawn pc (ρ env) = (s.spawn pc env).rename ρ := by
  have inserted := insertFiber_rename ρ { id := s.nextId, state := .ready, pc := pc, env := env } s.others
  simp only [spawn, rename_nextId, rename_others, rename_ready]
  unfold rename
  simp only [← inserted]
  rfl

theorem park_rename (s : Scheduler) : (s.rename ρ).park = s.park.rename ρ := rfl

theorem terminate_rename (s : Scheduler) : (s.rename ρ).terminate = s.terminate.rename ρ := rfl

theorem sleep_rename (s : Scheduler) (ms : Int64) : (s.rename ρ).sleep ms = (s.sleep ms).rename ρ := rfl

theorem map_state_rename (l : List Fiber) (id : Nat) :
    (l.map (Fiber.rename ρ)).map (fun f => if f.id = id then { f with state := .ready } else f) =
      (l.map fun f => if f.id = id then { f with state := .ready } else f).map (Fiber.rename ρ) := by
  rw [List.map_map, List.map_map]
  apply List.map_congr_left
  intro f _
  by_cases same : f.id = id
  · simp [same, Fiber.rename]
  · simp [same]

theorem wake_rename (s : Scheduler) (id : Nat) : (s.rename ρ).wake id = (s.wake id).rename ρ := by
  have same : (s.others.map (Fiber.rename ρ)).any (fun f => f.id == id && f.state == .blocked) =
      s.others.any (fun f => f.id == id && f.state == .blocked) := by
    rw [List.any_map]
    rfl
  simp only [wake, rename_current, Fiber.rename_id, Fiber.rename_state, rename_others, same,
    rename_ready, map_state_rename, apply_ite (rename ρ)]
  rfl

theorem push_rename (s : Scheduler) (a : Addr) : (s.rename ρ).push (ρ a) = (s.push a).rename ρ := by
  simp only [push, rename_current, Fiber.push_rename, Fiber.rename_spare, rename_saved]
  rfl

theorem deliverSaved_rename (s : Scheduler) (v : Addr) :
    (s.rename ρ).deliverSaved (ρ v) = (s.deliverSaved v).rename ρ := by
  unfold deliverSaved
  simp only [rename_saved, rename_current, Fiber.rename_operands, List.length_map,
    Fiber.rename_spare, Fiber.overwrite_rename]
  split <;> rfl

theorem deliver_rename (s : Scheduler) (id : Nat) (v : Addr) :
    (s.rename ρ).deliver id (ρ v) = (s.deliver id v).rename ρ := by
  have others : (s.others.map (Fiber.rename ρ)).map (fun f => if f.id = id then f.push (ρ v) else f) =
      (s.others.map fun f => if f.id = id then f.push v else f).map (Fiber.rename ρ) := by
    rw [List.map_map, List.map_map]
    apply List.map_congr_left
    intro f _
    by_cases same : f.id = id
    · simp [same, Fiber.push_rename]
    · simp [same]
  simp only [deliver, rename_current, Fiber.rename_id, deliverSaved_rename, rename_others, others,
    apply_ite (rename ρ)]
  rfl

theorem foldl_wake_rename (due : List Timer) (s : Scheduler) :
    due.foldl (fun s t => s.wake t.fiber) (s.rename ρ) =
      (due.foldl (fun s t => s.wake t.fiber) s).rename ρ := by
  induction due generalizing s with
  | nil => rfl
  | cons t due ih => rw [List.foldl_cons, List.foldl_cons, wake_rename, ih]

theorem wakeDue_rename (s : Scheduler) : (s.rename ρ).wakeDue = s.wakeDue.rename ρ :=
  foldl_wake_rename ρ _ { s with timers := s.timers.dropWhile fun t => t.deadline ≤ s.clock.now }

theorem poll_rename (s : Scheduler) : (s.rename ρ).poll = s.poll.rename ρ := by
  unfold poll
  rw [apply_ite (rename ρ), ← wakeDue_rename]
  rfl

theorem sleepUntil_rename (s : Scheduler) (deadline : Int) :
    (s.rename ρ).sleepUntil deadline = (s.sleepUntil deadline).rename ρ := rfl

/-- The outcome of a scheduling decision with every address replaced. -/
def renameResult (ρ : Addr → Addr) :
    EStateM.Result Cause Scheduler Unit → EStateM.Result Cause Scheduler Unit
  | .ok u s => .ok u (s.rename ρ)
  | .error c s => .error c (s.rename ρ)

theorem awaitReady_rename (canceled : Bool) (s : Scheduler) :
    awaitReady canceled (s.rename ρ) = renameResult ρ (awaitReady canceled s) := by
  fun_induction awaitReady canceled s with
  | case1 s empty none =>
    rw [awaitReady, if_pos (show (s.rename ρ).ready.isEmpty = true from empty)]
    split
    · rw [blockedCount_rename]
      rfl
    · next some => exact nomatch none.symm.trans some
  | case2 s empty t rest some stop =>
    rw [awaitReady, if_pos (show (s.rename ρ).ready.isEmpty = true from empty)]
    split
    · next none => exact nomatch some.symm.trans none
    · rw [if_pos stop]
      rfl
  | case3 s empty t rest some go ih =>
    rw [awaitReady, if_pos (show (s.rename ρ).ready.isEmpty = true from empty)]
    split
    · next none => exact nomatch some.symm.trans none
    · next u rest' some' =>
      obtain ⟨rfl, -⟩ := List.cons.inj (some.symm.trans some')
      rw [if_neg go, sleepUntil_rename, poll_rename, ih]
  | case4 s ready =>
    rw [awaitReady, if_neg (show ¬ (s.rename ρ).ready.isEmpty = true from ready)]
    rfl

theorem find_rename (l : List Fiber) (id : Nat) :
    (l.map (Fiber.rename ρ)).find? (fun f => f.id == id) =
      (l.find? fun f => f.id == id).map (Fiber.rename ρ) := by
  rw [List.find?_map]
  rfl

theorem filter_rename (l : List Fiber) (id : Nat) :
    (l.map (Fiber.rename ρ)).filter (fun f => f.id != id) =
      (l.filter fun f => f.id != id).map (Fiber.rename ρ) := by
  rw [List.filter_map]
  rfl

theorem resume_rename (s : Scheduler) : (s.rename ρ).resume = s.resume.rename ρ := by
  unfold resume
  simp only [rename_ready]
  cases s.ready with
  | nil => rfl
  | cons id rest =>
    simp only [rename_current, Fiber.rename_id, rename_others, find_rename, filter_rename,
      Fiber.rename_operands, List.length_map, Fiber.rename_state]
    by_cases own : s.current.id = id
    · rw [if_pos own, if_pos own]
      rfl
    · rw [if_neg own, if_neg own]
      cases s.others.find? fun f => f.id == id with
      | none => rfl
      | some f =>
        simp only [Option.map_some, insertFiber_rename, Fiber.rename_operands, List.length_map]
        by_cases dead : s.current.state = .terminated
        · rw [if_pos dead, if_pos dead]
          rfl
        · rw [if_neg dead, if_neg dead]
          rfl

theorem next_rename (canceled : Bool) (s : Scheduler) :
    next canceled (s.rename ρ) = renameResult ρ (next canceled s) := by
  unfold next
  rw [poll_rename, awaitReady_rename]
  cases awaitReady canceled s.poll with
  | ok u s' =>
    simp only [renameResult, resume_rename]
  | error c s' => rfl

/-- One instruction is taken off the slice. -/
def charge (s : Scheduler) : Scheduler := { s with slice := s.slice - 1 }

/-- The current fiber goes to the end of the queue. -/
def preempt (s : Scheduler) : Scheduler :=
  { s with current := { s.current with state := .ready }, ready := s.ready ++ [s.current.id] }

theorem reschedule_of_blocked {canceled : Bool} {s : Scheduler} (blocked : s.current.state ≠ .running) :
    reschedule canceled s = next canceled s := by
  rw [reschedule, if_neg blocked]

theorem reschedule_of_running {canceled : Bool} {s : Scheduler} (running : s.current.state = .running) :
    reschedule canceled s =
      if 0 < s.charge.slice then .ok () s.charge
      else if s.charge.poll.ready.isEmpty then
        .ok () { s.charge.poll with slice := s.charge.poll.quantum }
      else next canceled s.charge.poll.preempt := by
  rw [reschedule, if_pos running]
  rfl

theorem reschedule_rename (canceled : Bool) (s : Scheduler) :
    reschedule canceled (s.rename ρ) = renameResult ρ (reschedule canceled s) := by
  by_cases running : s.current.state = .running
  · have poll : (s.rename ρ).charge.poll = s.charge.poll.rename ρ := poll_rename ρ s.charge
    rw [reschedule_of_running running, reschedule_of_running (s := s.rename ρ) running, poll]
    by_cases more : 0 < s.charge.slice
    · rw [if_pos more, if_pos (show 0 < (s.rename ρ).charge.slice from more)]
      rfl
    · rw [if_neg more, if_neg (show ¬ 0 < (s.rename ρ).charge.slice from more), rename_ready]
      by_cases alone : s.charge.poll.ready.isEmpty = true
      · rw [if_pos alone, if_pos alone]
        rfl
      · rw [if_neg alone, if_neg alone]
        exact next_rename ρ canceled s.charge.poll.preempt
  · rw [reschedule_of_blocked running, reschedule_of_blocked (s := s.rename ρ) running, next_rename]

end Scheduler

end FiberVm
