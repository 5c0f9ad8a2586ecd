import Mathlib.Data.List.Perm.Subperm
import FiberVm.Proofs.Machine.Deeds

/-!
# Who runs, who is queued and who is parked

Nobody runs but the current fiber, and the queue holds all that are ready. A fiber that is parked, at a node
of the heap or with a timer, is blocked, and it is parked in one place only. So whoever is woken is blocked,
and is parked nowhere afterwards. The scheduler keeps this up from one instruction to the next.
-/

set_option autoImplicit false

namespace FiberVm

/-- The fiber, apart from its state. -/
def Fiber.resting (f : Fiber) : Fiber := { f with state := .ready, started := false }

namespace Scheduler

/-- The fiber with the id given is in the state given. -/
def HasState (s : Scheduler) (id : Nat) (state : FiberState) : Prop :=
  (s.current.id = id ∧ s.current.state = state) ∨ ∃ f ∈ s.others, f.id = id ∧ f.state = state

/-- Nobody runs but the current fiber, and whoever is ready is queued. -/
structure Orderly (s : Scheduler) : Prop where
  cons : s.Consistent
  queue : ∀ id, s.HasState id .ready → id ∈ s.ready
  waiting : ∀ f ∈ s.others, f.state = .ready ∨ f.state = .blocked

/-- The fibers are the same, apart from their states, and only those whose time has come are blocked no more. -/
structure Continues (s s' : Scheduler) : Prop where
  fibers : (s'.live.map Fiber.resting).Perm (s.live.map Fiber.resting)
  timers : s'.timers.Sublist s.timers
  nextId : s'.nextId = s.nextId
  blocked : ∀ id, s.HasState id .blocked → s'.HasState id .blocked ∨ id ∈ s.timers.map Timer.fiber

section States

variable {s s' : Scheduler} {id k : Nat} {state : FiberState}

theorem Consistent.hasState_unique (cons : s.Consistent) {a b : FiberState} (is : s.HasState id a)
    (is' : s.HasState id b) : a = b := by
  rcases is with ⟨own, rfl⟩ | ⟨f, mem, own, rfl⟩ <;> rcases is' with ⟨own', rfl⟩ | ⟨g, mem', own', rfl⟩
  · rfl
  · exact absurd (own'.trans own.symm) (cons.apart g mem')
  · exact absurd (own.trans own'.symm) (cons.apart f mem)
  · rw [cons.unique mem mem' (own.trans own'.symm)]

theorem Consistent.hasState_lt (cons : s.Consistent) (is : s.HasState id state) : id < s.nextId := by
  rcases is with ⟨rfl, -⟩ | ⟨f, mem, rfl, -⟩
  · exact cons.current_lt
  · exact cons.others_lt f mem

theorem Undisturbed.hasState (u : s.Undisturbed s') : s'.HasState id state ↔ s.HasState id state := by
  rw [HasState, HasState, u.id, u.state, u.others]

/-- What waking does: nothing, unless the fiber is blocked. -/
theorem wake_cases (s : Scheduler) (id : Nat) : s.wake id = s ∨
    (s.current.id = id ∧ s.current.state = .blocked ∧
      s.wake id = { s with current := { s.current with state := .ready }, ready := s.ready ++ [id] }) ∨
    (s.current.id ≠ id ∧ s.wake id = { s with
      others := s.others.map fun f => if f.id = id then { f with state := .ready } else f
      ready := s.ready ++ [id] }) := by
  unfold wake
  split
  · next own =>
    split
    · next blocked => exact .inr (.inl ⟨own, blocked, rfl⟩)
    · exact .inl rfl
  · next foreign =>
    split
    · exact .inr (.inr ⟨foreign, rfl⟩)
    · exact .inl rfl

theorem hasState_wake_of_ne (ne : k ≠ id) : (s.wake id).HasState k state ↔ s.HasState k state := by
  rcases s.wake_cases id with same | ⟨own, -, same⟩ | ⟨-, same⟩ <;> rw [same]
  · refine or_congr_left ⟨fun ⟨eq, _⟩ => absurd (eq.symm.trans own) ne, fun ⟨eq, _⟩ => absurd (eq.symm.trans own) ne⟩
  · refine or_congr_right ?_
    simp only [List.mem_map]
    constructor
    · rintro ⟨-, ⟨f, mem, rfl⟩, eq, is⟩
      split at eq
      · next here => exact absurd (eq.symm.trans here) ne
      · next there =>
        rw [if_neg there] at is
        exact ⟨f, mem, eq, is⟩
    · rintro ⟨f, mem, eq, is⟩
      exact ⟨f, ⟨f, mem, if_neg (eq ▸ ne)⟩, eq, is⟩

theorem hasState_foldl_wake {α : Type} (ids : List α) (f : α → Nat) (s : Scheduler) (other : k ∉ ids.map f) :
    (ids.foldl (fun s id => s.wake (f id)) s).HasState k state ↔ s.HasState k state := by
  induction ids generalizing s with
  | nil => rfl
  | cons id ids ih =>
    rw [List.map_cons, List.mem_cons, not_or] at other
    rw [List.foldl_cons, ih _ other.2, hasState_wake_of_ne other.1]

theorem hasState_deliver (s : Scheduler) (v : Addr) :
    (s.deliver k v).HasState id state ↔ s.HasState id state := by
  unfold deliver
  split
  · exact (Undisturbed.deliverSaved s v).hasState
  · refine or_congr_right ?_
    simp only [List.mem_map]
    constructor
    · rintro ⟨-, ⟨f, mem, rfl⟩, eq, is⟩
      refine ⟨f, mem, ?_, ?_⟩
      · rw [← eq]
        split <;> rfl
      · rw [← is]
        split <;> rfl
    · rintro ⟨f, mem, eq, is⟩
      refine ⟨_, ⟨f, mem, rfl⟩, ?_, ?_⟩
      · rw [← eq]
        split <;> rfl
      · rw [← is]
        split <;> rfl

theorem timers_deliver (s : Scheduler) (k : Nat) (v : Addr) : (s.deliver k v).timers = s.timers := by
  unfold deliver
  split
  · exact (Undisturbed.deliverSaved s v).timers
  · rfl

end States

section Waking

variable {α : Type} {s : Scheduler} {id : Nat}

theorem current_id_wake (s : Scheduler) (id : Nat) : (s.wake id).current.id = s.current.id := by
  rcases s.wake_cases id with same | ⟨-, -, same⟩ | ⟨-, same⟩ <;> rw [same]

/-- A blocked fiber that is woken is ready, and is the last in the queue. -/
theorem Consistent.wake_blocked (cons : s.Consistent) (blocked : s.HasState id .blocked) :
    (s.wake id).HasState id .ready ∧ (s.wake id).ready = s.ready ++ [id] := by
  rcases blocked with ⟨own, is⟩ | ⟨f, mem, own, is⟩
  · rw [Scheduler.wake, if_pos own, if_pos is]
    exact ⟨.inl ⟨own, rfl⟩, rfl⟩
  · have foreign : s.current.id ≠ id := fun same => cons.apart f mem (own.trans same.symm)
    have waits : (s.others.any fun g => g.id == id && g.state == .blocked) = true :=
      List.any_eq_true.2 ⟨f, mem, by simp [own, is]⟩
    rw [Scheduler.wake, if_neg foreign, if_pos waits]
    exact ⟨.inr ⟨_, List.mem_map_of_mem mem, by rw [if_pos own]; exact ⟨own, rfl⟩⟩, rfl⟩

/-- Waking someone makes nobody less ready. -/
theorem Consistent.ready_wake (cons : s.Consistent) (ready : s.HasState id .ready) (k : Nat) :
    (s.wake k).HasState id .ready := by
  by_cases same : id = k
  · subst same
    rcases s.wake_cases id with same | ⟨own, blocked, -⟩ | ⟨foreign, same⟩
    · rwa [same]
    · cases cons.hasState_unique ready (.inl ⟨own, blocked⟩)
    · obtain ⟨f, mem, own, -⟩ := ready.resolve_left fun own => foreign own.1
      rw [same]
      exact .inr ⟨_, List.mem_map_of_mem mem, by rw [if_pos own]; exact ⟨own, rfl⟩⟩
  · exact (hasState_wake_of_ne same).2 ready

theorem Consistent.ready_foldl_wake (cons : s.Consistent) (ready : s.HasState id .ready) (ids : List α)
    (f : α → Nat) : (ids.foldl (fun s x => s.wake (f x)) s).HasState id .ready := by
  induction ids generalizing s with
  | nil => exact ready
  | cons x ids ih => exact ih (cons.wake (f x)) (cons.ready_wake ready (f x))

theorem Consistent.foldl_wake_ready (cons : s.Consistent) (blocked : s.HasState id .blocked) {ids : List α}
    {f : α → Nat} (mem : id ∈ ids.map f) : (ids.foldl (fun s x => s.wake (f x)) s).HasState id .ready := by
  induction ids generalizing s with
  | nil => cases mem
  | cons x ids ih =>
    by_cases own : id = f x
    · subst own
      exact (cons.wake (f x)).ready_foldl_wake (cons.wake_blocked blocked).1 ids f
    · exact ih (cons.wake (f x)) ((hasState_wake_of_ne own).2 blocked) ((List.mem_cons.1 mem).resolve_left own)

/-- Blocked fibers that are woken are queued in this order. -/
theorem Consistent.foldl_wake_queue (cons : s.Consistent) {ids : List α} {f : α → Nat} (once : (ids.map f).Nodup)
    (blocked : ∀ id ∈ ids.map f, s.HasState id .blocked) :
    (ids.foldl (fun s x => s.wake (f x)) s).ready = s.ready ++ ids.map f := by
  induction ids generalizing s with
  | nil => rw [List.map_nil, List.append_nil]; rfl
  | cons x ids ih =>
    rw [List.map_cons, List.nodup_cons] at once
    have first := (cons.wake_blocked (blocked (f x) List.mem_cons_self)).2
    rw [List.foldl_cons, ih (cons.wake (f x)) once.2 fun id mem => ?_, first, List.append_assoc, List.map_cons,
      List.singleton_append]
    have other : id ≠ f x := fun same => once.1 (same ▸ mem)
    exact (hasState_wake_of_ne other).2 (blocked id (List.mem_cons_of_mem _ mem))

theorem wake_of_not_blocked (idle : ¬ s.HasState id .blocked) : s.wake id = s := by
  rcases s.wake_cases id with same | ⟨own, blocked, -⟩ | ⟨foreign, -⟩
  · exact same
  · exact absurd (.inl ⟨own, blocked⟩) idle
  · have none : (s.others.any fun g => g.id == id && g.state == .blocked) = false := by
      refine List.any_eq_false.2 fun g mem => ?_
      simp only [Bool.and_eq_true, beq_iff_eq]
      exact fun ⟨own, is⟩ => idle (.inr ⟨g, mem, own, is⟩)
    rw [Scheduler.wake, if_neg foreign, none, if_neg (by decide)]

theorem foldl_wake_of_not_blocked {ids : List α} {f : α → Nat} (idle : ∀ id ∈ ids.map f, ¬ s.HasState id .blocked) :
    ids.foldl (fun s x => s.wake (f x)) s = s := by
  induction ids with
  | nil => rfl
  | cons x ids ih =>
    rw [List.foldl_cons, wake_of_not_blocked (idle (f x) List.mem_cons_self)]
    exact ih fun id mem => idle id (List.mem_cons_of_mem _ mem)

end Waking

section Orderly

variable {s s' : Scheduler}

/-- Consistency is all that is left of fitness when anything can play any role. -/
theorem Consistent.fit (cons : s.Consistent) : s.Fit fun _ _ => True :=
  ⟨cons, fun _ => ⟨trivial, fun _ _ => .inl trivial, fun _ _ => trivial⟩,
    fun _ _ => ⟨trivial, fun _ _ => .inl trivial, fun _ _ => trivial⟩⟩

namespace Orderly

theorem undisturbed (orderly : s.Orderly) (u : s.Undisturbed s') : s'.Orderly := by
  refine ⟨?_, fun id is => ?_, ?_⟩
  · exact (orderly.cons.fit.of_current u.others u.ready u.nextId u.id u.state fun alive =>
      ⟨trivial, fun _ _ => .inl trivial, fun _ _ => trivial⟩).cons
  · rw [u.ready]
    exact orderly.queue id (u.hasState.1 is)
  · rw [u.others]
    exact orderly.waiting

theorem wake (orderly : s.Orderly) (id : Nat) : (s.wake id).Orderly := by
  refine ⟨orderly.cons.wake id, ?_, ?_⟩
  · intro k is
    by_cases eq : k = id
    · subst eq
      rcases s.wake_cases k with same | ⟨-, -, same⟩ | ⟨-, same⟩
      · rw [same] at is ⊢
        exact orderly.queue k is
      · rw [same]
        exact List.mem_append_right _ List.mem_cons_self
      · rw [same]
        exact List.mem_append_right _ List.mem_cons_self
    · have before := orderly.queue k ((hasState_wake_of_ne eq).1 is)
      rcases s.wake_cases id with same | ⟨-, -, same⟩ | ⟨-, same⟩ <;> rw [same]
      · exact before
      · exact List.mem_append_left _ before
      · exact List.mem_append_left _ before
  · rcases s.wake_cases id with same | ⟨-, -, same⟩ | ⟨-, same⟩ <;> rw [same]
    · exact orderly.waiting
    · exact orderly.waiting
    · intro f mem
      obtain ⟨g, inside, rfl⟩ := List.mem_map.1 mem
      split
      · exact .inl rfl
      · exact orderly.waiting g inside

theorem foldl_wake {α : Type} (orderly : s.Orderly) (ids : List α) (f : α → Nat) :
    (ids.foldl (fun s id => s.wake (f id)) s).Orderly := by
  induction ids generalizing s with
  | nil => exact orderly
  | cons id ids ih => exact ih (orderly.wake (f id))

theorem setTimers (orderly : s.Orderly) (timers : List Timer) : Orderly { s with timers } := by
  obtain ⟨⟨apart, distinct, current_lt, others_lt, queued, once⟩, queue, waiting⟩ := orderly
  exact ⟨⟨apart, distinct, current_lt, others_lt, queued, once⟩, queue, waiting⟩

theorem deliver (orderly : s.Orderly) (id : Nat) (v : Addr) : (s.deliver id v).Orderly := by
  refine ⟨(orderly.cons.fit.deliver (.inl trivial) id).cons, fun k is => ?_, ?_⟩
  · have before := orderly.queue k ((hasState_deliver s v).1 is)
    unfold Scheduler.deliver
    split
    · exact (Undisturbed.deliverSaved s v).ready ▸ before
    · exact before
  · unfold Scheduler.deliver
    split
    · rw [(Undisturbed.deliverSaved s v).others]
      exact orderly.waiting
    · intro f mem
      obtain ⟨g, inside, rfl⟩ := List.mem_map.1 mem
      split <;> exact orderly.waiting g inside

/-- The current fiber gives up. -/
theorem stop (orderly : s.Orderly) (running : s.current.state = .running) (state : FiberState)
    (idle : state ≠ .ready) (timers : List Timer) :
    Orderly { s with current := { s.current with state := state }, timers } := by
  refine ⟨(orderly.cons.fit.stop running timers).cons, ?_, orderly.waiting⟩
  rintro id (⟨-, is⟩ | other)
  · exact absurd is idle
  · exact orderly.queue id (.inr other)

theorem spawn (orderly : s.Orderly) (pc : Int) (env : Addr) : (s.spawn pc env).Orderly := by
  refine ⟨(orderly.cons.fit.spawn trivial pc).cons, ?_, ?_⟩
  · rintro id (own | ⟨f, mem, rfl, is⟩)
    · exact List.mem_append_left _ (orderly.queue id (.inl own))
    · rcases mem_insertFiber.1 mem with rfl | mem
      · exact List.mem_append_right _ List.mem_cons_self
      · exact List.mem_append_left _ (orderly.queue f.id (.inr ⟨f, mem, rfl, is⟩))
  · intro f mem
    rcases mem_insertFiber.1 mem with rfl | mem
    · exact .inl rfl
    · exact orderly.waiting f mem

theorem preempt (orderly : s.Orderly) (running : s.current.state = .running) : s.preempt.Orderly := by
  refine ⟨(orderly.cons.fit.preempt running).cons, ?_, orderly.waiting⟩
  rintro id (⟨rfl, -⟩ | other)
  · exact List.mem_append_right _ List.mem_cons_self
  · exact List.mem_append_left _ (orderly.queue id (.inr other))

end Orderly

theorem Orderly.poll (orderly : s.Orderly) : s.poll.Orderly := by
  refine poll_invariant (fun s id orderly => orderly.wake id) (fun s timers clock orderly => ?_) orderly
  exact (orderly.setTimers timers).undisturbed (.clock _ clock)

theorem Orderly.resume (orderly : s.Orderly) (some : s.ready ≠ []) (idle : s.current.state ≠ .running) :
    s.resume.Orderly ∧ s.resume.current.state = .running := by
  have cons := orderly.cons
  obtain ⟨id, rest, ready⟩ := List.exists_cons_of_ne_nil some
  have queue : ∀ k, s.HasState k .ready → k ≠ id → k ∈ rest := fun k is ne =>
    (List.mem_cons.1 (ready ▸ orderly.queue k is)).resolve_left ne
  obtain ⟨left, -, -, ⟨own, -, current, others⟩ | ⟨f, -, fid, -, foreign, current, others⟩⟩ := cons.resume_cases ready
  · refine ⟨⟨(cons.fit.resume some).1.cons, ?_, others ▸ orderly.waiting⟩, (cons.fit.resume some).2⟩
    rintro k (⟨-, is⟩ | ⟨g, mem, rfl, is⟩)
    · rw [current] at is
      cases is
    · rw [others] at mem
      exact left ▸ queue g.id (.inr ⟨g, mem, rfl, is⟩) (own ▸ cons.apart g mem)
  · have table : ∀ g ∈ s.resume.others, (g = s.current ∧ s.current.state ≠ .terminated) ∨
        g ∈ s.others ∧ g.id ≠ id := by
      intro g mem
      rw [others] at mem
      exact mem_exchanged.1 mem
    refine ⟨⟨(cons.fit.resume some).1.cons, ?_, ?_⟩, (cons.fit.resume some).2⟩
    · rintro k (⟨-, is⟩ | ⟨g, mem, rfl, is⟩)
      · rw [current] at is
        cases is
      · rw [left]
        rcases table g mem with ⟨rfl, -⟩ | ⟨mem, ne⟩
        · exact queue _ (.inl ⟨rfl, is⟩) foreign
        · exact queue _ (.inr ⟨g, mem, rfl, is⟩) ne
    · intro g mem
      rcases table g mem with ⟨rfl, alive⟩ | ⟨mem, -⟩
      · cases state : s.current.state with
        | ready => exact .inl rfl
        | blocked => exact .inr rfl
        | running => exact absurd state idle
        | terminated => exact absurd state alive
      · exact orderly.waiting g mem

theorem Consistent.hasState_resume (cons : s.Consistent) (some : s.ready ≠ []) {id : Nat}
    (blocked : s.HasState id .blocked) : s.resume.HasState id .blocked := by
  obtain ⟨k, rest, ready⟩ := List.exists_cons_of_ne_nil some
  obtain ⟨-, -, -, ⟨own, is, -, others⟩ | ⟨f, mem, rfl, is, foreign, -, others⟩⟩ := cons.resume_cases ready
  · rcases blocked with ⟨-, blocked⟩ | other
    · rw [is] at blocked
      cases blocked
    · exact .inr (others ▸ other)
  · refine .inr ?_
    rw [others]
    rcases blocked with ⟨rfl, blocked⟩ | ⟨g, inside, rfl, blocked⟩
    · exact ⟨s.current, mem_exchanged.2 (.inl ⟨rfl, by rw [blocked]; decide⟩), rfl, blocked⟩
    · refine ⟨g, mem_exchanged.2 (.inr ⟨inside, fun same => ?_⟩), rfl, blocked⟩
      rw [cons.unique inside mem same, is] at blocked
      cases blocked

end Orderly

section Continues

variable {s s' s'' : Scheduler}

theorem perm_live (s : Scheduler) :
    s.live.Perm ((if s.current.state = .terminated then [] else [s.current]) ++ s.others) := by
  unfold live
  split
  · exact .refl _
  · exact perm_insertFiber _ _

theorem Consistent.nodup_live (cons : s.Consistent) : (s.live.map Fiber.id).Nodup := by
  refine (s.perm_live.map Fiber.id).nodup_iff.2 ?_
  split
  · exact cons.distinct
  · refine List.nodup_cons.2 ⟨fun mem => ?_, cons.distinct⟩
    obtain ⟨f, inside, same⟩ := List.mem_map.1 mem
    exact cons.apart f inside same

theorem Consistent.find_live (cons : s.Consistent) {f : Fiber} (mem : f ∈ s.live) :
    s.live.find? (fun g => g.id == f.id) = some f := by
  obtain ⟨g, found⟩ : ∃ g, s.live.find? (fun g => g.id == f.id) = some g :=
    Option.isSome_iff_exists.1 (List.find?_isSome.2 ⟨f, mem, beq_self_eq_true f.id⟩)
  have same : g.id = f.id := by simpa using List.find?_some found
  rw [found, List.inj_on_of_nodup_map cons.nodup_live (List.mem_of_find?_eq_some found) mem same]

theorem perm_resting (current : s'.current.resting = s.current.resting)
    (ended : s'.current.state = .terminated ↔ s.current.state = .terminated)
    (others : s'.others.map Fiber.resting = s.others.map Fiber.resting) :
    (s'.live.map Fiber.resting).Perm (s.live.map Fiber.resting) := by
  refine (s'.perm_live.map _).trans (.trans (.of_eq ?_) (s.perm_live.map _).symm)
  rw [List.map_append, List.map_append, others]
  congr 1
  by_cases dead : s.current.state = .terminated
  · rw [if_pos dead, if_pos (ended.2 dead)]
  · rw [if_neg dead, if_neg (mt ended.1 dead), List.map_singleton, List.map_singleton, current]

namespace Continues

theorem refl (s : Scheduler) : s.Continues s := ⟨.refl _, .refl _, rfl, fun _ => .inl⟩

theorem trans (c : s.Continues s') (c' : s'.Continues s'') : s.Continues s'' := by
  refine ⟨c'.fibers.trans c.fibers, c'.timers.trans c.timers, c'.nextId.trans c.nextId, fun id blocked => ?_⟩
  rcases c.blocked id blocked with blocked | due
  · exact (c'.blocked id blocked).imp_right fun due => (c.timers.map _).subset due
  · exact .inr due

theorem of_same (u : s.Undisturbed s') (current : s'.current = s.current) : s.Continues s' :=
  ⟨perm_resting (congrArg _ current) (by rw [current]) (by rw [u.others]), u.timers ▸ .refl _, u.nextId,
    fun _ is => .inl (u.hasState.2 is)⟩

end Continues

theorem resting_wake (s : Scheduler) (id : Nat) :
    ((s.wake id).live.map Fiber.resting).Perm (s.live.map Fiber.resting) := by
  rcases s.wake_cases id with same | ⟨-, blocked, same⟩ | ⟨-, same⟩ <;> rw [same]
  · exact perm_resting rfl ⟨nofun, fun dead => by rw [blocked] at dead; cases dead⟩ rfl
  · refine perm_resting rfl .rfl ?_
    rw [List.map_map]
    refine List.map_congr_left fun f _ => ?_
    dsimp only [Function.comp_apply]
    split <;> rfl

theorem Continues.poll (s : Scheduler) : s.Continues s.poll := by
  refine ⟨?_, ?_, ?_, ?_⟩
  · exact poll_invariant (P := fun s' => (s'.live.map Fiber.resting).Perm (s.live.map Fiber.resting))
      (fun s' id perm => (s'.resting_wake id).trans perm) (fun _ _ _ perm => perm) (.refl _)
  · rw [poll_timers]
    exact List.dropWhile_sublist _
  · exact poll_invariant (P := fun s' => s'.nextId = s.nextId) (fun s' id same => (s'.nextId_wake id).trans same)
      (fun _ _ _ same => same) rfl
  · intro id blocked
    by_cases due : id ∈ s.timers.map Timer.fiber
    · exact .inr due
    · refine .inl ?_
      cases timers : s.timers with
      | nil => rwa [poll_nil timers]
      | cons t rest =>
        rw [poll_cons timers]
        refine (hasState_foldl_wake _ Timer.fiber _ fun mem => due ?_).2 blocked
        exact ((List.takeWhile_sublist _).map _).subset mem

theorem Continues.preempt (running : s.current.state = .running) : s.Continues s.preempt := by
  refine ⟨perm_resting rfl ⟨nofun, fun dead => by rw [running] at dead; cases dead⟩ rfl, .refl _, rfl, ?_⟩
  rintro id (⟨-, blocked⟩ | other)
  · rw [running] at blocked
    cases blocked
  · exact .inl (.inr other)

theorem Consistent.perm_filter (cons : s.Consistent) {f : Fiber} (mem : f ∈ s.others) :
    s.others.Perm (f :: s.others.filter fun g => g.id != f.id) := by
  obtain ⟨before, after, split⟩ := List.append_of_mem mem
  have distinct := cons.distinct
  rw [split, List.map_append, List.map_cons, List.nodup_append, List.nodup_cons] at distinct
  obtain ⟨-, ⟨fresh, -⟩, apart⟩ := distinct
  have kept : s.others.filter (fun g => g.id != f.id) = before ++ after := by
    rw [split, List.filter_append, List.filter_cons_of_neg (by simp), List.filter_eq_self.2, List.filter_eq_self.2]
    · intro g inside
      simp only [bne_iff_ne, ne_eq]
      exact fun same => fresh (same ▸ List.mem_map_of_mem inside)
    · intro g inside
      simp only [bne_iff_ne, ne_eq]
      exact apart _ (List.mem_map_of_mem inside) _ List.mem_cons_self
  rw [kept, split]
  exact List.perm_middle

theorem Consistent.continues_resume (cons : s.Consistent) (some : s.ready ≠ []) : s.Continues s.resume := by
  obtain ⟨k, rest, ready⟩ := List.exists_cons_of_ne_nil some
  obtain ⟨-, timers, nextId, table⟩ := cons.resume_cases ready
  refine ⟨?_, timers ▸ .refl _, nextId, fun id blocked => .inl (cons.hasState_resume some blocked)⟩
  rcases table with ⟨-, is, current, others⟩ | ⟨f, mem, rfl, -, -, current, others⟩
  · refine perm_resting (by rw [current]; rfl) ?_ (by rw [others])
    rw [current, is]
    exact ⟨nofun, nofun⟩
  · -- The fiber resumed leaves the others, and the current one joins them unless it has ended.
    have after := s.resume.perm_live.map Fiber.resting
    rw [if_neg (by rw [current]; exact nofun), current] at after
    have before := (s.perm_live.trans ((cons.perm_filter mem).append_left _)).map Fiber.resting
    refine after.trans (.trans ?_ before.symm)
    rw [others]
    split
    · exact .refl _
    · exact (((perm_insertFiber _ _).cons _).trans (.swap ..)).map Fiber.resting

end Continues

/-- Whoever is parked is blocked, and is parked in one place only. Places are the nodes of the heap and, for
those who sleep, `none`. -/
structure Parked (places : Option Addr → List Nat) (s : Scheduler) : Prop where
  once : ∀ p, (places p).Nodup
  apart : ∀ p q id, id ∈ places p → id ∈ places q → p = q
  blocked : ∀ p, ∀ id ∈ places p, s.HasState id .blocked

/-- Some fibers leave a place and others come, and the other places lose some of theirs. -/
theorem Parked.shift {places places' : Option Addr → List Nat} {s s' : Scheduler} (parked : Parked places s)
    (p : Option Addr) (woken new : List Nat) (new_once : new.Nodup) (fresh : ∀ id ∈ new, ¬ s.HasState id .blocked)
    (here : (woken ++ places' p).Subperm (places p ++ new)) (there : ∀ q, q ≠ p → (places' q).Subperm (places q))
    (stays : ∀ id, s.HasState id .blocked → id ∉ woken → s'.HasState id .blocked)
    (comes : ∀ id ∈ new, s'.HasState id .blocked) : Parked places' s' := by
  have once : (woken ++ places' p).Nodup := by
    obtain ⟨l, perm, sub⟩ := here
    refine perm.nodup_iff.1 (List.Nodup.sublist sub (List.nodup_append.2 ⟨parked.once p, new_once, ?_⟩))
    rintro id mem k mem' rfl
    exact fresh id mem' (parked.blocked p id mem)
  obtain ⟨-, once', gone⟩ := List.nodup_append.1 once
  have before : ∀ id ∈ places' p, id ∈ places p ∨ id ∈ new := fun id mem =>
    List.mem_append.1 (here.subset (List.mem_append_right _ mem))
  -- Nobody at another place is among those who leave or come.
  have elsewhere : ∀ {q id}, q ≠ p → id ∈ places' q → id ∈ places q ∧ id ∉ places p ∧ id ∉ new := by
    intro q id ne mem
    have mem := (there q ne).subset mem
    exact ⟨mem, fun mem' => ne (parked.apart q p id mem mem'), fun mem' => fresh id mem' (parked.blocked q id mem)⟩
  refine ⟨fun q => ?_, fun q r id mem mem' => ?_, fun q id mem => ?_⟩
  · by_cases eq : q = p
    · exact eq ▸ once'
    · obtain ⟨l, perm, sub⟩ := there q eq
      exact perm.nodup_iff.1 (List.Nodup.sublist sub (parked.once q))
  · by_cases eq : q = p <;> by_cases eq' : r = p
    · exact eq.trans eq'.symm
    · obtain ⟨-, out, out'⟩ := elsewhere eq' mem'
      exact ((before id (eq ▸ mem)).elim out out').elim
    · obtain ⟨-, out, out'⟩ := elsewhere eq mem
      exact ((before id (eq' ▸ mem')).elim out out').elim
    · exact parked.apart q r id ((there q eq).subset mem) ((there r eq').subset mem')
  · by_cases eq : q = p
    · subst eq
      refine (before id mem).elim (fun mem' => ?_) (comes id)
      exact stays id (parked.blocked q id mem') fun left => gone id left id mem rfl
    · obtain ⟨mem, out, out'⟩ := elsewhere eq mem
      refine stays id (parked.blocked q id mem) fun left => ?_
      exact (List.mem_append.1 (here.subset (List.mem_append_left _ left))).elim out out'

/-- Where fibers are parked, the timers included. -/
def places (s : Scheduler) (nodes : Addr → List Nat) : Option Addr → List Nat
  | none => s.timers.map Timer.fiber
  | some a => nodes a

/-- The table, the queue and the places agree. -/
structure InOrder (nodes : Addr → List Nat) (s : Scheduler) : Prop extends Orderly s where
  parked : Parked (s.places nodes) s

theorem perm_arm (t : Timer) (ts : List Timer) : (arm t ts).Perm (t :: ts) := by
  induction ts with
  | nil => exact .refl _
  | cons u ts ih =>
    rw [arm]
    split
    · exact .refl _
    · exact (ih.cons u).trans (.swap ..)

theorem timers_foldl_wake {α : Type} (ids : List α) (f : α → Nat) (s : Scheduler) :
    (ids.foldl (fun s id => s.wake (f id)) s).timers = s.timers := by
  induction ids generalizing s with
  | nil => rfl
  | cons id ids ih => rw [List.foldl_cons, ih, wake_timers]

namespace InOrder

variable {s s' : Scheduler} {W W' : Addr → List Nat} {a : Addr}

theorem stay (order : s.InOrder W) (orderly : s'.Orderly) (timers : s'.timers = s.timers)
    (fewer : ∀ a, (W' a).Subperm (W a)) (stays : ∀ id, s.HasState id .blocked → s'.HasState id .blocked) :
    s'.InOrder W' := by
  refine ⟨orderly, order.parked.shift none [] [] List.nodup_nil nofun ?_ ?_ (fun id is _ => stays id is) nofun⟩
  · rw [List.nil_append, List.append_nil, places, places, timers]
  · intro q ne
    cases q with
    | none => exact absurd rfl ne
    | some a => exact fewer a

theorem undisturbed (order : s.InOrder W) (u : s.Undisturbed s') : s'.InOrder W :=
  order.stay (order.toOrderly.undisturbed u) u.timers (fun _ => .refl _) fun _ => u.hasState.2

theorem fewer (order : s.InOrder W) (fewer : ∀ a, (W' a).Subperm (W a)) : s.InOrder W' :=
  order.stay order.toOrderly rfl fewer fun _ => id

theorem spawn (order : s.InOrder W) (pc : Int) (env : Addr) : (s.spawn pc env).InOrder W := by
  refine order.stay (order.toOrderly.spawn pc env) rfl (fun _ => .refl _) ?_
  rintro id (own | ⟨f, mem, is⟩)
  · exact .inl own
  · exact .inr ⟨f, mem_insertFiber.2 (.inr mem), is⟩

theorem deliver (order : s.InOrder W) (k : Nat) (v : Addr) : (s.deliver k v).InOrder W :=
  order.stay (order.toOrderly.deliver k v) (s.timers_deliver k v) (fun _ => .refl _) fun _ =>
    (hasState_deliver s v).2

section Running

variable (order : s.InOrder W) (running : s.current.state = .running)

include order running

/-- Whoever is blocked is not the fiber that runs. -/
theorem not_blocked : ¬ s.HasState s.current.id .blocked := fun blocked => by
  cases order.cons.hasState_unique blocked (.inl ⟨rfl, running⟩)

/-- If the current fiber gives up, those who are blocked stay so. -/
theorem stays_stop {id : Nat} (blocked : s.HasState id .blocked) (state : FiberState) (timers : List Timer) :
    HasState { s with current := { s.current with state := state }, timers } id .blocked := by
  rcases blocked with ⟨rfl, blocked⟩ | other
  · exact absurd (.inl ⟨rfl, blocked⟩) (order.not_blocked running)
  · exact .inr other

theorem terminate : s.terminate.InOrder W :=
  order.stay (order.toOrderly.stop running .terminated nofun s.timers) rfl (fun _ => .refl _)
    fun _ is => order.stays_stop running is .terminated s.timers

theorem preempt : s.preempt.InOrder W :=
  order.stay (order.toOrderly.preempt running) rfl (fun _ => .refl _) fun _ is =>
    order.stays_stop running is .ready s.timers

theorem block (timers : List Timer) (p : Option Addr)
    (here : (places { s with timers } W' p).Perm (s.places W p ++ [s.current.id]))
    (there : ∀ q, q ≠ p → places { s with timers } W' q = s.places W q) :
    InOrder W' { s with current := { s.current with state := .blocked }, timers } := by
  refine ⟨order.toOrderly.stop running .blocked nofun timers, order.parked.shift p [] [s.current.id] (List.nodup_singleton _)
    ?_ ?_ ?_ ?_ ?_⟩
  · simpa using order.not_blocked running
  · exact here.subperm
  · exact fun q ne => there q ne ▸ .refl _
  · exact fun id is _ => order.stays_stop running is .blocked timers
  · intro id mem
    exact .inl ⟨(List.mem_singleton.1 mem).symm, rfl⟩

theorem park (here : W' a = W a ++ [s.current.id]) (there : ∀ b, b ≠ a → W' b = W b) : s.park.InOrder W' := by
  refine order.block running s.timers (some a) (.of_eq here) ?_
  intro q ne
  cases q with
  | none => rfl
  | some b => exact there b fun eq => ne (congrArg some eq)

theorem doze (deadline : Int) : (s.doze deadline).InOrder W := by
  refine order.block running _ none ?_ ?_
  · exact ((perm_arm _ _).map Timer.fiber).trans (List.perm_append_singleton _ _).symm
  · intro q ne
    cases q with
    | none => exact absurd rfl ne
    | some b => rfl

end Running

theorem release {α : Type} (order : s.InOrder W) (ids : List α) (f : α → Nat) (timers : List Timer)
    (p : Option Addr) (here : s.places W p = ids.map f ++ places { s with timers } W' p)
    (there : ∀ q, q ≠ p → places { s with timers } W' q = s.places W q) :
    InOrder W' (ids.foldl (fun s id => s.wake (f id)) { s with timers }) := by
  have same : places (ids.foldl (fun s id => s.wake (f id)) { s with timers }) W' = places { s with timers } W' := by
    funext q
    cases q with
    | none => exact congrArg _ (timers_foldl_wake ids f _)
    | some b => rfl
  refine ⟨(order.toOrderly.setTimers timers).foldl_wake ids f, ?_⟩
  rw [same]
  refine order.parked.shift p (ids.map f) [] List.nodup_nil nofun ?_ ?_ ?_ nofun
  · rw [List.append_nil, here]
  · exact fun q ne => there q ne ▸ .refl _
  · exact fun id is other => (hasState_foldl_wake ids f _ other).2 is

theorem look (order : s.InOrder W) : s.look.InOrder W := order.undisturbed (.clock s _)

theorem wakeDue (order : s.InOrder W) : s.wakeDue.InOrder W := by
  refine order.release _ Timer.fiber _ none ?_ ?_
  · rw [places, places, ← List.map_append, List.takeWhile_append_dropWhile]
  · intro q ne
    cases q with
    | none => exact absurd rfl ne
    | some b => rfl

theorem poll (order : s.InOrder W) : s.poll.InOrder W := by
  unfold Scheduler.poll
  split
  · exact order
  · exact order.look.wakeDue

theorem wake (order : s.InOrder W) {id : Nat} (here : W a = id :: W' a) (there : ∀ b, b ≠ a → W' b = W b) :
    (s.wake id).InOrder W' := by
  refine order.release [id] (fun id => id) s.timers (some a) here ?_
  intro q ne
  cases q with
  | none => rfl
  | some b => exact there b fun eq => ne (congrArg some eq)

theorem resume (order : s.InOrder W) (some : s.ready ≠ []) (idle : s.current.state ≠ .running) :
    s.resume.InOrder W ∧ s.resume.current.state = .running := by
  obtain ⟨orderly, running⟩ := order.toOrderly.resume some idle
  obtain ⟨id, rest, ready⟩ := List.exists_cons_of_ne_nil some
  obtain ⟨-, timers, -⟩ := order.cons.resume_cases ready
  exact ⟨order.stay orderly timers (fun _ => .refl _) fun _ => order.cons.hasState_resume some, running⟩

end InOrder

section Scheduling

variable {s s' : Scheduler} {W : Addr → List Nat} {canceled : Bool}

theorem poll_idle (idle : s.current.state ≠ .running) : s.poll.current.state ≠ .running := by
  refine poll_invariant (P := fun s => s.current.state ≠ .running) (fun s id idle => ?_) (fun _ _ _ idle => idle) idle
  rcases s.wake_cases id with same | ⟨-, -, same⟩ | ⟨-, same⟩ <;> rw [same]
  · exact idle
  · exact nofun
  · exact idle

/-- However a scheduling decision ends, the fibers are the same. -/
def Resumes (s : Scheduler) : EStateM.Result Cause Scheduler Unit → Prop
  | .ok _ s' | .error _ s' => s.Continues s'

theorem Continues.resumes {r : EStateM.Result Cause Scheduler Unit} (continues : s.Continues s') (resumes : s'.Resumes r) :
    s.Resumes r := by
  cases r with
  | ok _ _ => exact continues.trans resumes
  | error _ _ => exact continues.trans resumes

theorem awaitReady_resumes (canceled : Bool) (s : Scheduler) : s.Resumes (awaitReady canceled s) := by
  fun_induction Scheduler.awaitReady canceled s with
  | case1 s | case2 s | case4 s => exact Continues.refl s
  | case3 s _ t _ _ _ ih =>
    have slept : s.Undisturbed (s.sleepUntil t.deadline) := .clock s _
    exact ((Continues.of_same slept rfl).trans (.poll _)).resumes ih

theorem Consistent.next_resumes (cons : s.Consistent) : s.Resumes (next canceled s) := by
  have ready := awaitReady_fit canceled s.poll cons.fit.poll
  have waits := (Continues.poll s).resumes (awaitReady_resumes canceled s.poll)
  unfold Scheduler.next
  cases run : Scheduler.awaitReady canceled s.poll with
  | ok _ s' =>
    rw [run] at ready waits
    exact Continues.trans waits (ready.1.cons.continues_resume ready.2)
  | error _ s' =>
    rw [run] at waits
    exact waits

theorem Consistent.reschedule_resumes (cons : s.Consistent) : s.Resumes (reschedule canceled s) := by
  by_cases running : s.current.state = .running
  · have charged : s.Undisturbed s.charge := .charge s
    have fit : s.charge.poll.Fit fun _ _ => True :=
      (cons.fit.of_current rfl rfl rfl rfl rfl cons.fit.typed.current : s.charge.Fit _).poll
    have running₁ : s.charge.poll.current.state = .running := poll_running running
    have continues := (Continues.of_same charged rfl).trans (.poll _)
    rw [reschedule_of_running running]
    split
    · exact Continues.of_same charged rfl
    · split
      · have renewed : s.charge.poll.Undisturbed { s.charge.poll with slice := s.charge.poll.quantum } :=
          ⟨rfl, rfl, rfl, rfl, rfl, rfl⟩
        exact continues.trans (.of_same renewed rfl)
      · exact (continues.trans (.preempt running₁)).resumes (fit.preempt running₁).cons.next_resumes
  · rw [reschedule_of_blocked running]
    exact cons.next_resumes

theorem Consistent.continues_of_ok (cons : s.Consistent) (run : reschedule canceled s = .ok () s') :
    s.Continues s' := by
  have resumes : s.Resumes (reschedule canceled s) := cons.reschedule_resumes
  rwa [run] at resumes

theorem Consistent.continues_of_error {c : Cause} (cons : s.Consistent) (run : reschedule canceled s = .error c s') :
    s.Continues s' := by
  have resumes : s.Resumes (reschedule canceled s) := cons.reschedule_resumes
  rwa [run] at resumes

/-- What each part of a scheduling decision keeps up. -/
structure Kept (P : Scheduler → Prop) : Prop where
  undisturbed : ∀ {s s'}, P s → s.Undisturbed s' → P s'
  poll : ∀ {s}, P s → P s.poll
  preempt : ∀ {s}, P s → s.current.state = .running → P s.preempt
  resume : ∀ {s}, P s → s.ready ≠ [] → s.current.state ≠ .running →
    P s.resume ∧ s.resume.current.state = .running

namespace Kept

variable {P : Scheduler → Prop} (kept : Kept P)

include kept

theorem awaitReady (holds : P s) (idle : s.current.state ≠ .running) (run : awaitReady canceled s = .ok () s') :
    P s' ∧ s'.current.state ≠ .running ∧ s'.ready ≠ [] := by
  fun_induction Scheduler.awaitReady canceled s with
  | case1 s empty none => cases run
  | case2 s empty t rest some stop => cases run
  | case3 s empty t rest some go ih =>
    have slept : s.Undisturbed (s.sleepUntil t.deadline) := .clock s _
    exact ih (kept.poll (kept.undisturbed holds slept)) (poll_idle idle) run
  | case4 s ready =>
    obtain rfl : s = s' := by cases run; rfl
    exact ⟨holds, idle, by simpa using ready⟩

theorem next (holds : P s) (idle : s.current.state ≠ .running) (run : next canceled s = .ok () s') :
    P s' ∧ s'.current.state = .running := by
  unfold Scheduler.next at run
  cases waited : Scheduler.awaitReady canceled s.poll with
  | error c s₁ =>
    rw [waited] at run
    cases run
  | ok u s₁ =>
    rw [waited] at run
    cases run
    obtain ⟨holds₁, idle₁, some⟩ := kept.awaitReady (kept.poll holds) (poll_idle idle) waited
    exact kept.resume holds₁ some idle₁

theorem reschedule (holds : P s) (run : reschedule canceled s = .ok () s') : P s' ∧ s'.current.state = .running := by
  by_cases running : s.current.state = .running
  · have charged : s.Undisturbed s.charge := .charge s
    have holds₁ := kept.undisturbed holds charged
    have running₁ : s.charge.poll.current.state = .running := poll_running running
    rw [reschedule_of_running running] at run
    split at run
    · cases run
      exact ⟨holds₁, running⟩
    · split at run
      · cases run
        have renewed : s.charge.poll.Undisturbed { s.charge.poll with slice := s.charge.poll.quantum } :=
          ⟨rfl, rfl, rfl, rfl, rfl, rfl⟩
        exact ⟨kept.undisturbed (kept.poll holds₁) renewed, running₁⟩
      · exact kept.next (kept.preempt (kept.poll holds₁) running₁) nofun run
  · rw [reschedule_of_blocked running] at run
    exact kept.next holds running run

end Kept

theorem Orderly.kept : Kept Orderly := ⟨Orderly.undisturbed, Orderly.poll, Orderly.preempt, Orderly.resume⟩

theorem InOrder.kept (W : Addr → List Nat) : Kept (InOrder W) :=
  ⟨InOrder.undisturbed, InOrder.poll, InOrder.preempt, InOrder.resume⟩

end Scheduling

end Scheduler

end FiberVm
