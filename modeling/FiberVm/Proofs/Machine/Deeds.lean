import FiberVm.Proofs.Heap.Spares
import FiberVm.Proofs.Heap.Wiring
import FiberVm.Proofs.Machine.Quiet

/-!
# What an instruction does

An instruction that is executed does one of eleven things, and its label says which: it is quiet, starts or
ends a fiber, arms a timer, makes a channel or a wait group, or acts on one. The label fixes what becomes of
the nodes at which fibers meet and of the scheduler's table, queue and timers. An instruction that faults
may still have acted on a channel: it then failed to wake the fiber that was parked there.
-/

set_option autoImplicit false

namespace FiberVm

open Heap (Shows Drift Updates Wired Plays Acts Rewires Effect NewChannel NewQueues Spares bottom)

/-- Blocks the current fiber until the deadline. -/
def Scheduler.doze (s : Scheduler) (deadline : Int) : Scheduler :=
  { s.park with timers := arm ⟨deadline, s.current.id⟩ s.timers }

theorem Scheduler.isLive_iff {s : Scheduler} {id : Nat} : s.isLive id = true ↔
    (s.current.id = id ∧ s.current.state ≠ .terminated) ∨ ∃ f ∈ s.others, f.id = id := by
  simp only [isLive, List.any_eq_true, beq_iff_eq, mem_live]
  constructor
  · rintro ⟨f, ⟨rfl, alive⟩ | mem, eq⟩
    · exact .inl ⟨eq, alive⟩
    · exact .inr ⟨f, mem, eq⟩
  · rintro (⟨eq, alive⟩ | ⟨f, mem, eq⟩)
    · exact ⟨_, .inl ⟨rfl, alive⟩, eq⟩
    · exact ⟨f, .inr mem, eq⟩

namespace Scheduler.Undisturbed

variable {s s' : Scheduler}

theorem isLive (u : s.Undisturbed s') (id : Nat) : s'.isLive id = s.isLive id := by
  rw [Bool.eq_iff_iff, Scheduler.isLive_iff, Scheduler.isLive_iff, u.id, u.state, u.others]

theorem wake (u : s.Undisturbed s') (id : Nat) : (s.wake id).Undisturbed (s'.wake id) := by
  unfold Scheduler.wake
  rw [u.id, u.state, u.others, u.ready]
  split
  · split
    · exact ⟨rfl, rfl, u.timers, u.nextId, u.id, rfl⟩
    · exact u
  · split
    · exact ⟨rfl, rfl, u.timers, u.nextId, u.id, u.state⟩
    · exact u

theorem deliverSaved (s : Scheduler) (v : Addr) : s.Undisturbed (s.deliverSaved v) := by
  unfold Scheduler.deliverSaved Fiber.overwrite
  repeat' split
  all_goals exact ⟨rfl, rfl, rfl, rfl, rfl, rfl⟩

theorem symm (u : s.Undisturbed s') : s'.Undisturbed s :=
  ⟨u.others.symm, u.ready.symm, u.timers.symm, u.nextId.symm, u.id.symm, u.state.symm⟩

theorem deliver (u : s.Undisturbed s') (id : Nat) (v : Addr) : (s.deliver id v).Undisturbed (s'.deliver id v) := by
  unfold Scheduler.deliver
  rw [u.id]
  split
  · exact ((deliverSaved s v).symm.trans u).trans (deliverSaved s' v)
  · rw [u.others]
    exact ⟨rfl, u.ready, u.timers, u.nextId, u.id, u.state⟩

theorem park (u : s.Undisturbed s') : s.park.Undisturbed s'.park :=
  ⟨u.others, u.ready, u.timers, u.nextId, u.id, rfl⟩

theorem doze (u : s.Undisturbed s') (deadline : Int) : (s.doze deadline).Undisturbed (s'.doze deadline) := by
  refine ⟨u.others, u.ready, ?_, u.nextId, u.id, rfl⟩
  unfold Scheduler.doze
  rw [u.id, u.timers]

theorem terminate (u : s.Undisturbed s') : s.terminate.Undisturbed s'.terminate :=
  ⟨u.others, u.ready, u.timers, u.nextId, u.id, rfl⟩

theorem spawn (u : s.Undisturbed s') (pc : Int) (env : Addr) : (s.spawn pc env).Undisturbed (s'.spawn pc env) := by
  unfold Scheduler.spawn
  rw [u.others, u.ready, u.nextId]
  exact ⟨rfl, rfl, u.timers, rfl, u.id, u.state⟩

theorem foldl_wake {α : Type} (u : s.Undisturbed s') (ids : List α) (f : α → Nat) :
    (ids.foldl (fun s id => s.wake (f id)) s).Undisturbed (ids.foldl (fun s id => s.wake (f id)) s') := by
  induction ids generalizing s s' with
  | nil => exact u
  | cons id ids ih => exact ih (u.wake (f id))

end Scheduler.Undisturbed

/-- What an instruction did. -/
inductive StepLabel
  | quiet
  | spawn (pc : Int) (env : Addr)
  | stop
  | sleep (deadline : Int)
  | make (capacity : Nat) (ch s r : Addr)
  | newGroup (g : Addr)
  | act (ch : Addr) (act : Act)
  /-- The counter of a wait group has changed. -/
  | count (g : Addr)
  /-- Everyone who waits on a group has been released. -/
  | drain (g : Addr) (ids : List Word)
  | wait (g : Addr) (id : Nat)

/-- The fiber that is woken for an entry of a wait group. -/
def Word.fiber (w : Word) : Nat := w.toInt64.toInt.toNat

namespace StepLabel

/-- What becomes of the nodes at which fibers meet. -/
def OnHeap (h h' : Heap) : StepLabel → Prop
  | quiet | spawn _ _ | stop | sleep _ => Drift [] h h'
  | make capacity ch s r => NewChannel capacity ch s r h h'
  | newGroup g => Drift [g] h h' ∧ Shows h'.words g (.group 0 []) ∧ bottom ≤ g
  | act ch a => ∃ c c', Acts h h' ch a c c'
  | count g => ∃ n n' ids, Shows h.words g (.group n ids) ∧ Updates h h' g (.group n' ids) ∧ 0 < n'
  | drain g ids => ∃ n, Shows h.words g (.group n ids) ∧ Updates h h' g (.group 0 [])
  | wait g id => ∃ n ids, Shows h.words g (.group n ids) ∧ Updates h h' g (.group n (ids ++ [id.toUInt64])) ∧ n ≠ 0

/-- What becomes of the fibers. -/
def OnSched (s s' : Scheduler) : StepLabel → Prop
  | quiet | make _ _ _ _ | newGroup _ | count _ | act _ (.store _) | act _ (.take _) | act _ .close =>
    s.Undisturbed s'
  | spawn pc env => (s.spawn pc env).Undisturbed s'
  | stop => s.terminate.Undisturbed s'
  | sleep deadline => (s.doze deadline).Undisturbed s'
  | act _ (.hand v w) => ((s.deliver w.fiber v).wake w.fiber).Undisturbed s'
  | act _ (.refill _ w) | act _ (.pass w) => (s.wake w.fiber).Undisturbed s'
  | act _ (.parkSender id _) | act _ (.parkReceiver id) | wait _ id =>
    id = s.current.id ∧ s.park.Undisturbed s'
  | drain _ ids => (ids.foldl (fun s id => s.wake id.fiber) s).Undisturbed s'

/-- What becomes of the fibers does not depend on the registers of the current one. -/
theorem OnSched.of_undisturbed {s s₁ s' : Scheduler} {l : StepLabel} (u : s.Undisturbed s₁) (does : l.OnSched s₁ s') :
    l.OnSched s s' := by
  cases l with
  | quiet | make | newGroup | count => exact u.trans does
  | spawn pc env => exact (u.spawn pc env).trans does
  | stop => exact u.terminate.trans does
  | sleep deadline => exact (u.doze deadline).trans does
  | act ch a =>
    cases a with
    | store | take | close => exact u.trans does
    | hand v w => exact ((u.deliver w.fiber v).wake w.fiber).trans does
    | refill v w => exact (u.wake w.fiber).trans does
    | pass w => exact (u.wake w.fiber).trans does
    | parkSender | parkReceiver => exact ⟨does.1.trans u.id, u.park.trans does.2⟩
  | drain g ids => exact (u.foldl_wake ids Word.fiber).trans does
  | wait => exact ⟨does.1.trans u.id, u.park.trans does.2⟩

theorem OnSched.undisturbed {s s' s'' : Scheduler} {l : StepLabel} (does : l.OnSched s s') (u : s'.Undisturbed s'') :
    l.OnSched s s'' := by
  cases l with
  | quiet | make | newGroup | count | spawn | stop | sleep | drain => exact Scheduler.Undisturbed.trans does u
  | act ch a =>
    cases a with
    | store | take | close | hand | refill | pass => exact Scheduler.Undisturbed.trans does u
    | parkSender | parkReceiver => exact ⟨does.1, does.2.trans u⟩
  | wait => exact ⟨does.1, does.2.trans u⟩

theorem OnHeap.effect {h h' : Heap} {l : StepLabel} (does : l.OnHeap h h') : Effect h h' := by
  cases l with
  | quiet | spawn | stop | sleep => exact .drift does
  | make => exact .newChannel does
  | newGroup => exact .newGroup does.1 does.2.1 does.2.2
  | act =>
    obtain ⟨c, c', acts⟩ := does
    exact .acts acts
  | count =>
    obtain ⟨n, n', ids, s, u, positive⟩ := does
    exact .group s u (.count positive)
  | drain =>
    obtain ⟨n, s, u⟩ := does
    exact .group s u .drain
  | wait g id =>
    obtain ⟨n, ids, s, u, waits⟩ := does
    exact .group s u (.wait id.toUInt64 waits)

end StepLabel

/-- Not one of the instructions that fibers are started, ended and meet by. -/
def Instr.IsPlain (i : Instr) : Prop :=
  i ≠ .send ∧ i ≠ .recv ∧ i ≠ .stopFiber ∧ ∀ stop, i ≠ .startFiber stop

namespace Machine

/-- The builtin that a call is about to enter. -/
def callee (m : Machine) : Instr → Option Builtin
  | .call arity | .tailCall arity =>
    match m.current.operands[arity.toNat]? with
    | none => none
    | some fn =>
      if Heap.tagAt m.heap.words fn = .builtin then
        match Heap.builtinAt fn m.heap with
        | .ok (b, _) _ => some b
        | .error _ _ => none
      else none
  | _ => none

end Machine

/-- The act is one of sending `v`. -/
def Act.Sends (v : Addr) : Act → Prop
  | .hand x _ | .store x | .parkSender _ x => x = v
  | _ => False

/-- The act is one of receiving `v`. -/
def Act.Gives (v : Addr) : Act → Prop
  | .take x | .refill x _ => x = v
  | .pass w => w.value = v
  | _ => False

/-- The label of an instruction that neither starts nor ends a fiber, makes no channel, and neither sends nor
receives. -/
def StepLabel.IsPlain : StepLabel → Prop
  | quiet | sleep _ | newGroup _ | count _ | drain _ _ | wait _ _ | act _ .close => True
  | _ => False

/-- The label fits the instruction: who sends what where, and what a receiver gets. -/
def StepLabel.Of (m : Machine) (i : Instr) (m' : Machine) : StepLabel → Prop
  | spawn _ _ => ∃ stop, i = .startFiber stop
  | stop => i = .stopFiber
  | make _ ch _ _ => m.callee i = some .make ∧ m'.current.operands.head? = some ch
  | act ch a =>
    (i = .send ∧ ∃ v rest, a.Sends v ∧ m.current.operands = v :: ch :: rest) ∨
    (i = .recv ∧ ∃ v rest, a.Gives v ∧ m.current.operands = ch :: rest ∧ m'.current.operands = v :: rest) ∨
    (i = .recv ∧ a = .parkReceiver m.current.id ∧ ∃ rest, m.current.operands = ch :: rest ∧
      m'.current.operands = rest) ∨
    (a = .close ∧ i.IsPlain ∧ m.callee i ≠ some .make)
  | _ => i.IsPlain ∧ m.callee i ≠ some .make

theorem StepLabel.IsPlain.of {m m' : Machine} {i : Instr} {l : StepLabel} (label : l.IsPlain) (plain : i.IsPlain)
    (other : m.callee i ≠ some .make) : l.Of m i m' := by
  cases l with
  | quiet | sleep | newGroup | count | drain | wait => exact ⟨plain, other⟩
  | act ch a =>
    cases a with
    | close => exact .inr (.inr (.inr ⟨rfl, plain, other⟩))
    | _ => exact label.elim
  | spawn | stop | make => exact label.elim

namespace Machine

/-- The instruction did what the label says. -/
structure Deed (l : StepLabel) (m m' : Machine) : Prop where
  heap : l.OnHeap m.heap m'.heap
  sched : l.OnSched m.control.sched m'.control.sched

/-- Someone is parked under the id `k`, but there is no such fiber. -/
def Lost (m : Machine) (k : Int) : Prop :=
  ¬ (0 ≤ k ∧ m.control.sched.isLive k.toNat) ∧
    ((∃ a ws w, Shows m.heap.words a (.queue ws) ∧ w ∈ ws ∧ k = w.fiber) ∨
      ∃ a n ids id, Shows m.heap.words a (.group n ids) ∧ id ∈ ids ∧ k = id.toInt64.toInt)

/-- How an instruction fails: before it has come to the fibers and the nodes at which they meet, or because
someone who is to be woken is lost. -/
inductive Breaks (m : Machine) (e : Failure) (m' : Machine) : Prop
  | early : (∀ k, e ≠ .fault (.unknownFiber k)) → (Drift [] m.heap m'.heap ∨ NewQueues m.heap m'.heap) →
    m.control.sched.Undisturbed m'.control.sched → Breaks m e m'
  | lost {l : StepLabel} {k : Int} : e = .fault (.unknownFiber k) → m.Lost k → l.OnHeap m.heap m'.heap →
    m'.control.sched.nextId = m.control.sched.nextId → Breaks m e m'

namespace Breaks

variable {m m' m'' : Machine} {e : Failure}

theorem effect (breaks : m.Breaks e m') : Effect m.heap m'.heap := by
  cases breaks with
  | early _ heap => exact heap.elim .drift .newQueues
  | lost _ _ heap => exact heap.effect

theorem known (breaks : m.Breaks e m') {k : Int} (cause : e = .fault (.unknownFiber k)) : m.Lost k := by
  cases breaks with
  | early other => exact absurd cause (other k)
  | lost same lost =>
    cases same.symm.trans cause
    exact lost

theorem after (heap : m'.heap = m.heap) (undisturbed : m.control.sched.Undisturbed m'.control.sched)
    (breaks : m'.Breaks e m'') : m.Breaks e m'' := by
  cases breaks with
  | early known change kept => exact .early known (heap ▸ change) (undisturbed.trans kept)
  | lost cause lost does nextId =>
    refine .lost cause ?_ (heap ▸ does) (nextId.trans undisturbed.nextId)
    rwa [Lost, heap, undisturbed.isLive] at lost

end Breaks

end Machine

theorem Exec.wake_eq (id : Int) (v : Addr) (m : Machine) :
    Exec.wake id v m = if 0 ≤ id ∧ m.control.sched.isLive id.toNat then
        .ok () (m.withSched ((if v = noAddr then m.control.sched else
          m.control.sched.deliver id.toNat v).wake id.toNat))
      else .error (.fault (.unknownFiber id)) m := by
  unfold Exec.wake
  rw [bind_of_ok (show Exec.asks (·.sched.isLive id.toNat) m = .ok (m.control.sched.isLive id.toNat) m from rfl)]
  split <;> rfl

/-- A run ends in a state in `D`, or fails. -/
def Does (D : Machine → Prop) (x : Exec Unit) (m : Machine) : Prop :=
  match x m with
  | .ok _ m' => D m'
  | .error e m' => m.Breaks e m'

namespace Does

variable {α : Type} {D : Machine → Prop} {m m' : Machine} {x : Exec Unit}

theorem of_ok (run : x m = .ok () m') (holds : D m') : Does D x m := by
  rw [Does, run]
  exact holds

theorem imp {D' : Machine → Prop} (does : Does D x m) (weaker : ∀ m', x m = .ok () m' → D m' → D' m') :
    Does D' x m := by
  unfold Does at *
  cases run : x m with
  | ok u m' =>
    rw [run] at does
    exact weaker m' run does
  | error e m' => rwa [run] at does

theorem of_calm (calm : Calm x m) (holds : ∀ m', x m = .ok () m' → m.Quiet m' → D m') : Does D x m := by
  unfold Does
  unfold Calm at calm
  cases run : x m with
  | ok u m' =>
    rw [run] at calm
    exact holds m' run calm
  | error e m' =>
    rw [run] at calm
    exact .early calm.2 (.inl calm.1.drift) calm.1.sched

theorem read {y : Exec α} {k : α → Exec Unit} (still : Still y) (rest : ∀ a, y m = .ok a m → Does D (k a) m) :
    Does D (y >>= k) m := by
  have same := still m
  cases run : y m with
  | ok a m' =>
    rw [run] at same
    obtain rfl : m' = m := same
    rw [Does, bind_of_ok run]
    exact rest a run
  | error e m' =>
    rw [run] at same
    obtain ⟨rfl, known⟩ : m' = m ∧ _ := same
    rw [Does, bind_of_error run]
    exact .early known (.inl (.refl _)) (.refl _)

theorem fault {c : Cause} (known : ∀ k, c ≠ .unknownFiber k) : Does D (FiberVm.fault c) m :=
  of_calm (.fault known) fun _ run => by cases run

theorem of_fault {c : Cause} (run : x m = .error (.fault c) m) (known : ∀ k, c ≠ .unknownFiber k) :
    Does D x m := by
  rw [Does, run]
  exact .early (fun k same => known k (Failure.fault.inj same)) (.inl (.refl _)) (.refl _)

theorem registers {y : Exec α} {a : α} {k : α → Exec Unit} (run : y m = .ok a m') (heap : m'.heap = m.heap)
    (undisturbed : m.control.sched.Undisturbed m'.control.sched) (rest : Does D (k a) m') :
    Does D (y >>= k) m := by
  unfold Does at *
  rw [bind_of_ok run]
  cases run' : k a m' with
  | ok u m'' =>
    rw [run'] at rest
    exact rest
  | error e m'' =>
    rw [run'] at rest
    exact rest.after heap undisturbed

theorem push {a : Addr} (does : Does (fun m' => D (m'.withSched (m'.control.sched.push a))) x m) :
    Does D (x >>= fun _ => Exec.push a) m := by
  unfold Does at *
  cases run : x m with
  | ok u m' =>
    rw [bind_of_ok run]
    rw [run] at does
    exact does
  | error e m' =>
    rw [bind_of_error run]
    rwa [run] at does

theorem wake {a v : Addr} {ws : List Waiter} {w : Waiter} (run : x m = Exec.wake w.fiber v m')
    {ch : Addr} {act : Act} {c c' : Chan} (acts : Acts m.heap m'.heap ch act c c')
    (undisturbed : m.control.sched.Undisturbed m'.control.sched) (s : Shows m.heap.words a (.queue ws)) (mem : w ∈ ws)
    (holds : D (m'.withSched ((if v = noAddr then m'.control.sched else
      m'.control.sched.deliver w.fiber v).wake w.fiber))) : Does D x m := by
  rw [Does, run, Exec.wake_eq]
  by_cases live : 0 ≤ (w.fiber : Int) ∧ m'.control.sched.isLive (w.fiber : Int).toNat = Bool.true
  · rw [if_pos live]
    exact holds
  · rw [if_neg live]
    rw [undisturbed.isLive] at live
    exact .lost (l := .act ch act) rfl ⟨live, .inl ⟨a, ws, w, s, mem, rfl⟩⟩ ⟨c, c', acts⟩ undisturbed.nextId

end Does

section Operands

variable {m m' : Machine} {a : Addr} {n : Node} {want : Tag} {what : String}

theorem Exec.expectTag_shows (s : Shows m.heap.words a n) :
    Exec.expectTag a want what m =
      if n.tag = want then .ok () m else .error (.fault (.expectedTag what want n.tag)) m := by
  unfold Exec.expectTag Exec.tagOf
  rw [bind_of_ok (onHeap_ok (Heap.tagOf_shows s))]
  split <;> rfl

/-- Whatever is read at the address and is not free stands for something. -/
def Heap.Tells (h : Heap) (a : Addr) : Prop := ∀ t, Heap.tagOf a h = .ok t h → t ≠ .free → ∃ n, Shows h.words a n

theorem Heap.Shows.tells {h : Heap} (s : Shows h.words a n) : h.Tells a := fun _ _ _ => ⟨n, s⟩

theorem Exec.shows_of_tagOf {t : Tag} (tells : m.heap.Tells a) (run : Exec.tagOf a m = .ok t m') (used : t ≠ .free) :
    ∃ n, Shows m.heap.words a n ∧ n.tag = t := by
  have still := Heap.still_tagOf a m.heap
  cases read : Heap.tagOf a m.heap with
  | error e h =>
    cases (onHeap_error (m := m) read).symm.trans run
  | ok t' h =>
    rw [read] at still
    obtain rfl : h = m.heap := still
    obtain ⟨rfl, -⟩ := EStateM.Result.ok.inj ((onHeap_ok (m := m) read).symm.trans run)
    obtain ⟨n, s⟩ := tells t' read used
    exact ⟨n, s, (EStateM.Result.ok.inj ((Heap.tagOf_shows s).symm.trans read)).1⟩

theorem Exec.shows_of_expectTag {u : Unit} (tells : m.heap.Tells a) (run : Exec.expectTag a want what m = .ok u m')
    (used : want ≠ .free) : ∃ n, Shows m.heap.words a n ∧ n.tag = want := by
  unfold Exec.expectTag at run
  cases read : Exec.tagOf a m with
  | error e m₁ =>
    rw [bind_of_error read] at run
    cases run
  | ok t m₁ =>
    rw [bind_of_ok read] at run
    split at run
    · next same => exact same ▸ Exec.shows_of_tagOf tells read (same ▸ used)
    · cases run

theorem Exec.still_expectTag (a : Addr) (want : Tag) (what : String) : Still (Exec.expectTag a want what) :=
  (Exec.still_tagOf a).bind fun _ => .ite (.pure _) (.fault (by simp))

theorem Exec.getElem?_of_peek {k : Nat} (run : Exec.peek k m = .ok a m') :
    m.control.sched.current.operands[k]? = some a := by
  rw [Exec.peek_eq] at run
  split at run
  · cases run
    assumption
  · cases run

theorem Exec.drop_ok {k : Nat} (enough : k ≤ m.control.sched.current.operands.length) :
    Exec.drop k m = .ok () (m.withFiber (m.control.sched.current.drop k)) := by
  unfold Exec.drop
  rw [bind_of_ok (show Exec.asksFiber (·.operands.length) m = .ok m.control.sched.current.operands.length m from rfl),
    if_neg (by omega)]
  rfl

theorem Exec.drop_short {k : Nat} (short : m.control.sched.current.operands.length < k) :
    Exec.drop k m = .error (.fault .operandUnderflow) m := by
  unfold Exec.drop
  rw [bind_of_ok (show Exec.asksFiber (·.operands.length) m = .ok m.control.sched.current.operands.length m from rfl),
    if_pos short]
  rfl

theorem Machine.undisturbed_withFiber {f : Fiber} (id : f.id = m.control.sched.current.id)
    (state : f.state = m.control.sched.current.state) :
    m.control.sched.Undisturbed (m.withFiber f).control.sched := ⟨rfl, rfl, rfl, rfl, id, state⟩

end Operands

section Channels

variable {m : Machine} {v ch : Addr} {c : Chan}

/-- The wait queue that an act changes, if it changes one. -/
def Act.queue (c : Chan) : Act → List Addr
  | .store _ | .take _ | .close => []
  | .parkSender _ _ | .refill _ _ | .pass _ => [c.senders]
  | .hand _ _ | .parkReceiver _ => [c.receivers]

theorem Heap.dequeue_receivers {h : Heap} (p : Plays h.words ch c) (distinct : c.senders ≠ c.receivers) :
    (c.receiving = [] ∧ (do Heap.dequeue (← Heap.recvQueue ch) : HeapM _) h = .ok none h) ∨
    ∃ w rest h', c.receiving = w :: rest ∧ (do Heap.dequeue (← Heap.recvQueue ch) : HeapM _) h = .ok (some w) h' ∧
      Rewires h h' ch c { c with receiving := rest } ∧ Spares [c.receivers] [] h h' := by
  have s := p.receivers
  cases waiting : c.receiving with
  | nil =>
    rw [waiting] at s
    exact .inl ⟨rfl, by rw [bind_of_ok (Heap.recvQueue_shows p.channel), Heap.dequeue_nil s]⟩
  | cons w rest =>
    rw [waiting] at s
    obtain ⟨h', run, u⟩ := Heap.dequeue_cons s
    exact .inr ⟨w, rest, h', rfl, by rw [bind_of_ok (Heap.recvQueue_shows p.channel), run],
      p.receiversQueue distinct u, u.spares s⟩

theorem Heap.dequeue_senders {h : Heap} (p : Plays h.words ch c) (distinct : c.senders ≠ c.receivers) :
    (c.sending = [] ∧ (do Heap.dequeue (← Heap.sendQueue ch) : HeapM _) h = .ok none h) ∨
    ∃ w rest h', c.sending = w :: rest ∧ (do Heap.dequeue (← Heap.sendQueue ch) : HeapM _) h = .ok (some w) h' ∧
      Rewires h h' ch c { c with sending := rest } ∧ Spares [c.senders] [] h h' := by
  have s := p.senders
  cases waiting : c.sending with
  | nil =>
    rw [waiting] at s
    exact .inl ⟨rfl, by rw [bind_of_ok (Heap.sendQueue_shows p.channel), Heap.dequeue_nil s]⟩
  | cons w rest =>
    rw [waiting] at s
    obtain ⟨h', run, u⟩ := Heap.dequeue_cons s
    exact .inr ⟨w, rest, h', rfl, by rw [bind_of_ok (Heap.sendQueue_shows p.channel), run],
      p.sendersQueue distinct u, u.spares s⟩

theorem Heap.enqueue_receivers {h : Heap} (p : Plays h.words ch c) (distinct : c.senders ≠ c.receivers) (w : Waiter) :
    (do Heap.enqueue (← Heap.recvQueue ch) w : HeapM Unit) h = .error (.fault .queueCapacity) h ∨
    ∃ h', (do Heap.enqueue (← Heap.recvQueue ch) w : HeapM Unit) h = .ok () h' ∧
      Rewires h h' ch c { c with receiving := c.receiving ++ [⟨w.fiber.toUInt32.toNat, w.value⟩] } ∧
      Spares [c.receivers] [] h h' := by
  rw [bind_of_ok (Heap.recvQueue_shows p.channel)]
  by_cases full : c.receiving.length = 15
  · exact .inl (Heap.enqueue_full p.receivers full w)
  · obtain ⟨h', run, u⟩ := Heap.enqueue_shows p.receivers full w
    exact .inr ⟨h', run, p.receiversQueue distinct u, u.spares p.receivers⟩

theorem Heap.enqueue_senders {h : Heap} (p : Plays h.words ch c) (distinct : c.senders ≠ c.receivers) (w : Waiter) :
    (do Heap.enqueue (← Heap.sendQueue ch) w : HeapM Unit) h = .error (.fault .queueCapacity) h ∨
    ∃ h', (do Heap.enqueue (← Heap.sendQueue ch) w : HeapM Unit) h = .ok () h' ∧
      Rewires h h' ch c { c with sending := c.sending ++ [⟨w.fiber.toUInt32.toNat, w.value⟩] } ∧
      Spares [c.senders] [] h h' := by
  rw [bind_of_ok (Heap.sendQueue_shows p.channel)]
  by_cases full : c.sending.length = 15
  · exact .inl (Heap.enqueue_full p.senders full w)
  · obtain ⟨h', run, u⟩ := Heap.enqueue_shows p.senders full w
    exact .inr ⟨h', run, p.sendersQueue distinct u, u.spares p.senders⟩

theorem Heap.push_ring {h : Heap} (p : Plays h.words ch c) (space : c.items.length < c.capacity) (v : Addr) :
    ∃ h', Heap.chanPush ch v h = .ok () h' ∧ Rewires h h' ch c { c with items := c.items ++ [v] } ∧
      Spares [ch] [] h h' := by
  obtain ⟨h', run, u⟩ := Heap.chanPush_shows p.channel space v
  exact ⟨h', run, p.ring u, u.spares p.channel⟩

theorem Heap.pop_ring {h : Heap} {rest : List Addr} (p : Plays h.words ch c) (items : c.items = v :: rest) :
    ∃ h', Heap.chanPop ch h = .ok v h' ∧ Rewires h h' ch c { c with items := rest } ∧ Spares [ch] [] h h' := by
  have s := p.channel
  rw [items] at s
  obtain ⟨h', run, u⟩ := Heap.chanPop_shows s
  exact ⟨h', run, p.ring u, u.spares s⟩

/-- The channel has been found and the operands are off the stack: the value is handed to a receiver, goes
into the ring, or its sender is parked. -/
theorem Does.deliver {D : Machine → Prop} {k : Int64} (wired : Wired m.heap.words) (p : Plays m.heap.words ch c)
    (int : Shows m.heap.words v (.int k))
    (holds : ∀ act c' h' s', Acts m.heap h' ch act c c' → Spares (ch :: act.queue c) [] m.heap h' → act.Sends v →
      (StepLabel.act ch act).OnSched m.control.sched s' → D (Machine.withSched ⟨h', m.control⟩ s')) :
    Does D
      (do
        match ← Exec.onHeap (do Heap.dequeue (← Heap.recvQueue ch)) with
        | some w => Exec.wake w.fiber v
        | none =>
          if (← Exec.onHeap (Heap.chanLen ch)) < (← Exec.onHeap (Heap.chanCap ch)) then
            Exec.onHeap (Heap.chanPush ch v)
          else
            let id ← Exec.asksFiber (·.id)
            Exec.onHeap (do Heap.enqueue (← Heap.sendQueue ch) ⟨id, v⟩)
            Exec.park) m := by
  have distinct := wired.distinct ch c p
  rcases Heap.dequeue_receivers p distinct with ⟨none, run⟩ | ⟨w, ws, h', waiting, run, rewires, spares⟩
  · refine .registers (onHeap_ok run) rfl (.refl _) ?_
    refine .registers (onHeap_ok (Heap.chanLen_shows p.channel)) rfl (.refl _) ?_
    refine .registers (onHeap_ok (Heap.chanCap_shows p.channel)) rfl (.refl _) ?_
    split
    · next space =>
      obtain ⟨h', run, rewires, spares⟩ := Heap.push_ring p space v
      refine .of_ok (onHeap_ok run) (holds (.store v) _ h' _ ⟨rewires, .store v none space, fun x mem => ?_⟩ spares rfl
        (.refl _))
      simp only [Chan.values, List.mem_append, List.mem_singleton] at mem ⊢
      rcases mem with (old | rfl) | old
      · exact .inl (.inl old)
      · exact .inr ⟨k, int⟩
      · exact .inl (.inr old)
    · next space =>
      refine .read (Exec.still_asks _) fun id run => ?_
      obtain rfl : m.control.sched.current.id = id := by cases run; rfl
      rcases Heap.enqueue_senders p distinct ⟨m.control.sched.current.id, v⟩ with full | ⟨h', run, rewires, spares⟩
      · exact .of_fault (c := .queueCapacity) (bind_of_error (onHeap_error full)) (by simp)
      refine .of_ok (bind_of_ok (onHeap_ok run)) (holds (.parkSender _ v) _ h' _
        ⟨rewires, .parkSender _ v none space, fun x mem => ?_⟩ (spares.mono (List.subset_cons_self _ _)) rfl
        ⟨rfl, .refl _⟩)
      simp only [Chan.values, List.map_append, List.map_cons, List.map_nil, List.mem_append,
        List.mem_singleton] at mem ⊢
      rcases mem with old | old | rfl
      · exact .inl (.inl old)
      · exact .inl (.inr old)
      · exact .inr ⟨k, int⟩
  · have acts : Acts m.heap h' ch (.hand v w) c _ := ⟨rewires, .hand v waiting, fun x mem => .inl mem⟩
    -- `wake` hands over nothing if the value is `noAddr`, which no node has as its address.
    have there : v ≠ noAddr := fun none => Heap.not_nodeIn_noAddr wired.small (none ▸ int.node)
    refine .wake (bind_of_ok (onHeap_ok run)) acts (.refl _) p.receivers (by simp [waiting])
      (holds _ _ _ _ acts (spares.mono (List.subset_cons_self _ _)) rfl ?_)
    rw [if_neg there]
    exact .refl _

/-- The instruction has acted on the channel at `ch` and written to nothing but that and the queue concerned. -/
structure Machine.Acted (m : Machine) (i : Instr) (ch : Addr) (a : Act) (m' : Machine) : Prop where
  deed : m.Deed (.act ch a) m'
  fits : (StepLabel.act ch a).Of m i m'
  spares : ∃ c, Plays m.heap.words ch c ∧ Spares (ch :: a.queue c) [] m.heap m'.heap

theorem Does.send (wired : Wired m.heap.words) (tells : ∀ a ∈ m.control.sched.current.operands, m.heap.Tells a) :
    Does (fun m' => ∃ ch a, m.Acted .send ch a m') Exec.send m := by
  unfold Exec.send
  refine .read (Exec.still_peek 0) fun v top => .read (Exec.still_peek 1) fun ch next => ?_
  obtain ⟨rest, operands⟩ : ∃ rest, m.control.sched.current.operands = v :: ch :: rest := by
    have first := Exec.getElem?_of_peek top
    have second := Exec.getElem?_of_peek next
    match ops : m.control.sched.current.operands with
    | [] | [_] => simp [ops] at second
    | x :: y :: rest =>
      simp only [ops, List.getElem?_cons_zero, List.getElem?_cons_succ, Option.some.injEq] at first second
      exact ⟨rest, by rw [first, second]⟩
  refine .read (Exec.still_expectTag ch _ _) fun _ run => ?_
  obtain ⟨n, s, isChannel⟩ := Exec.shows_of_expectTag (tells ch (by simp [operands])) run nofun
  obtain ⟨c, p⟩ := wired.channels ch s.node (s.tagAt.trans isChannel)
  refine .read (Exec.still_tagOf v) fun tag run => ?_
  split
  · exact .fault (by simp)
  rename_i isInt
  obtain ⟨n', s', is⟩ := Exec.shows_of_tagOf (tells v (by simp [operands])) run (Decidable.not_not.1 isInt ▸ nofun)
  obtain ⟨k, rfl⟩ := s'.int_of_tag (is.trans (Decidable.not_not.1 isInt))
  refine .read (Exec.still_onHeap ((Heap.still_field ch 5).bind fun _ => .pure _)) fun closed _ => ?_
  split
  · exact .fault (by simp)
  have undisturbed := m.undisturbed_withFiber (f := m.control.sched.current.drop 2) rfl rfl
  refine .registers (Exec.drop_ok (by simp [operands])) rfl undisturbed ?_
  refine .deliver wired p s' fun act c' h' s' acts spares sends sched => ?_
  refine ⟨ch, act, ⟨⟨c, c', acts⟩, sched.of_undisturbed undisturbed⟩, ?_, c, p, spares⟩
  exact .inl ⟨rfl, v, rest, sends, operands⟩

theorem Scheduler.wake_operands (s : Scheduler) (id : Nat) :
    (s.wake id).current.operands = s.current.operands := by
  unfold Scheduler.wake
  repeat' split
  all_goals rfl

theorem Scheduler.nextId_wake (s : Scheduler) (id : Nat) : (s.wake id).nextId = s.nextId := by
  unfold Scheduler.wake
  split
  · split <;> rfl
  · split <;> rfl

theorem Scheduler.Undisturbed.push (s : Scheduler) (a : Addr) : s.Undisturbed (s.push a) :=
  ⟨rfl, rfl, rfl, rfl, rfl, rfl⟩

theorem Exec.push_eq (m : Machine) (a : Addr) :
    Exec.push a m = .ok () (m.withSched (m.control.sched.push a)) := rfl

/-- The channel has been found and is off the stack: a value comes out of the ring or from a parked sender,
or the receiver is parked. -/
theorem Does.receive {D : Machine → Prop} (wired : Wired m.heap.words) (p : Plays m.heap.words ch c)
    (gives : ∀ v act c' h' s', Acts m.heap h' ch act c c' → Spares (ch :: act.queue c) [] m.heap h' → act.Gives v →
      (StepLabel.act ch act).OnSched m.control.sched s' → s'.current.operands = v :: m.control.sched.current.operands →
      D (Machine.withSched ⟨h', m.control⟩ s'))
    (parks : ∀ c' h', Acts m.heap h' ch (.parkReceiver m.control.sched.current.id) c c' →
      Spares [ch, c.receivers] [] m.heap h' → D (Machine.withSched ⟨h', m.control⟩ m.control.sched.park)) :
    Does D
      (do
        if 0 < (← Exec.onHeap (Heap.chanLen ch)) then
          Exec.push (← Exec.onHeap (Heap.chanPop ch))
          match ← Exec.onHeap (do Heap.dequeue (← Heap.sendQueue ch)) with
          | some w =>
            Exec.onHeap (Heap.chanPush ch w.value)
            Exec.wake w.fiber noAddr
          | none => return ()
        else
          match ← Exec.onHeap (do Heap.dequeue (← Heap.sendQueue ch)) with
          | some w =>
            Exec.push w.value
            Exec.wake w.fiber noAddr
          | none =>
            let id ← Exec.asksFiber (·.id)
            Exec.onHeap (do Heap.enqueue (← Heap.recvQueue ch) ⟨id, noAddr⟩)
            Exec.park) m := by
  have distinct := wired.distinct ch c p
  refine .registers (onHeap_ok (Heap.chanLen_shows p.channel)) rfl (.refl _) ?_
  split
  · next some =>
    obtain ⟨v, rest, items⟩ := List.exists_cons_of_length_pos some
    obtain ⟨h₁, popped, rewires, spares⟩ := Heap.pop_ring p items
    rcases Heap.dequeue_senders rewires.after distinct with ⟨none, run⟩ | ⟨w, ws, h₂, waiting, run, rewires₂, spares₂⟩
    · have acts : Acts m.heap h₁ ch (.take v) c _ := ⟨rewires, .take items none, fun x mem => .inl ?_⟩
      · refine .of_ok ?_ (gives v _ _ _ _ acts spares rfl (.push _ v) rfl)
        refine (bind_of_ok (onHeap_ok popped)).trans ((bind_of_ok (Exec.push_eq _ v)).trans ?_)
        exact (bind_of_ok (onHeap_ok run)).trans rfl
      · simp only [Chan.values, items, List.cons_append, List.mem_cons] at mem ⊢
        exact .inr mem
    · -- The place that has become free in the ring is for the value of the sender that has waited longest.
      have waiting : c.sending = w :: ws := waiting
      have space : rest.length < c.capacity := by
        have room := (wired.settled ch c p).room
        rwa [items, List.length_cons] at room
      obtain ⟨h₃, pushed, rewires₃, spares₃⟩ := Heap.push_ring rewires₂.after space w.value
      have acts : Acts m.heap h₃ ch (.refill v w) c { c with items := rest ++ [w.value], sending := ws } :=
        ⟨(rewires.trans rewires₂).trans rewires₃, .refill items waiting, fun x mem => .inl ?_⟩
      · refine .wake ((bind_of_ok (onHeap_ok popped)).trans ((bind_of_ok (Exec.push_eq _ v)).trans
          ((bind_of_ok (onHeap_ok run)).trans (bind_of_ok (onHeap_ok pushed))))) acts (.push _ v) p.senders
          (by simp [waiting]) ?_
        rw [if_pos rfl]
        have spares : Spares [ch, c.senders] [] m.heap h₃ := ((spares.trans spares₂).trans spares₃).mono (by simp)
        exact gives v _ _ _ _ acts spares rfl ((Scheduler.Undisturbed.push _ v).wake w.fiber) (Scheduler.wake_operands _ _)
      · simp only [Chan.values, items, waiting, List.cons_append, List.append_assoc, List.nil_append, List.map_cons,
          List.mem_cons] at mem ⊢
        exact .inr mem
  · next none =>
    have noItems : c.items = [] := by simpa using none
    rcases Heap.dequeue_senders p distinct with ⟨none, run⟩ | ⟨w, ws, h₁, waiting, run, rewires, spares⟩
    · refine .registers (onHeap_ok run) rfl (.refl _) (.read (Exec.still_asks _) fun id run => ?_)
      obtain rfl : m.control.sched.current.id = id := by cases run; rfl
      rcases Heap.enqueue_receivers p distinct ⟨m.control.sched.current.id, noAddr⟩ with full | ⟨h', run, rewires, spares⟩
      · exact .of_fault (c := .queueCapacity) (bind_of_error (onHeap_error full)) (by simp)
      exact .of_ok (bind_of_ok (onHeap_ok run)) (parks _ h' ⟨rewires, .parkReceiver _ noItems none, fun x mem => .inl mem⟩
        (spares.mono (List.subset_cons_self _ _)))
    · have acts : Acts m.heap h₁ ch (.pass w) c _ := ⟨rewires, .pass noItems waiting, fun x mem => .inl ?_⟩
      · refine .wake ((bind_of_ok (onHeap_ok run)).trans (bind_of_ok (Exec.push_eq _ w.value))) acts
          (.push _ w.value) p.senders (by simp [waiting]) ?_
        rw [if_pos rfl]
        exact gives w.value _ _ _ _ acts (spares.mono (List.subset_cons_self _ _)) rfl
          ((Scheduler.Undisturbed.push _ w.value).wake w.fiber) (Scheduler.wake_operands _ _)
      · simp only [Chan.values, waiting, List.map_cons, List.mem_append, List.mem_cons] at mem ⊢
        exact mem.imp_right .inr

theorem Does.recv (wired : Wired m.heap.words) (tells : ∀ a ∈ m.control.sched.current.operands, m.heap.Tells a) :
    Does (fun m' => ∃ ch a, m.Acted .recv ch a m') Exec.recv m := by
  unfold Exec.recv
  refine .read (Exec.still_peek 0) fun ch top => ?_
  obtain ⟨rest, operands⟩ : ∃ rest, m.control.sched.current.operands = ch :: rest := by
    have first := Exec.getElem?_of_peek top
    match ops : m.control.sched.current.operands with
    | [] => simp [ops] at first
    | x :: rest =>
      simp only [ops, List.getElem?_cons_zero, Option.some.injEq] at first
      exact ⟨rest, by rw [first]⟩
  refine .read (Exec.still_expectTag ch _ _) fun _ run => ?_
  obtain ⟨n, s, isChannel⟩ := Exec.shows_of_expectTag (tells ch (by simp [operands])) run nofun
  obtain ⟨c, p⟩ := wired.channels ch s.node (s.tagAt.trans isChannel)
  refine .read (Exec.still_onHeap ((Heap.still_field ch 5).bind fun _ => .pure _)) fun closed _ => ?_
  split
  · exact .fault (by simp)
  have undisturbed := m.undisturbed_withFiber (f := m.control.sched.current.drop 1) rfl rfl
  have below : (m.control.sched.current.drop 1).operands = rest := by simp [Fiber.drop, operands]
  refine .registers (Exec.drop_ok (by simp [operands])) rfl undisturbed ?_
  refine .receive wired p (fun v act c' h' s' acts spares gives sched got => ?_) fun c' h' acts spares => ?_
  · refine ⟨ch, act, ⟨⟨c, c', acts⟩, sched.of_undisturbed undisturbed⟩, ?_, c, p, spares⟩
    exact .inr (.inl ⟨rfl, v, rest, gives, operands, got.trans (congrArg _ below)⟩)
  · refine ⟨ch, .parkReceiver m.control.sched.current.id, ⟨⟨c, c', acts⟩, rfl, undisturbed.park⟩, ?_, c, p, spares⟩
    exact .inr (.inr (.inl ⟨rfl, rfl, rest, operands, below⟩))

end Channels

end FiberVm
