import FiberVm.Proofs.Heap.Orders
import FiberVm.Proofs.Machine.Turn

/-!
# What code overlooks

A machine may be changed in what its code neither looks at nor works on. It then does the same, whatever state the
machine is in. Every instruction but one takes no notice of the rest of the program; the
one that starts a fiber has to find the end of its body there.
-/

set_option autoImplicit false

namespace FiberVm

/-- The change leaves alone what code looks at and works on: the fibers, the output and the outcome. -/
class Control.Aside (f : Control → Control) : Prop where
  sched : ∀ c, (f c).sched = c.sched
  sink : ∀ c, (f c).sink = c.sink
  result : ∀ c, (f c).result = c.result
  setSched : ∀ c s, f { c with sched := s } = { f c with sched := s }
  setSink : ∀ c s, f { c with sink := s } = { f c with sink := s }
  setResult : ∀ c r, f { c with result := r } = { f c with result := r }
  setFailed : ∀ c e, f { c with failed := e } = { f c with failed := e }

/-- It leaves alone the roots of collections, too, and the order in which they are visited. -/
class Control.Rooted (f : Control → Control) : Prop extends Control.Aside f where
  roots : ∀ c, (f c).heapRoots = c.heapRoots

section Agrees

variable {f : Control → Control} {m : Machine}

theorem agrees_allocating {op : Heap.Roots → HeapM Addr}
    (agrees : Agrees id (op m.control.heapRoots m.heap) (op (f m.control).heapRoots m.heap)) :
    Agrees (Machine.modifyControl f) (Exec.allocating op m) (Exec.allocating op (m.modifyControl f)) := by
  cases run : op m.control.heapRoots m.heap with
  | ok a h =>
    rw [run] at agrees
    rw [allocating_ok run]
    exact allocating_ok agrees
  | error e h =>
    rw [run] at agrees
    rw [allocating_error run]
    cases e with
    | fault c => exact allocating_error agrees
    | crash c => trivial

theorem agrees_withPins {as : List Addr} {y : Exec Unit}
    (agrees : Agrees (Machine.modifyControl f) (y (m.addPins as)) (y ((m.addPins as).modifyControl f))) :
    Agrees (Machine.modifyControl f) (Exec.withPins as y m) (Exec.withPins as y (m.modifyControl f)) := by
  rw [withPins_eq, withPins_eq]
  change Agrees _ _ (after _ (y ((m.addPins as).modifyControl f)))
  cases run : y (m.addPins as) with
  | ok a m' =>
    rw [run] at agrees
    rw [show y ((m.addPins as).modifyControl f) = .ok a (m'.modifyControl f) from agrees]
    rfl
  | error e m' =>
    rw [run] at agrees
    cases e with
    | fault c =>
      rw [show y ((m.addPins as).modifyControl f) = .error (.fault c) (m'.modifyControl f) from agrees]
      rfl
    | crash c => trivial

theorem conclude_after [aside : Control.Aside f] (fiber : Nat) (pc : Int) (op : Opcode)
    (r : EStateM.Result Failure Machine Unit) :
    Machine.conclude fiber pc op (after (Machine.modifyControl f) r) =
      after (Machine.modifyControl f) (Machine.conclude fiber pc op r) := by
  cases r with
  | ok u m => rfl
  | error e m =>
    cases e with
    | fault cause =>
      have same := aside.setFailed m.control (some ⟨cause, fiber, pc, some op⟩)
      exact congrArg (EStateM.Result.error _ <| Machine.mk m.heap ·) same.symm
    | crash e => rfl

theorem Agrees.eq_after {r r' : EStateM.Result Failure Machine Unit} (agrees : Agrees (Machine.modifyControl f) r r')
    (sound : ∀ e m, r ≠ .error (.crash e) m) : r' = after (Machine.modifyControl f) r := by
  cases r with
  | ok u m => exact agrees
  | error e m =>
    cases e with
    | fault cause => exact agrees
    | crash e => exact absurd rfl (sound e m)

/-- The step ends in the same way, too. -/
theorem Agrees.conclude [Control.Aside f] {fiber : Nat} {pc : Int} {op : Opcode}
    {r r' : EStateM.Result Failure Machine Unit} (agrees : Agrees (Machine.modifyControl f) r r')
    (sound : ∀ e m, r ≠ .error (.crash e) m) :
    Machine.conclude fiber pc op r' = after (Machine.modifyControl f) (Machine.conclude fiber pc op r) := by
  rw [agrees.eq_after sound, conclude_after]

/-- Where the change makes no difference it makes none up to crashes. -/
theorem Commutes.agrees {α : Type} {x : Exec α} (commutes : Commutes (Machine.modifyControl f) x m) :
    Agrees (Machine.modifyControl f) (x m) (x (m.modifyControl f)) := by
  unfold Commutes at commutes
  rw [commutes]
  cases x m with
  | ok a m => rfl
  | error e m => cases e <;> trivial

end Agrees

/-- The code takes no notice of the change. -/
class Exec.Overlooks (f : Control → Control) {α : Type} (x : Exec α) : Prop where
  commutes : ∀ m : Machine, Commutes (Machine.modifyControl f) x m

theorem Exec.Overlooks.agrees {f : Control → Control} {α : Type} {x : Exec α} [overlooks : Overlooks f x] (m : Machine) :
    Agrees (Machine.modifyControl f) (x m) (x (m.modifyControl f)) :=
  (overlooks.commutes m).agrees

namespace Exec.Overlooks

section Rules

variable {f : Control → Control} {α β : Type}

instance pure (a : α) : Overlooks f (Pure.pure a : Exec α) := ⟨fun _ => rfl⟩

instance fault (c : Cause) : Overlooks f (FiberVm.fault c : Exec α) := ⟨fun _ => rfl⟩

instance crash (c : Crash) : Overlooks f (FiberVm.crash c : Exec α) := ⟨fun _ => rfl⟩

instance bind (x : Exec α) (k : α → Exec β) [first : Overlooks f x] [rest : ∀ a, Overlooks f (k a)] :
    Overlooks f (x >>= k) :=
  ⟨fun m => .bind (first.commutes m) fun a m' _ => (rest a).commutes m'⟩

theorem seq {x : Exec α} {k : α → Exec β} (first : Overlooks f x) (rest : ∀ a, Overlooks f (k a)) :
    Overlooks f (x >>= k) := bind x k

instance ite (p : Prop) [Decidable p] (x y : Exec α) [yes : Overlooks f x] [no : Overlooks f y] :
    Overlooks f (if p then x else y) := by
  split
  · exact yes
  · exact no

instance forM (l : List α) (g : α → Exec Unit) [each : ∀ a, Overlooks f (g a)] : Overlooks f (l.forM g) := by
  induction l with
  | nil => exact pure ()
  | cons a l ih => exact bind (g a) fun _ => l.forM g

instance onHeap (op : HeapM α) : Overlooks f (Exec.onHeap op) := by
  refine ⟨fun m => ?_⟩
  unfold Commutes Exec.onHeap Machine.modifyControl
  dsimp only
  split <;> rfl

instance withPins (as : List Addr) (body : Exec Unit) [inner : Overlooks f body] :
    Overlooks f (Exec.withPins as body) := by
  refine ⟨fun m => ?_⟩
  have commutes := inner.commutes (m.addPins as)
  unfold Commutes at commutes ⊢
  rw [withPins_eq, withPins_eq]
  change after _ (body ((m.addPins as).modifyControl f)) = _
  rw [commutes]
  cases body (m.addPins as) <;> rfl

theorem asks {g : Control → α} (same : ∀ c, g (f c) = g c) : Overlooks f (Exec.asks g) := by
  refine ⟨fun m => ?_⟩
  change EStateM.Result.ok (g (f m.control)) _ = _
  rw [same]
  rfl

theorem modifyControl {g : Control → Control} (same : ∀ c, g (f c) = f (g c)) :
    Overlooks f (Exec.modifyControl g) := by
  refine ⟨fun m => ?_⟩
  change EStateM.Result.ok () (Machine.mk m.heap (g (f m.control))) = _
  rw [same]
  rfl

end Rules

section Aside

variable {f : Control → Control} [aside : Control.Aside f] {α : Type}

instance asksFiber (g : Fiber → α) : Overlooks f (Exec.asksFiber g) :=
  asks fun c => congrArg (g ·.current) (aside.sched c)

instance modifySched (g : Scheduler → Scheduler) : Overlooks f (Exec.modifySched g) := by
  refine modifyControl fun c => ?_
  rw [aside.sched]
  exact (aside.setSched c _).symm

instance setSink (sink : Sink) : Overlooks f (Exec.modifyControl fun c => { c with sink }) :=
  modifyControl fun c => (aside.setSink c sink).symm

instance setResult (result : Option Addr) : Overlooks f (Exec.modifyControl fun c => { c with result }) :=
  modifyControl fun c => (aside.setResult c result).symm

instance modifyFiber (g : Fiber → Fiber) : Overlooks f (Exec.modifyFiber g) := modifySched _

instance jump (pc : Int) : Overlooks f (Exec.jump pc) := modifyFiber _

instance setEnv (env : Addr) : Overlooks f (Exec.setEnv env) := modifyFiber _

instance push (a : Addr) : Overlooks f (Exec.push a) := modifySched _

instance pushFrame (a : Addr) : Overlooks f (Exec.pushFrame a) := modifyFiber _

instance park : Overlooks f Exec.park := modifySched _

instance tagOf (a : Addr) : Overlooks f (Exec.tagOf a) := onHeap _

instance expectTag (a : Addr) (want : Tag) (what : String) : Overlooks f (Exec.expectTag a want what) := by
  unfold Exec.expectTag
  infer_instance

instance peek (k : Nat) : Overlooks f (Exec.peek k) := by
  refine .seq (asksFiber _) fun operands => ?_
  split <;> infer_instance

instance drop (k : Nat) : Overlooks f (Exec.drop k) := by
  unfold Exec.drop
  infer_instance

instance pop : Overlooks f Exec.pop := by
  unfold Exec.pop
  infer_instance

instance popFrame : Overlooks f Exec.popFrame := by
  refine .seq (asksFiber _) fun frames => ?_
  split <;> infer_instance

instance wake (id : Int) (v : Addr) : Overlooks f (Exec.wake id v) := by
  have live : Overlooks f (Exec.asks fun c => c.sched.isLive id.toNat) :=
    asks fun c => congrArg (·.isLive id.toNat) (aside.sched c)
  unfold Exec.wake
  infer_instance

instance intArg (a : Addr) (who : String) : Overlooks f (Exec.intArg a who) := by
  unfold Exec.intArg
  infer_instance

instance argument (args : List Addr) (i : Nat) : Overlooks f (Exec.argument args i) := by
  unfold Exec.argument
  split <;> infer_instance

instance printLine (text : String) : Overlooks f (Exec.printLine text) := by
  refine .seq (asks aside.sink) fun sink => ?_
  split <;> infer_instance

instance send : Overlooks f Exec.send := by
  unfold Exec.send
  refine .seq (peek 0) fun v => .seq (peek 1) fun ch => .seq (expectTag ch _ _) fun _ => .seq (tagOf v) fun tag => ?_
  split
  · infer_instance
  refine .seq (onHeap _) fun closed => ?_
  split
  · infer_instance
  refine .seq (drop 2) fun _ => .seq (onHeap _) fun w => ?_
  split <;> infer_instance

instance recv : Overlooks f Exec.recv := by
  unfold Exec.recv
  refine .seq (peek 0) fun ch => .seq (expectTag ch _ _) fun _ => .seq (onHeap _) fun closed => ?_
  split
  · infer_instance
  refine .seq (drop 1) fun _ => .seq (onHeap _) fun len => ?_
  split
  · refine .seq (onHeap _) fun v => .seq (push v) fun _ => .seq (onHeap _) fun w => ?_
    split <;> infer_instance
  · refine .seq (onHeap _) fun w => ?_
    split <;> infer_instance

instance closeChan (ch : Addr) : Overlooks f (Exec.closeChan ch) := by
  unfold Exec.closeChan
  infer_instance

instance groupAdd (g : Addr) (delta : Int64) : Overlooks f (Exec.groupAdd g delta) := by
  unfold Exec.groupAdd
  infer_instance

instance groupWait (g : Addr) : Overlooks f (Exec.groupWait g) := by
  unfold Exec.groupWait
  infer_instance

instance exitScope : Overlooks f Exec.exitScope := by
  unfold Exec.exitScope
  infer_instance

instance fromCallframe (l : List Addr) : Overlooks f (Exec.fromCallframe l) := by
  induction l with
  | nil => exact pure _
  | cons a l ih =>
    unfold Exec.fromCallframe
    infer_instance

instance dropBlockframes : Overlooks f Exec.dropBlockframes := by
  refine .seq (asksFiber _) fun frames => .seq (fromCallframe frames) fun rest => ?_
  split <;> infer_instance

instance reset : Overlooks f Exec.reset := by
  unfold Exec.reset
  infer_instance

instance reschedule (canceled : Bool) : Overlooks f (Exec.reschedule canceled) := by
  refine ⟨fun m => ?_⟩
  unfold Commutes
  rw [Exec.reschedule_eq, Exec.reschedule_eq, show (m.modifyControl f).control.sched = _ from aside.sched m.control]
  have same : ∀ s, (m.modifyControl f).withSched s = (m.withSched s).modifyControl f := fun s =>
    congrArg (Machine.mk m.heap) (aside.setSched m.control s).symm
  cases m.control.sched.reschedule canceled with
  | ok u s => exact congrArg (EStateM.Result.ok ()) (same s)
  | error e s => exact congrArg (EStateM.Result.error (Failure.fault e)) (same s)

instance finish (canceled : Bool) : Overlooks f (Exec.finish canceled) := by
  have ended : Overlooks f (Exec.asks (·.result.isSome)) := asks fun c => congrArg Option.isSome (aside.result c)
  unfold Exec.finish
  infer_instance

end Aside

section Rooted

variable {f : Control → Control} [rooted : Control.Rooted f]

instance allocating (op : Heap.Roots → HeapM Addr) : Overlooks f (Exec.allocating op) := by
  refine ⟨fun m => ?_⟩
  unfold Commutes Exec.allocating Machine.modifyControl
  dsimp only
  rw [rooted.roots]
  split <;> rfl

instance boxResult (r : OpResult) : Overlooks f (Exec.boxResult r) := by
  cases r <;> (unfold Exec.boxResult; infer_instance)

instance binary (op : Operator) (x y : Addr) : Overlooks f (Exec.binary op x y) := by
  unfold Exec.binary
  infer_instance

instance unary (op : Operator) (x : Addr) : Overlooks f (Exec.unary op x) := by
  unfold Exec.unary
  infer_instance

instance builtin (b : Builtin) (args : List Addr) : Overlooks f (Exec.builtin b args) := by
  unfold Exec.builtin
  split <;> infer_instance

instance enterScope (k : Int) : Overlooks f (Exec.enterScope k) := by
  unfold Exec.enterScope
  infer_instance

instance enterClosure (fn : Addr) (args : List Addr) (tail : Bool) : Overlooks f (Exec.enterClosure fn args tail) := by
  have rest : ∀ frame, Overlooks f (do
      let captured ← Exec.onHeap (Heap.closureEnv fn)
      let env ← Exec.allocating fun roots => Heap.extend roots captured frame
      Exec.drop (args.length + 1)
      Exec.setEnv env
      Exec.jump (← Exec.onHeap (Heap.closurePc fn))) := fun frame => inferInstance
  unfold Exec.enterClosure
  dsimp only
  refine .seq (allocating _) fun frame => .seq (onHeap _) fun _ => ?_
  have := rest frame
  infer_instance

instance call (arity : Int) (tail : Bool) : Overlooks f (Exec.call arity tail) := by
  unfold Exec.call
  dsimp only
  infer_instance

/-- An instruction looks for nothing in the program unless it starts a fiber. -/
theorem instr {i : Instr} (other : ∀ stop, i ≠ .startFiber stop) : Overlooks f (Exec.instr i) := by
  unfold Exec.instr
  cases i with
  | startFiber stop => exact absurd rfl (other stop)
  | _ => infer_instance

end Rooted

end Exec.Overlooks

end FiberVm
