import FiberVm.Proofs.Heap.Releases
import FiberVm.Proofs.Machine.Travel

/-!
# What code keeps

Something that is said of a machine without its heap, such as that the slice of the current fiber has a certain
length, is kept by code however that ends. Nothing is assumed of the heap. The rules follow the code and are
instances, so of each property only the few operations on fibers have to be looked at that change registers,
wake, park or start somebody.

Along with it goes what is said of every code: that it gives back what it pins.
-/

set_option autoImplicit false

namespace FiberVm

/-- The code keeps `I`, however it ends, and leaves the pins as they were. -/
class Exec.Keeps (I : Control → Prop) {α : Type} (x : Exec α) : Prop where
  keeps : ∀ m : Machine, I m.control → Settles (fun m => I m.control) (x m)
  pins : ∀ m : Machine, Settles (fun m' => m'.heap.pinned = m.heap.pinned) (x m)

namespace Exec.Keeps

section Rules

variable {I : Control → Prop} {α β : Type}

instance pure (a : α) : Keeps I (Pure.pure a : Exec α) := ⟨fun _ holds => holds, fun _ => rfl⟩

instance fault (c : Cause) : Keeps I (FiberVm.fault c : Exec α) := ⟨fun _ holds => holds, fun _ => rfl⟩

instance crash (c : Crash) : Keeps I (FiberVm.crash c : Exec α) := ⟨fun _ holds => holds, fun _ => rfl⟩

instance asks (f : Control → α) : Keeps I (Exec.asks f) := ⟨fun _ holds => holds, fun _ => rfl⟩

instance asksFiber (f : Fiber → α) : Keeps I (Exec.asksFiber f) := asks _

instance onHeap (op : HeapM α) [releases : Heap.Releases op] : Keeps I (Exec.onHeap op) := by
  unfold Exec.onHeap
  refine ⟨fun m holds => ?_, fun m => ?_⟩
  · dsimp only
    split <;> exact holds
  · have ends := releases.pins m.heap
    dsimp only
    split <;>
    · next here =>
      rw [here] at ends
      exact ends

theorem allocating_of_pins {op : Heap.Roots → HeapM α}
    (pins : ∀ roots h, Settles (fun h' => h'.pinned = h.pinned) (op roots h)) : Keeps I (Exec.allocating op) := by
  unfold Exec.allocating
  refine ⟨fun m holds => ?_, fun m => ?_⟩
  · dsimp only
    split <;> exact holds
  · have ends := pins m.control.heapRoots m.heap
    dsimp only
    split <;>
    · next here =>
      rw [here] at ends
      exact ends

instance allocating (op : Heap.Roots → HeapM α) [releases : ∀ roots, Heap.Releases (op roots)] :
    Keeps I (Exec.allocating op) := allocating_of_pins fun roots => (releases roots).pins

instance boxing (v : Constant) : Keeps I (Exec.allocating fun roots => Heap.box roots v) :=
  allocating_of_pins fun roots => Heap.Releases.box roots v

instance bind (x : Exec α) (k : α → Exec β) [first : Keeps I x] [rest : ∀ a, Keeps I (k a)] :
    Keeps I (x >>= k) where
  keeps m holds := Settles.bind (first.keeps m holds) (fun a m' _ => (rest a).keeps m') fun _ => id
  pins m := Settles.bind (first.pins m) (fun a m' _ same => same ▸ (rest a).pins m') fun _ => id

theorem seq {x : Exec α} {k : α → Exec β} (first : Keeps I x) (rest : ∀ a, Keeps I (k a)) : Keeps I (x >>= k) :=
  bind x k

instance ite (p : Prop) [Decidable p] (x y : Exec α) [yes : Keeps I x] [no : Keeps I y] :
    Keeps I (if p then x else y) := by
  split
  · exact yes
  · exact no

instance withPins (as : List Addr) (body : Exec α) [inner : Keeps I body] : Keeps I (Exec.withPins as body) := by
  unfold Exec.withPins
  refine ⟨fun m holds => ?_, fun m => ?_⟩
  · have ends := inner.keeps ⟨{ m.heap with pinned := m.heap.pinned ++ as }, m.control⟩ holds
    dsimp only
    split <;> (rename_i run; rw [run] at ends; exact ends)
  · have ends := inner.pins ⟨{ m.heap with pinned := m.heap.pinned ++ as }, m.control⟩
    dsimp only
    split <;> (rename_i run; rw [run] at ends; exact m.heap.pinned_release ends)

instance forM (l : List α) (f : α → Exec Unit) [each : ∀ a, Keeps I (f a)] : Keeps I (l.forM f) := by
  induction l with
  | nil => exact pure ()
  | cons a l ih => exact bind (f a) fun _ => l.forM f

theorem modifyControl {f : Control → Control} (closed : ∀ c, I c → I (f c)) : Keeps I (Exec.modifyControl f) :=
  ⟨fun m => closed m.control, fun _ => rfl⟩

end Rules

end Exec.Keeps

/-- What is said of the control depends on the operands and the environment of the current fiber only as far as the
number of the operands goes, and neither on values that are handed over nor on who waits or what has been printed. -/
class Control.Coarse (I : Control → Prop) : Prop where
  level : ∀ (c : Control) (f : Fiber), f.id = c.sched.current.id → f.state = c.sched.current.state →
    f.pc = c.sched.current.pc → f.started = c.sched.current.started →
    f.operands.length = c.sched.current.operands.length → I c → I { c with sched := { c.sched with current := f } }
  wake : ∀ (c : Control) (id : Nat), I c → I { c with sched := c.sched.wake id }
  deliver : ∀ (c : Control) (id : Nat) (v : Addr), I c → I { c with sched := c.sched.deliver id v }
  park : ∀ c : Control, I c → I { c with sched := c.sched.park }
  sleep : ∀ (c : Control) (ms : Int64), I c → I { c with sched := c.sched.sleep ms }
  print : ∀ (c : Control) (sink : Sink), I c → I { c with sink }

/-- Nor does it depend on the number of the operands. -/
class Control.Indifferent (I : Control → Prop) : Prop extends Control.Coarse I where
  registers : ∀ (c : Control) (f : Fiber) (saved : Option Nat), f.id = c.sched.current.id →
    f.state = c.sched.current.state → f.pc = c.sched.current.pc → f.started = c.sched.current.started → I c →
      I { c with sched := { c.sched with current := f, saved } }
  level := fun c f id state pc started _ => registers c f c.sched.saved id state pc started

/-- What is said of the control depends neither on where a fiber is in the program, on fibers that start, nor on the
result. -/
class Control.Placeless (I : Control → Prop) : Prop where
  jump : ∀ (c : Control) (pc : Int), I c → I { c with sched := { c.sched with current := { c.sched.current with pc } } }
  spawn : ∀ (c : Control) (pc : Int) (env : Addr), I c → I { c with sched := c.sched.spawn pc env }
  finish : ∀ (c : Control) (result : Option Addr), I c → I { c with result }

/-- It depends neither on registers nor on fibers that start. -/
class Control.Lasting (I : Control → Prop) : Prop extends Control.Indifferent I, Control.Placeless I

/-- Nor does it depend on fibers that end. -/
class Control.Careless (I : Control → Prop) : Prop extends Control.Lasting I where
  stop : ∀ c : Control, I c → I { c with sched := c.sched.terminate }

/-- Only a fiber that stops itself has ended. -/
instance Control.lasting_alive : Control.Lasting fun c => c.sched.current.state ≠ .terminated where
  registers := fun _ _ _ _ state _ _ alive => state ▸ alive
  wake := fun c id alive => mt (c.sched.context_wake id).2.2.2.1 alive
  deliver := fun c id v alive => (c.sched.context_deliver id v).2.2.2 ▸ alive
  park := fun _ _ => nofun
  sleep := fun _ _ _ => nofun
  print := fun _ _ alive => alive
  jump := fun _ _ alive => alive
  spawn := fun _ _ _ alive => alive
  finish := fun _ _ alive => alive

namespace Exec.Keeps

section Coarse

variable {I : Control → Prop} [Control.Coarse I]

theorem level {f : Fiber → Fiber} (id : ∀ k, (f k).id = k.id) (state : ∀ k, (f k).state = k.state)
    (pc : ∀ k, (f k).pc = k.pc) (started : ∀ k, (f k).started = k.started)
    (height : ∀ k, (f k).operands.length = k.operands.length) : Keeps I (Exec.modifyFiber f) :=
  modifyControl fun c => Control.Coarse.level c _ (id _) (state _) (pc _) (started _) (height _)

instance setEnv (env : Addr) : Keeps I (Exec.setEnv env) :=
  level (fun _ => rfl) (fun _ => rfl) (fun _ => rfl) (fun _ => rfl) fun _ => rfl

instance peek (k : Nat) : Keeps I (Exec.peek k) := by
  refine .seq (asks _) fun operands => ?_
  split <;> infer_instance

instance pushFrame (a : Addr) : Keeps I (Exec.pushFrame a) :=
  level (fun _ => rfl) (fun _ => rfl) (fun _ => rfl) (fun _ => rfl) fun _ => rfl

instance popFrame : Keeps I Exec.popFrame := by
  refine .seq (asks _) fun frames => ?_
  split
  · infer_instance
  · exact .seq (level (fun _ => rfl) (fun _ => rfl) (fun _ => rfl) (fun _ => rfl) fun _ => rfl) fun _ => pure _

instance tagOf (a : Addr) : Keeps I (Exec.tagOf a) := onHeap _

instance expectTag (a : Addr) (want : Tag) (what : String) :
    Keeps I (Exec.expectTag a want what) := by
  unfold Exec.expectTag
  infer_instance

instance wake (id : Int) (v : Addr) : Keeps I (Exec.wake id v) := by
  have : Keeps I (Exec.modifySched fun s =>
      (if v = noAddr then s else s.deliver id.toNat v).wake id.toNat) := by
    refine modifyControl fun c holds => ?_
    split
    · exact Control.Coarse.wake c id.toNat holds
    · exact Control.Coarse.wake _ id.toNat (Control.Coarse.deliver c id.toNat v holds)
  unfold Exec.wake
  infer_instance

instance park : Keeps I Exec.park :=
  modifyControl Control.Coarse.park

theorem sleep (ms : Int64) : Keeps I (Exec.modifySched fun s => s.sleep ms) :=
  modifyControl fun c => Control.Coarse.sleep c ms

instance boxResult (r : OpResult) : Keeps I (Exec.boxResult r) := by
  cases r <;> (unfold Exec.boxResult; infer_instance)

instance binary (op : Operator) (x y : Addr) : Keeps I (Exec.binary op x y) := by
  unfold Exec.binary
  infer_instance

instance unary (op : Operator) (x : Addr) : Keeps I (Exec.unary op x) := by
  unfold Exec.unary
  infer_instance

instance closeChan (ch : Addr) : Keeps I (Exec.closeChan ch) := by
  unfold Exec.closeChan
  infer_instance

instance groupAdd (g : Addr) (delta : Int64) : Keeps I (Exec.groupAdd g delta) := by
  unfold Exec.groupAdd
  infer_instance

instance groupWait (g : Addr) : Keeps I (Exec.groupWait g) := by
  unfold Exec.groupWait
  infer_instance

instance intArg (a : Addr) (who : String) : Keeps I (Exec.intArg a who) := by
  unfold Exec.intArg
  infer_instance

instance argument (args : List Addr) (i : Nat) : Keeps I (Exec.argument args i) := by
  unfold Exec.argument
  split <;> infer_instance

instance printLine (text : String) : Keeps I (Exec.printLine text) := by
  refine .seq (asks _) fun sink => ?_
  split
  · exact modifyControl fun c => Control.Coarse.print c _
  · infer_instance

instance enterScope (k : Int) : Keeps I (Exec.enterScope k) := by
  unfold Exec.enterScope
  infer_instance

instance exitScope : Keeps I Exec.exitScope := by
  unfold Exec.exitScope
  infer_instance

instance fromCallframe (l : List Addr) : Keeps I (Exec.fromCallframe l) := by
  induction l with
  | nil => exact pure _
  | cons a l ih =>
    unfold Exec.fromCallframe
    infer_instance

instance dropBlockframes : Keeps I Exec.dropBlockframes := by
  refine .seq (asks _) fun frames => .seq (fromCallframe frames) fun rest => ?_
  split
  · exact level (fun _ => rfl) (fun _ => rfl) (fun _ => rfl) (fun _ => rfl) fun _ => rfl
  · infer_instance

instance findStop (next : Nat) : Keeps I (Exec.findStop next) := by
  refine .seq (asks _) fun code => ?_
  split <;> infer_instance

end Coarse

section Placeless

variable {I : Control → Prop} [Control.Placeless I]

instance jump (pc : Int) : Keeps I (Exec.jump pc) := modifyControl fun c => Control.Placeless.jump c pc

theorem finish (result : Option Addr) : Keeps I (Exec.modifyControl fun c => { c with result }) :=
  modifyControl fun c => Control.Placeless.finish c result

variable [Control.Coarse I]

instance reset : Keeps I Exec.reset := by
  unfold Exec.reset
  infer_instance

instance startFiber (stop : Int) : Keeps I (Exec.startFiber stop) := by
  have spawn : ∀ pc env, Keeps I (Exec.modifySched fun s => s.spawn pc env) := fun pc env =>
    modifyControl fun c => Control.Placeless.spawn c pc env
  unfold Exec.startFiber
  infer_instance

end Placeless

section Indifferent

variable {I : Control → Prop} [Control.Indifferent I]

instance push (a : Addr) : Keeps I (Exec.push a) :=
  modifyControl fun c => Control.Indifferent.registers c _ _ rfl rfl rfl rfl

instance drop (k : Nat) : Keeps I (Exec.drop k) := by
  have : Keeps I (Exec.modifyFiber fun f => f.drop k) :=
    modifyControl fun c => Control.Indifferent.registers c _ _ rfl rfl rfl rfl
  unfold Exec.drop
  infer_instance

instance pop : Keeps I Exec.pop := by
  unfold Exec.pop
  infer_instance

instance send : Keeps I Exec.send := by
  unfold Exec.send
  refine .seq (peek 0) fun v => .seq (peek 1) fun ch => .seq (expectTag ch _ _) fun _ => .seq (tagOf v) fun tag => ?_
  split
  · infer_instance
  refine .seq (onHeap _) fun closed => ?_
  split
  · infer_instance
  refine .seq (drop 2) fun _ => .seq (onHeap _) fun w => ?_
  split <;> infer_instance

instance recv : Keeps I Exec.recv := by
  unfold Exec.recv
  refine .seq (peek 0) fun ch => .seq (expectTag ch _ _) fun _ => .seq (onHeap _) fun closed => ?_
  split
  · infer_instance
  refine .seq (drop 1) fun _ => .seq (onHeap _) fun len => ?_
  split
  · refine .seq (onHeap _) fun v => .seq (push v) fun _ => .seq (onHeap _) fun w => ?_
    split <;> infer_instance
  · refine .seq (onHeap _) fun w => ?_
    split <;> infer_instance

instance builtin (b : Builtin) (args : List Addr) : Keeps I (Exec.builtin b args) := by
  have : ∀ ms, Keeps I (Exec.modifySched fun s => s.sleep ms) := sleep
  unfold Exec.builtin
  split <;> infer_instance

end Indifferent

section Lasting

variable {I : Control → Prop} [Control.Lasting I]

instance enterClosure (fn : Addr) (args : List Addr) (tail : Bool) : Keeps I (Exec.enterClosure fn args tail) := by
  have rest : ∀ frame, Keeps I (do
      let captured ← Exec.onHeap (Heap.closureEnv fn)
      let env ← Exec.allocating fun roots => Heap.extend roots captured frame
      Exec.drop (args.length + 1)
      Exec.setEnv env
      Exec.jump (← Exec.onHeap (Heap.closurePc fn))) := fun frame => inferInstance
  unfold Exec.enterClosure
  dsimp only
  refine .seq (allocating _) fun frame => .seq (onHeap _) fun _ => ?_
  have := rest frame
  infer_instance

instance call (arity : Int) (tail : Bool) : Keeps I (Exec.call arity tail) := by
  unfold Exec.call
  dsimp only
  infer_instance

theorem instr_of_ne {i : Instr} (lasts : i ≠ .stopFiber) : Keeps I (Exec.instr i) := by
  have : ∀ result, Keeps I (Exec.modifyControl fun c => { c with result }) := finish
  unfold Exec.instr
  cases i with
  | stopFiber => exact absurd rfl lasts
  | _ => infer_instance

end Lasting

theorem instr {I : Control → Prop} [Control.Careless I] (i : Instr) : Keeps I (Exec.instr i) := by
  by_cases stops : i = .stopFiber
  · subst stops
    exact modifyControl Control.Careless.stop
  · exact instr_of_ne stops

end Exec.Keeps

end FiberVm
