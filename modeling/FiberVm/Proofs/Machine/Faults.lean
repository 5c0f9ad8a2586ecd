import FiberVm.Machine.Step
import FiberVm.Proofs.Heap.Releases
import FiberVm.Proofs.Program.Checked

/-!
# Faults of checked instructions

A checked instruction may run out of memory, meet a value that it is not meant for or find a stack empty, but
nothing that the check looks at can be wrong with it. The usual faults are listed; that nothing else is raised
follows the code, down to the accesses of single words, which only crash.
-/

set_option autoImplicit false

namespace FiberVm

namespace Tame

variable (roots : Heap.Roots)

theorem box (l : Literal) : Tame (Heap.box roots l.constant) := by
  unfold Heap.box
  cases l <;> (dsimp only [Literal.constant]; infer_instance)

end Tame

section Operators

def OpResult.Usual : OpResult → Prop
  | .fault c => c.Usual
  | _ => True

theorem OpResult.Usual.ite {p : Prop} [Decidable p] {x y : OpResult} (yes : x.Usual) (no : y.Usual) :
    (if p then x else y).Usual := by
  split
  · exact yes
  · exact no

namespace Operator

variable {op : Operator} (known : op.isBinary)

include known

theorem usual_refusal (tag : Tag) : (op.refusal tag).Usual := by
  rw [refusal, if_pos known]
  exact .undefinedOn op tag

theorem usual_onInts (a b : Int64) : (op.onInts a b).Usual := by
  have div : (if b = 0 then OpResult.fault (.divideByZero a) else .int (floorDiv a b)).Usual :=
    .ite (.divideByZero a) trivial
  have mod : (if b = 0 then OpResult.fault (.remainderByZero a) else .int (a % b)).Usual :=
    .ite (.remainderByZero a) trivial
  unfold onInts
  refine .ite trivial <| .ite trivial <| .ite trivial <| .ite div <| .ite mod ?_
  refine .ite trivial <| .ite trivial <| .ite trivial <| .ite trivial <| .ite trivial <| .ite trivial ?_
  exact usual_refusal known .int

theorem usual_onBools (a b : Bool) (tag : Tag) : (op.onBools a b tag).Usual :=
  .ite trivial <| .ite trivial <| .ite trivial <| .ite trivial <| usual_refusal known tag

end Operator

end Operators

namespace Exec

section Machine

variable {α : Type} (a : Addr)

instance tame_onHeap (op : HeapM α) [inner : Tame op] : Tame (onHeap op) := by
  refine ⟨fun m c m' run => ?_⟩
  unfold onHeap at run
  dsimp only at run
  split at run
  · cases run
  · next here =>
    cases run
    exact inner.usual _ c _ here

instance tame_allocating (op : Heap.Roots → HeapM α) [inner : ∀ roots, Tame (op roots)] : Tame (allocating op) := by
  refine ⟨fun m c m' run => ?_⟩
  unfold allocating at run
  dsimp only at run
  split at run
  · cases run
  · next here =>
    cases run
    exact (inner _).usual _ c _ here

instance tame_withPins (as : List Addr) (body : Exec α) [inner : Tame body] : Tame (withPins as body) := by
  refine ⟨fun m c m' run => ?_⟩
  unfold withPins at run
  dsimp only at run
  split at run
  · cases run
  · next here =>
    cases run
    exact inner.usual _ c _ here

instance tame_asks (f : Control → α) : Tame (asks f) := .of_ok fun _ => ⟨_, _, rfl⟩

instance tame_asksFiber (f : Fiber → α) : Tame (asksFiber f) := .of_ok fun _ => ⟨_, _, rfl⟩

instance tame_modifyControl (f : Control → Control) : Tame (modifyControl f) := .of_ok fun _ => ⟨_, _, rfl⟩

instance tame_modifySched (f : Scheduler → Scheduler) : Tame (modifySched f) := .of_ok fun _ => ⟨_, _, rfl⟩

instance tame_modifyFiber (f : Fiber → Fiber) : Tame (modifyFiber f) := .of_ok fun _ => ⟨_, _, rfl⟩

instance tame_jump (pc : Int) : Tame (jump pc) := .of_ok fun _ => ⟨_, _, rfl⟩

instance tame_setEnv : Tame (setEnv a) := .of_ok fun _ => ⟨_, _, rfl⟩

instance tame_push : Tame (push a) := .of_ok fun _ => ⟨_, _, rfl⟩

instance tame_pushFrame : Tame (pushFrame a) := .of_ok fun _ => ⟨_, _, rfl⟩

instance tame_park : Tame park := .of_ok fun _ => ⟨_, _, rfl⟩

instance tame_peek (n : Nat) : Tame (peek n) := by
  refine .seq (tame_asksFiber _) fun operands => ?_
  split <;> infer_instance

instance tame_popFrame : Tame popFrame := by
  refine .seq (tame_asksFiber _) fun frames => ?_
  split <;> infer_instance

instance tame_drop (n : Nat) : Tame (drop n) := by
  unfold Exec.drop
  infer_instance

instance tame_pop : Tame pop := by
  unfold Exec.pop
  infer_instance

instance tame_tagOf : Tame (tagOf a) := by
  unfold Exec.tagOf
  infer_instance

instance tame_expectTag (want : Tag) (what : String) : Tame (expectTag a want what) := by
  unfold Exec.expectTag
  infer_instance

instance tame_wake (id : Int) (v : Addr) : Tame (wake id v) := by
  unfold Exec.wake
  infer_instance

instance tame_closeChan : Tame (closeChan a) := by
  unfold Exec.closeChan
  infer_instance

instance tame_groupAdd (n : Int64) : Tame (groupAdd a n) := by
  unfold Exec.groupAdd
  infer_instance

instance tame_groupWait : Tame (groupWait a) := by
  unfold Exec.groupWait
  infer_instance

instance tame_intArg (who : String) : Tame (intArg a who) := by
  unfold Exec.intArg
  infer_instance

instance tame_send : Tame send := by
  unfold send
  refine .seq (tame_peek 0) fun v => .seq (tame_peek 1) fun ch => .seq (tame_expectTag ch _ _) fun _ =>
    .seq (tame_tagOf v) fun tag => ?_
  split
  · infer_instance
  refine .seq (tame_onHeap _) fun closed => ?_
  split
  · infer_instance
  refine .seq (tame_drop 2) fun _ => .seq (tame_onHeap _) fun w => ?_
  split <;> infer_instance

instance tame_recv : Tame recv := by
  unfold recv
  refine .seq (tame_peek 0) fun ch => .seq (tame_expectTag ch _ _) fun _ => .seq (tame_onHeap _) fun closed => ?_
  split
  · infer_instance
  refine .seq (tame_drop 1) fun _ => .seq (tame_onHeap _) fun len => ?_
  split
  · refine .seq (tame_onHeap _) fun v => .seq (tame_push v) fun _ => .seq (tame_onHeap _) fun w => ?_
    split <;> infer_instance
  · refine .seq (tame_onHeap _) fun w => ?_
    split <;> infer_instance

instance tame_argument (args : List Addr) (i : Nat) : Tame (argument args i) := by
  unfold argument
  split <;> infer_instance

instance tame_printLine (text : String) : Tame (printLine text) := by
  refine .seq (tame_asks _) fun sink => ?_
  split <;> infer_instance

instance tame_builtin (b : Builtin) (args : List Addr) : Tame (builtin b args) := by
  unfold builtin
  split <;> infer_instance

instance tame_fromCallframe (l : List Addr) : Tame (fromCallframe l) := by
  induction l with
  | nil => exact .pure _
  | cons a l ih =>
    unfold fromCallframe
    infer_instance

instance tame_dropBlockframes : Tame dropBlockframes := by
  refine .seq (tame_asksFiber _) fun frames => .seq (tame_fromCallframe frames) fun rest => ?_
  split <;> infer_instance

instance tame_enterScope (n : Int) : Tame (enterScope n) := by
  unfold Exec.enterScope
  infer_instance

instance tame_exitScope : Tame exitScope := by
  unfold Exec.exitScope
  infer_instance

instance tame_enterClosure (args : List Addr) (tail : Bool) : Tame (enterClosure a args tail) := by
  have rest : ∀ frame, Tame (do
      let captured ← onHeap (Heap.closureEnv a)
      let env ← allocating fun roots => Heap.extend roots captured frame
      drop (args.length + 1)
      setEnv env
      jump (← onHeap (Heap.closurePc a))) := fun frame => inferInstance
  unfold Exec.enterClosure
  dsimp only
  refine .seq (tame_allocating _) fun frame => .seq (tame_onHeap _) fun _ => ?_
  have := rest frame
  infer_instance

instance tame_reset : Tame reset := by
  unfold Exec.reset
  infer_instance

instance tame_findStop (next : Nat) : Tame (findStop next) := by
  refine .seq (tame_asks _) fun code => ?_
  split <;> infer_instance

instance tame_startFiber (stop : Int) : Tame (startFiber stop) := by
  unfold startFiber
  dsimp only
  infer_instance

/-- An arity that is not negative is as good as any. -/
theorem tame_call {arity : Int} (tail : Bool) (valid : 0 ≤ arity) : Tame (call arity tail) := by
  unfold call
  rw [if_neg (Int.not_lt.2 valid)]
  dsimp only
  refine .seq (tame_peek _) fun fn => .seq (tame_asksFiber _) fun operands => .seq (tame_tagOf fn) fun tag => ?_
  infer_instance

theorem tame_boxResult {r : OpResult} (usual : r.Usual) : Tame (boxResult r) := by
  unfold boxResult
  cases r with
  | int n => infer_instance
  | bool b => infer_instance
  | fault c =>
    have : c.Usual := usual
    exact .fault c

theorem tame_binary {op : Operator} (known : op.isBinary) (x y : Addr) : Tame (binary op x y) := by
  unfold binary
  refine .seq (tame_tagOf x) fun tx => .seq (tame_tagOf y) fun ty => ?_
  split
  · exact .seq inferInstance fun m => .seq inferInstance fun n => tame_boxResult (Operator.usual_onInts known m n)
  split
  · exact tame_boxResult (Operator.usual_onBools known _ _ tx)
  · infer_instance

theorem tame_unary {op : Operator} (known : op = .neg ∨ op = .not) (x : Addr) : Tame (unary op x) := by
  have boxed : ∀ n, Tame (boxResult (.int n)) := fun n => tame_boxResult trivial
  unfold unary
  split
  · infer_instance
  split
  · infer_instance
  · next other other' => exact absurd known (not_or.2 ⟨other, other'⟩)

/-- What a checked instruction raises is usual. -/
theorem tame_instr {size : Nat} {i : Instr} (checked : i.Checked size) : Tame (instr i) := by
  cases i with
  | loadConst c =>
    obtain ⟨l, rfl⟩ := checked.constant
    have := fun roots => Tame.box roots l
    unfold instr
    infer_instance
  | binary op =>
    have := tame_binary checked.binary
    unfold instr
    infer_instance
  | unary op =>
    have := tame_unary checked.unary
    unfold instr
    infer_instance
  | call arity => exact tame_call false (checked.arity (.inl rfl))
  | tailCall arity => exact tame_call true (checked.arity (.inr rfl))
  | foreign op name => exact absurd checked Instr.Checked.not_foreign
  | _ =>
    unfold instr
    infer_instance

end Machine

end Exec

end FiberVm
