import FiberVm.Proofs.Machine.Conduct

/-!
# Calls of builtins

A call of a builtin with as many arguments as it takes moves them and the function off the operand stack and runs the
builtin.
-/

set_option autoImplicit false

namespace FiberVm

open Heap (Shows)

theorem Exec.peek_of_getElem? {m : Machine} {n : Nat} {a : Addr} (get : m.control.sched.current.operands[n]? = some a) :
    Exec.peek n m = .ok a m := by
  unfold Exec.peek
  refine (bind_of_ok (x := Exec.asksFiber (·.operands)) rfl).trans ?_
  rw [get]
  rfl

theorem Exec.argument_of_getElem? {m : Machine} {args : List Addr} {i : Nat} {a : Addr} (get : args[i]? = some a) :
    Exec.argument args i m = .ok a m := by
  unfold Exec.argument
  rw [get]
  rfl

theorem Exec.intArg_shows {m : Machine} {a : Addr} {k : Int64} (s : Shows m.heap.words a (.int k)) (who : String) :
    Exec.intArg a who m = .ok k m :=
  (bind_of_ok (onHeap_ok (Heap.tagOf_shows s))).trans (onHeap_ok (Heap.intValue_shows s))

namespace Machine

variable {m m' : Machine} {i : Instr} {b : Builtin} {args : List Addr}

instance (m : Machine) (i : Instr) : Decidable (m.Executes i) := by
  refine decidable_of_iff
    (m.control.failed = none ∧ m.control.result = none ∧ m.control.advance.2.toOption = some i) ?_
  unfold Executes
  cases m.control.advance.2 <;> simp [Except.toOption]

/-- The machine without the topmost `n` operands. -/
def popped (m : Machine) (n : Nat) : Machine := m.withFiber (m.control.sched.current.drop n)

theorem popped_undisturbed (m : Machine) (n : Nat) : m.control.sched.Undisturbed (m.popped n).control.sched :=
  m.undisturbed_withFiber rfl rfl

/-- The instruction is the next one. It calls the builtin `b` with these arguments. -/
structure Invokes (m : Machine) (i : Instr) (b : Builtin) (args : List Addr) : Prop where
  next : m.Executes i
  calls : i = .call args.length ∨ i = .tailCall args.length
  operands : ∃ f rest, m.current.operands = args.reverse ++ f :: rest ∧
    Shows m.heap.words f (.builtin b args.length)

/-- The machine that is about to run the builtin. -/
def invoked (m : Machine) (args : List Addr) : Machine := m.begun.popped (args.length + 1)

theorem invoked_undisturbed (m : Machine) (args : List Addr) :
    m.control.sched.Undisturbed (m.invoked args).control.sched :=
  m.begun_undisturbed.trans (m.begun.popped_undisturbed _)

theorem Invokes.function (invokes : m.Invokes i b args) : ∃ f, m.current.operands[args.length]? = some f ∧
    Shows m.heap.words f (.builtin b args.length) ∧ (m.current.operands.take args.length).reverse = args := by
  obtain ⟨f, rest, operands, s⟩ := invokes.operands
  refine ⟨f, ?_, s, ?_⟩
  · rw [operands, List.getElem?_append_right (Nat.le_of_eq List.length_reverse), List.length_reverse, Nat.sub_self]
    rfl
  · rw [operands, ← List.length_reverse, List.take_left, List.reverse_reverse]

theorem Invokes.callee (invokes : m.Invokes i b args) : m.callee i = some b := by
  obtain ⟨f, get, s, -⟩ := invokes.function
  rcases invokes.calls with rfl | rfl <;>
    simp only [Machine.callee, Int.toNat_natCast, get, s.tagAt, Node.tag, Heap.builtinAt_shows s, if_true]

theorem Invokes.arguments (invokes : m.Invokes i b args) : m.arguments i = args := by
  obtain ⟨-, -, -, taken⟩ := invokes.function
  rcases invokes.calls with rfl | rfl
  · exact taken
  · exact taken

theorem Invokes.instr_eq (invokes : m.Invokes i b args) :
    Exec.instr i m.begun = Exec.builtin b args (m.invoked args) := by
  obtain ⟨f, get, s, taken⟩ := invokes.function
  have get : m.begun.control.sched.current.operands[args.length]? = some f := get
  have taken : (m.begun.control.sched.current.operands.take args.length).reverse = args := taken
  have s : Shows m.begun.heap.words f (.builtin b args.length) := s
  have call : ∀ tail, Exec.call args.length tail m.begun = Exec.builtin b args (m.invoked args) := by
    intro tail
    unfold Exec.call
    rw [if_neg (by omega)]
    refine (bind_of_ok (Exec.peek_of_getElem? get)).trans ?_
    refine (bind_of_ok (x := Exec.asksFiber (·.operands)) rfl).trans ?_
    refine (bind_of_ok (onHeap_ok (Heap.tagOf_shows s))).trans ?_
    refine (bind_of_ok (onHeap_ok (Heap.builtinAt_shows s))).trans ?_
    dsimp only [Int.toNat_natCast]
    rw [if_neg (Classical.not_not.2 rfl), taken]
    exact bind_of_ok (Exec.drop_ok (List.getElem?_eq_some_iff.1 get).1)
  rcases invokes.calls with rfl | rfl
  · exact call false
  · exact call true

theorem Invokes.executed (invokes : m.Invokes i b args) (run : Exec.builtin b args (m.invoked args) = .ok () m')
    (canceled : Bool) : m.executed (.step canceled) = some (i, m') :=
  m.executed_of_executes canceled invokes.next (invokes.instr_eq.trans run)

end Machine

end FiberVm
