import Mathlib.Algebra.Group.Int.Defs
import FiberVm.Proofs.Machine.CallReturn
import FiberVm.Proofs.Machine.Invocation
import FiberVm.Proofs.Machine.Visits

/-!
# Arguments and variables are bound

Wherever a collection comes in between, a call finds its arguments in the frame that it adds to the environment of the
closure, and a block finds its variables, not assigned yet, in one that it adds to its own. A call and a block save
where they were entered. All else that is in reach afterwards is as it was.
-/

set_option autoImplicit false

namespace FiberVm

open Heap (Shows Has Allots Closure SameNode)

/-- The frames of `env` are those of `env'` without the last one. A variable at this depth has the slots given. -/
def Heap.Binds (h h' : Heap) (env env' : Addr) (slots : List Addr) : Prop :=
  ∃ frames frame, Shows h.words env (.environment frames) ∧
    Shows h'.words env' (.environment (frames ++ [frame])) ∧ Shows h'.words frame (.frame slots) ∧
    ∀ (j : Nat) (a : Addr), slots[j]? = some a → lookup env' frames.length j h' = .ok a h'

theorem Heap.binds_of_shows {h h' : Heap} {env env' frame : Addr} {frames slots : List Addr}
    (s : Shows h.words env (.environment frames)) (s' : Shows h'.words env' (.environment (frames ++ [frame])))
    (t : Shows h'.words frame (.frame slots)) : Heap.Binds h h' env env' slots := by
  refine ⟨frames, frame, s, s', t, fun j a get => ?_⟩
  have top : (frames ++ [frame])[(frames.length : Int).toNat]? = some frame := by simp
  have lt : (j : Int) < slots.length := by exact_mod_cast (List.getElem?_eq_some_iff.1 get).1
  rw [lookup, bind_of_ok (slotFrame_shows s' top t (by omega) ⟨by omega, lt⟩)]
  exact child_frame t rfl get

namespace Machine

/-- The instruction enters a block or a closure. -/
def Enters (m : Machine) : Instr → Prop
  | .call n | .tailCall n => m.CallsClosure n
  | .enterScope _ => True
  | _ => False

/-- A closure has been entered. It was on the operand stack below its arguments, the first one first. -/
def Applies (m : Machine) (args : List Addr) (m' : Machine) : Prop :=
  ∃ fn rest pc env, m.current.operands = args.reverse ++ fn :: rest ∧
    Shows m.heap.words fn (.closure args.length pc env) ∧ m'.current.operands = rest ∧ m'.current.pc = pc ∧
    Heap.Binds m.heap m'.heap env m'.current.env args

/-- There is one frame more on the runtime stack. -/
def Pushes (m : Machine) (n : Node) (m' : Machine) : Prop :=
  ∃ a, m'.current.frames = a :: m.current.frames ∧ Shows m'.heap.words a n

/-- What the registers are when a block or a closure has been entered. A call frame has 32 bits for the index of the
next instruction. -/
def Entered (m m' : Machine) : Instr → Prop
  | .call n => ∃ args saved, (args.length : Int) = n ∧ m.Applies args m' ∧
    m.Pushes (.callframe saved m.current.env) m' ∧ (saved : Int) = (m.current.pc + 1) % 2 ^ 32 ∧
    (m.control.code.size < UInt32.size → (saved : Int) = m.current.pc + 1)
  | .tailCall n => ∃ args left, (args.length : Int) = n ∧ m.Applies args m' ∧
    Unwinds (Has m.heap.words) m.current.frames left ∧ m'.current.frames = left.getD m.current.frames
  | .enterScope n => ∃ k : Nat, (k : Int) = n ∧
    Heap.Binds m.heap m'.heap m.current.env m'.current.env (List.replicate k Heap.unassigned) ∧
    m.Pushes (.blockframe m.current.env) m' ∧ m'.current.operands = m.current.operands ∧
    m'.current.pc = m.current.pc + 1
  | _ => False

/-- A block or a closure has been entered by the current fiber, and only what the allocator has taken for that has
changed among the nodes in reach. -/
structure Entry (m : Machine) (i : Instr) (m' : Machine) : Prop where
  fiber : m'.current.id = m.current.id
  entered : m.Entered m' i
  spared : ∃ new, Allots new m.heap m'.heap ∧
    ∀ a, Closure m'.heap.words m'.held a → a ∉ new → SameNode m.heap.words m'.heap.words a

section

variable {q : Terms} {w : World} {c : Code} {P : Int → Prop} {m m₂ m' : Machine} {i : Instr} {fn env : Addr}
  {arity : Int} {tail : Bool}

theorem Enters.light (enters : m.Enters i) : m.Light i := by
  cases i with
  | call _ | tailCall _ => exact enters
  | enterScope _ => trivial
  | _ => exact enters.elim

theorem call_eq {k pc : Nat} (pos : 0 ≤ arity) (get : m.current.operands[arity.toNat]? = some fn)
    (s : Shows m.heap.words fn (.closure k pc env)) : Exec.call arity tail m =
      (if arity.toNat ≠ k then fault (.closureArity k arity)
        else Exec.enterClosure fn (m.current.operands.take arity.toNat).reverse tail) m := by
  unfold Exec.call
  rw [if_neg (Int.not_lt.2 pos)]
  refine (bind_of_ok (Exec.peek_of_getElem? get)).trans ?_
  refine (bind_of_ok (x := Exec.asksFiber (·.operands)) rfl).trans ?_
  refine (bind_of_ok (onHeap_ok (Heap.tagOf_shows s))).trans ?_
  exact bind_of_ok (onHeap_ok (Heap.closureArity_shows s))

/-- A closure is called with as many arguments as it takes. -/
theorem enterClosure_of_call {k pc : Nat} (get : m.current.operands[arity.toNat]? = some fn)
    (s : Shows m.heap.words fn (.closure k pc env)) (run : Exec.call arity tail m = .ok () m') :
    0 ≤ arity ∧ arity.toNat = k ∧
      Exec.enterClosure fn (m.current.operands.take arity.toNat).reverse tail m = .ok () m' := by
  by_cases pos : 0 ≤ arity
  · rw [call_eq pos get s] at run
    split at run
    · cases run
    · next same => exact ⟨pos, Classical.not_not.1 same, run⟩
  · unfold Exec.call at run
    rw [if_pos (Int.not_le.1 pos)] at run
    cases run

theorem Alike.applies (alike : m.Alike q w m₂) (running : m.current.state = .running) (calls : m.CallsClosure arity)
    (run : Exec.call arity tail m = .ok () m') : ∃ args, (args.length : Int) = arity ∧ m.Applies args m' := by
  have alive : m.control.sched.current.state ≠ .terminated := by
    rw [show m.control.sched.current.state = .running from running]
    decide
  obtain ⟨fn, get, closure⟩ := calls
  have mem := List.mem_of_getElem? get
  have value := (alike.typed alive).operands fn mem
  obtain ⟨n, r, -, s, admits, -⟩ := alike.node value
  obtain ⟨k, pc, env, s', role, -⟩ := alike.closure value closure.2
  obtain ⟨frames, t, -, -⟩ := alike.heap.environment role
  obtain ⟨_, _, _, rfl⟩ := s.closure_of_tag (s.tagAt.symm.trans closure.2)
  obtain ⟨pos, arguments, run⟩ := enterClosure_of_call get s' run
  have sub : (m.current.operands.take arity.toNat).reverse ⊆ m.current.operands :=
    fun x inside => List.mem_of_mem_take (List.mem_reverse.1 inside)
  have opened := (Calmly.enterClosure alike.holding alive mem (admits.high id) s' t sub tail).arrives () m' run
  obtain ⟨frame, t', u⟩ := opened.env
  obtain ⟨lt, here⟩ := List.getElem?_eq_some_iff.1 get
  have length : (m.current.operands.take arity.toNat).reverse.length = arity.toNat := by
    rw [List.length_reverse, List.length_take]
    exact Nat.min_eq_left (Nat.le_of_lt lt)
  refine ⟨_, by rw [length, Int.toNat_of_nonneg pos], fn, m.current.operands.drop (arity.toNat + 1), pc, env, ?_, ?_, ?_,
    opened.pc, Heap.binds_of_shows t t' u⟩
  · rw [List.reverse_reverse, ← here]
    exact (List.take_append_drop _ _).symm.trans (congrArg _ (List.drop_eq_getElem_cons lt))
  · rwa [length, arguments]
  · rw [opened.operands, length]
    rfl

theorem Passes.footing (passes : m.Passes c P i m') (light : m.Light i) (running : m.current.state = .running) :
    Footing m m'.heap m'.current.context i := by
  have sched := (passes.slight light).sched
  have alive : m'.current.state ≠ .terminated := by
    rw [show m'.current.state = .running from sched.state.trans running]
    decide
  cases passes.advances with
  | ends stops => exact absurd light (stops ▸ id)
  | goes k new own footing _ perm =>
    have mem : k ∈ m'.contexts := perm.mem_iff.2 List.mem_cons_self
    have same : m'.current.context.id = k.id := sched.id.trans own.symm
    exact passes.sturdy.eq_of_id mem (context_mem alive) same ▸ footing

/-- When an instruction has been executed the machine is well typed, whoever goes on. -/
theorem Paired.wellTyped_executed (p : m.Paired q w m) (inner : q.code.Inner) (loud : ¬ q.quiet) (next : m.Executes i)
    (run : Exec.instr i m.begun = .ok () m') : m'.WellTyped := by
  have plain := p.alike.control.program ▸ p.alike.control.plain
  have allows := (next.allows plain (p.not_stores inner) fun quiet => absurd quiet loud).fetched
  cases Sim.instr p.alike.counted.fetched (p.running next.1 next.2.1) p.settled allows with
  | ok ran _ ends =>
    cases run.symm.trans ran
    exact ends.alike.wellTyped
  | fault ran => cases run.symm.trans ran
  | left starves => cases run.symm.trans starves.run
  | right starves => cases run.symm.trans starves.run

theorem Steady.entry {code : Code} (steady : m.Steady code) (sturdy : m.Sturdy c P) (running : m.Running)
    (leads : c.Leads P) (next : m.Executes i) (enters : m.Enters i) (run : Exec.instr i m.begun = .ok () m') :
    m.Entry i m' := by
  obtain ⟨w, p⟩ := steady.paired
  have alike := p.alike.counted.fetched
  have awake : m.begun.current.state = .running := running next.1 next.2.1
  have treads := (sturdy.treads running leads next).yields
  rw [run] at treads
  have passes : m.begun.Passes c P i m' := treads
  have light : m.begun.Light i := enters.light
  have slight := passes.slight light
  have footing := passes.footing light awake
  refine ⟨slight.sched.id, ?_, ?_⟩
  · cases i with
    | call arity =>
      obtain ⟨args, length, applies⟩ := alike.applies awake enters run
      obtain ⟨b, frames, s⟩ := footing.1 enters
      have range := next.range
      have size : UInt32.size = 4294967296 := rfl
      refine ⟨args, _, length, applies, ⟨b, frames, s⟩, ?_, fun small => ?_⟩
      · rw [show m.begun.current.pc = m.current.pc + 1 from rfl, UInt32.ofInt, UInt32.toNat_ofNat']
        omega
      · exact toNat_ofInt_of_lt (k := m.current.pc + 1) (Int.le_add_one range.1) (by omega)
    | tailCall arity =>
      obtain ⟨args, length, applies⟩ := alike.applies awake enters run
      obtain ⟨left, unwinds, frames⟩ := footing.1 enters
      exact ⟨args, left, length, applies, unwinds, frames⟩
    | enterScope size =>
      obtain ⟨b, frames, s⟩ := footing
      have alive : m.begun.control.sched.current.state ≠ .terminated := by
        rw [show m.begun.control.sched.current.state = .running from awake]
        decide
      obtain ⟨old, t, -, -⟩ := alike.heap.environment (alike.typed alive).env
      obtain ⟨pos, opened⟩ := (Calmly.enterScope alike.holding alive t size).arrives () m' run
      obtain ⟨frame, t', u⟩ := opened.env
      exact ⟨size.toNat, Int.toNat_of_nonneg pos, Heap.binds_of_shows t t' u, ⟨b, frames, s⟩, opened.operands, opened.pc⟩
    | _ => exact enters.elim
  · have typed := p.wellTyped_executed steady.inner id next run
    obtain ⟨new, confined⟩ : ∃ new, Heap.Confined (fun _ _ => False) new m.heap m'.heap := slight.heap.confined
    refine ⟨new, confined.allots, fun a reach old k lt => ?_⟩
    obtain ⟨node, used⟩ := typed.used a reach
    exact confined.same a (by rwa [Heap.NodeIn, confined.size] at node) old used k lt id

end

/-- In every state that a decoded program reaches by steps and collections, if it assigns nothing to the outermost
frame, an instruction that enters a block or a closure binds the variables or the arguments, and saves where it was
entered, or it fails. -/
theorem entries_bind {p : Program Datum} {is : List Instr} (decoded : p.instrs = .ok is)
    (inner : ∀ pos sym, Instr.assign pos sym ∈ is → pos.frame ≠ 0) {size : Int} {options : Options} {clock : Clock}
    {sink : Sink} {order : Enumeration} {m m' : Machine}
    (made : Machine.create size (Code.ofInstrs is) options clock sink order = .ok m) (ts : List Turn) {canceled : Bool}
    {i : Instr} (done : (m.play ts).executed (.step canceled) = some (i, m')) (enters : (m.play ts).Enters i) :
    (m.play ts).Entry i m' := by
  have steady := create_steady decoded inner made
  obtain ⟨sturdy, running⟩ := create_sturdy (Code.ofInstrs is).leads_anywhere made
  obtain ⟨sturdy, running⟩ := sturdy.play running (Code.ofInstrs is).leads_anywhere (fun _ _ sound => sound)
    (steady.sound ts)
  obtain ⟨next, run⟩ := executes_of_executed done
  exact (steady.play ts).entry sturdy running (Code.ofInstrs is).leads_anywhere next enters run

/-- Calls a function with two arguments. -/
def twoArgumentsProgram : Program Datum :=
  { version := 1
    records := [{ opcode := "LDF", value := .null, arity := 2, entry := 5 }, { opcode := "LDC", value := .int 7 },
      { opcode := "LDC", value := .null }, { opcode := "CALL", value := .null, arity := 2 },
      { opcode := "DONE", value := .null }, { opcode := "RESET", value := .null }] }

def twoArgumentsInstrs : List Instr :=
  [.loadFunc 2 5, .loadConst (.int .int64 7), .loadConst .nil, .call 2, .done, .reset]

instance (m : Machine) (n : Int) : Decidable (m.CallsClosure n) :=
  match get : m.control.sched.current.operands[n.toNat]? with
  | none => isFalse (by rintro ⟨fn, here, -⟩; cases get.symm.trans here)
  | some fn =>
    have : Decidable (Has m.heap.words fn .closure) := inferInstanceAs (Decidable (_ ∧ _))
    decidable_of_iff (Has m.heap.words fn .closure) (by simp [CallsClosure, get])

/-- A call with two arguments is next, and it does not fail. -/
def AboutToCall (m : Machine) : Prop :=
  (m.executed (.step false)).map Prod.fst = some (.call 2) ∧ m.CallsClosure 2

instance (m : Machine) : Decidable m.AboutToCall := inferInstanceAs (Decidable (_ ∧ _))

theorem entries_bind_call : ∃ m m', twoArgumentsProgram.instrs = .ok twoArgumentsInstrs ∧
    Machine.create 336 (Code.ofInstrs twoArgumentsInstrs) {} = .ok m ∧
    (m.play (List.replicate 3 (.step false))).executed (.step false) = some (.call 2, m') ∧
    (m.play (List.replicate 3 (.step false))).Entry (.call 2) m' := by
  have inner : ∀ pos sym, Instr.assign pos sym ∈ twoArgumentsInstrs → pos.frame ≠ 0 := by simp [twoArgumentsInstrs]
  have decoded : twoArgumentsProgram.instrs = .ok twoArgumentsInstrs := rfl
  obtain ⟨m, made, about⟩ : ∃ m, Machine.create 336 (Code.ofInstrs twoArgumentsInstrs) {} = .ok m ∧
      (m.play (List.replicate 3 (.step false))).AboutToCall := ⟨_, Machine.create_listed rfl, by decide +kernel⟩
  obtain ⟨⟨i, m'⟩, done, rfl⟩ := Option.map_eq_some_iff.1 about.1
  exact ⟨m, m', decoded, made, done, entries_bind decoded inner made _ done about.2⟩

end Machine

end FiberVm
