import FiberVm.Proofs.Heap.Constructors
import FiberVm.Proofs.Machine.Keeps

/-!
# Steps give back what they pin

An instruction pins what it builds with, some of them in several places at once. The pins are given back on every way
out of it, by a fault too, so a machine whose heap had none before a step has none after it. Together with what the
constructors do in any heap, this says that pins are a matter of one instruction.
-/

set_option autoImplicit false

namespace FiberVm

open Heap (Making NodeIn Layout Valid Shows SameNode)

instance Control.careless_true : Control.Careless fun _ => True where
  registers _ _ _ _ _ _ _ _ := trivial
  wake _ _ _ := trivial
  deliver _ _ _ _ := trivial
  park _ _ := trivial
  sleep _ _ _ := trivial
  print _ _ _ := trivial
  jump _ _ _ := trivial
  spawn _ _ _ _ := trivial
  stop _ _ := trivial
  finish _ _ _ := trivial

theorem Exec.pinned_cycle (canceled : Bool) (i : Instr) (m : Machine) :
    Settles (fun m' => m'.heap.pinned = m.heap.pinned) (Exec.cycle canceled i m) := by
  have instr : Exec.Keeps (fun _ => True) (Exec.instr i) := .instr i
  have tick : Exec.Keeps (fun _ => True) (Exec.modifySched fun s => { s with clock := s.clock.tick }) :=
    .modifyControl fun _ => id
  have move : Exec.Keeps (fun _ => True) (Exec.modifyFiber fun f => { f with pc := f.pc + 1 }) :=
    .modifyControl fun _ => id
  have last : Exec.Keeps (fun _ => True) (Exec.reschedule canceled) := by
    refine ⟨fun m _ => ?_, fun m => ?_⟩ <;> (rw [Exec.reschedule_eq]; split <;> trivial)
  have ended : Exec.Keeps (fun _ => True) (Exec.asks (·.result.isSome)) := .asks _
  exact (Exec.Keeps.seq tick fun _ => .seq move fun _ => .seq instr fun _ => .seq ended fun _ => inferInstance).pins m

namespace Machine

variable {m : Machine}

theorem pinned_conclude {id : Nat} {pc : Int} {op : Opcode} {r : EStateM.Result Failure Machine Unit} {pins : List Addr}
    (ends : Settles (fun m => m.heap.pinned = pins) r) : (left (conclude id pc op r)).heap.pinned = pins := by
  cases r with
  | ok _ m => exact ends
  | error e m => cases e <;> exact ends

theorem pinned_turn (m : Machine) (t : Turn) : (m.turn t).heap.pinned = m.heap.pinned := by
  cases t with
  | collect =>
    have ends := (Heap.Releases.collect (m.control.visit m.heap.stats.collections)).pins m.heap
    unfold turn perform
    dsimp only
    split <;> (rename_i run; rw [run] at ends; exact ends)
  | step canceled =>
    cases m.attempt canceled with
    | failed _ _ step => rw [turn_of_run (t := .step canceled) step, left]
    | ended _ _ _ step => rw [turn_of_run (t := .step canceled) step, left]
    | stuck _ _ _ step =>
      rw [turn_of_run (t := .step canceled) step]
      rfl
    | executes _ step =>
      rw [turn_of_run (t := .step canceled) step]
      exact pinned_conclude (Exec.pinned_cycle canceled _ m.counted)

theorem pinned_play (ts : List Turn) : (m.play ts).heap.pinned = m.heap.pinned := by
  induction ts generalizing m with
  | nil => rfl
  | cons t ts ih => exact ih.trans (m.pinned_turn t)

/-- In a well-formed heap, a constructor that is handed nodes in use either makes a new node, which refers to what it
was handed and to nothing else that is old, or fails. In both cases the pins and everything that the roots, the pins
and the nodes handed over lead to are what they were. No pin is left behind by the steps of a machine. -/
theorem constructors_balanced {h : Heap} {free : List Addr} {thunk : Heap.Roots} {c : Making}
    (wf : h.WellFormed free) (used : ∀ a ∈ c.handed, NodeIn h.words a ∧ Layout h.words a)
    (valid : Valid h.words (thunk.get ++ h.pinned ++ c.handed)) :
    c.Ends (thunk.get ++ h.pinned ++ c.handed) h (c.run thunk h) ∧
      ∀ {size : Int} {code : Code} {options : Options} {clock : Clock} {sink : Sink} {order : Enumeration} {m : Machine},
        Machine.create size code options clock sink order = .ok m → ∀ ts, (m.play ts).heap.pinned = [] := by
  refine ⟨Making.run_ends wf used valid, fun made ts => ?_⟩
  obtain ⟨h₀, new, rfl⟩ := Machine.create_eq made
  exact (pinned_play ts).trans (Heap.create_pinned new)

/-- The global environment is extended by a frame that holds itself. -/
theorem constructors_balanced_ouroboros :
    (∃ h', Heap.extend (.pure []) Heap.globalEnv 256 Heap.ouroboros = .ok 272 h' ∧ h'.pinned = [] ∧
      Shows h'.words 272 (.environment [Heap.builtinsFrame, 256]) ∧ SameNode Heap.ouroboros.words h'.words 256) ∧
    ∃ m, Machine.create 512 (Code.ofInstrs [.enterScope 1]) {} = .ok m ∧ (m.play [.step false]).heap.pinned = [] := by
  obtain ⟨h', run⟩ := Heap.extend_ouroboros
  have both := @constructors_balanced _ _ (.pure []) (.environment Heap.globalEnv 256)
    Heap.wellFormed_ouroboros Heap.used_ouroboros Heap.valid_ouroboros
  have made := both.1.succeeds run
  obtain ⟨m, created⟩ : ∃ m, Machine.create 512 (Code.ofInstrs [.enterScope 1]) {} = .ok m := ⟨_, rfl⟩
  refine ⟨⟨h', run, made.pinned, ?_, made.same 256 (by decide +kernel) (.inr (.root (by decide)))⟩, m, created,
    both.2 created [.step false]⟩
  obtain ⟨frames, l, shows⟩ := made.stands
  have tag : Heap.tagAt Heap.ouroboros.words Heap.globalEnv = .environment := by decide +kernel
  have known : Heap.refs Heap.ouroboros.words Heap.globalEnv = [Heap.builtinsFrame] := by decide +kernel
  obtain rfl := known.symm.trans (l.refs (.inr (.inl tag)))
  exact shows

end Machine

end FiberVm
