import FiberVm.Machine.Run
import FiberVm.Proofs.Machine.WellTyped

/-!
# Collections cannot be observed

The main statement compares two runs of a decoded program on heaps of different sizes, with collections at
any moments. As long as neither is out of memory they execute the same instructions and end in the same
way.
-/

set_option autoImplicit false

namespace FiberVm

open Heap (Shows)

namespace Machine

/-- The instructions that are executed in some turns. -/
def events (m : Machine) : List Turn → List Event
  | [] => []
  | .step canceled :: ts => m.event?.toList ++ (m.turn (.step canceled)).events ts
  | .collect :: ts => (m.turn .collect).events ts

section Persistent

variable {m : Machine} {f : Fault} {t : Turn}

theorem turn_failed (failed : m.control.failed = some f) : (m.turn t).control.failed = some f := by
  cases t with
  | step canceled =>
    rw [turn_of_run (t := .step canceled) (step_of_failed failed)]
    exact failed
  | collect =>
    rw [turn_collect_control]
    exact failed

theorem OutOfMemory.play (out : m.OutOfMemory) (ts : List Turn) : (m.play ts).OutOfMemory := by
  induction ts generalizing m with
  | nil => exact out
  | cons t ts ih =>
    obtain ⟨f, failed, kind⟩ := out
    exact ih ⟨f, turn_failed failed, kind⟩

end Persistent

section Both

variable {q : Terms} {w : World} {m₁ m₂ : Machine}

theorem Alike.event (alike : m₁.Alike q w m₂) : m₂.event? = m₁.event? := by
  have failed : m₂.control.failed.isSome = m₁.control.failed.isSome := by
    rw [← Option.isSome_map (f := Fault.site), alike.control.failed, Option.isSome_map]
  have halted : m₂.halted = m₁.halted := by
    rw [halted, halted, alike.control.result, Option.isSome_map]
  unfold Machine.event? Machine.current
  rw [failed, halted, alike.advance, alike.current]
  rfl

/-- Two runs with the same steps: the same instructions are executed, and the machines stay paired. -/
theorem Paired.plays {ts₁ ts₂ : List Turn} (p : Paired q w m₁ m₂) (inner : q.code.Inner)
    (quiet : m₁.Throughout (fun m => q.quiet → ¬ m.PrintsReference) ts₁)
    (same : ts₁.filter (· ≠ .collect) = ts₂.filter (· ≠ .collect))
    (enough₁ : ¬ (m₁.play ts₁).OutOfMemory) (enough₂ : ¬ (m₂.play ts₂).OutOfMemory) :
    m₂.events ts₂ = m₁.events ts₁ ∧ ∃ w', Paired q w' (m₁.play ts₁) (m₂.play ts₂) := by
  induction ts₁ generalizing w m₁ m₂ ts₂ with
  | nil =>
    -- Only collections are left on the right.
    induction ts₂ generalizing w m₂ with
    | nil => exact ⟨rfl, w, p⟩
    | cons t ts₂ ih =>
      cases t with
      | step canceled => cases same
      | collect =>
        obtain ⟨w', p'⟩ := p.collectRight
        exact ih p' same enough₂
  | cons t ts₁ ih =>
    cases t with
    | collect =>
      obtain ⟨w', p'⟩ := p.collectLeft
      exact ih p' quiet.2 same enough₁ enough₂
    | step canceled =>
      induction ts₂ generalizing w m₂ with
      | nil => cases same
      | cons t ts₂ ih' =>
        cases t with
        | collect =>
          obtain ⟨w', p'⟩ := p.collectRight
          exact ih' p' enough₂ same
        | step canceled' =>
          obtain ⟨e, rest⟩ := List.cons.inj same
          cases e
          have event := p.alike.event
          cases p.step (p.not_stores inner) (quiet.1 nofun) canceled with
          | left _ out _ _ => exact absurd (out.play ts₁) enough₁
          | right _ out _ _ => exact absurd (out.play ts₂) enough₂
          | both w' _ _ alike running _ =>
            obtain ⟨events, paired⟩ := ih (alike.settle running) quiet.2 rest enough₁ enough₂
            exact ⟨by rw [Machine.events, Machine.events, event, events], paired⟩

end Both

section Results

variable {q : Terms} {w : World} {m₁ m₂ : Machine} {a b : Addr} {n : Node} {r : Role} {v : Value}

theorem unbox_shows {h₁ h₂ : Heap} {D : Typing} {ρ : Addr → Addr} (s₁ : Shows h₁.words a n)
    (s₂ : Shows h₂.words b (n.map ρ)) (fits : n.Fits D r) (kind : r = .int ∨ r = .value) :
    (∃ v, Heap.unbox a h₁ = .ok v h₁ ∧ Heap.unbox b h₂ = .ok v h₂) ∨
    (∃ c, Heap.unbox a h₁ = .error (.fault c) h₁ ∧ Heap.unbox b h₂ = .error (.fault c) h₂) ∨
    (Heap.unbox a h₁ = .ok (.ref a) h₁ ∧ Heap.unbox b h₂ = .ok (.ref b) h₂) := by
  unfold Heap.unbox
  rw [bind_of_ok (Heap.tagOf_shows s₁), bind_of_ok (Heap.tagOf_shows s₂), Node.tag_map]
  cases n with
  | literal t =>
    have literal : t = .nil ∨ t = .unassigned ∨ t = .true ∨ t = .false := s₁.body
    rcases literal with rfl | rfl | rfl | rfl
    all_goals exact .inl ⟨_, rfl, rfl⟩
  | int k => exact .inl ⟨_, bind_of_ok (Heap.intValue_shows s₁), bind_of_ok (Heap.intValue_shows s₂)⟩
  | builtin f k => exact .inr (.inl ⟨_, rfl, rfl⟩)
  | closure k pc e => exact .inr (.inl ⟨_, rfl, rfl⟩)
  | channel cap closed s t items => exact .inr (.inr ⟨rfl, rfl⟩)
  | group k ids => exact .inr (.inr ⟨rfl, rfl⟩)
  | frame _ | environment _ | callframe _ _ | blockframe _ | queue _ =>
    rcases kind with rfl | rfl <;> exact fits.elim

theorem Alike.result_iff (alike : m₁.Alike q w m₂) (scalar : ∀ a, v ≠ .ref a) :
    m₂.result = .ok v ↔ m₁.result = .ok v := by
  unfold Machine.result
  rw [alike.control.result]
  cases last : m₁.control.result with
  | none => exact Iff.rfl
  | some a =>
    have value := alike.control.value a last
    obtain ⟨n, r, role, s₁, admits, s₂⟩ := alike.node value
    have kind : r = .int ∨ r = .value :=
      value.imp (alike.heap.unique a r _ role) (alike.heap.unique a r _ role)
    simp only [Option.map_some]
    rcases unbox_shows s₁ s₂ admits.fits kind with ⟨v, run₁, run₂⟩ | ⟨c, run₁, run₂⟩ | ⟨run₁, run₂⟩
    · rw [run₁, run₂]
    · rw [run₁, run₂]
    · rw [run₁, run₂]
      have other : ∀ x, (Except.ok (.ref x) : Except Error Value) ≠ .ok v := fun x e =>
        scalar x (Except.ok.inj e).symm
      exact ⟨fun e => absurd e (other _), fun e => absurd e (other _)⟩

end Results

end Machine

theorem Sink.Alike.eq {Q : Prop} {s₁ s₂ : Sink} (alike : Sink.Alike Q s₁ s₂) (quiet : Q) : s₂ = s₁ := by
  cases s₁ with
  | discard =>
    cases s₂ with
    | discard => rfl
    | keep text room => exact alike.elim
  | keep text₁ room₁ =>
    cases s₂ with
    | discard => exact alike.elim
    | keep text₂ room₂ => rw [alike.1, alike.2 quiet]

/-- Two runs of a decoded program that assigns nothing to the outermost frame, on heaps of any sizes and
with the same steps but collections at any moments. If neither is out of memory they execute the same
instructions and end in the same way: halted or not, with faults of one kind at the same place, with the
same scalar as the result, and having printed the same if no channel or wait group was printed. -/
theorem Machine.plays_agree {p : Program Datum} {is : List Instr} (decoded : p.instrs = .ok is)
    (inner : ∀ pos sym, Instr.assign pos sym ∈ is → pos.frame ≠ 0) {size₁ size₂ : Int} {options : Options}
    {clock : Clock} {sink : Sink} {m₁ m₂ : Machine}
    (made₁ : Machine.create size₁ (Code.ofInstrs is) options clock sink = .ok m₁)
    (made₂ : Machine.create size₂ (Code.ofInstrs is) options clock sink = .ok m₂) {ts₁ ts₂ : List Turn}
    (same : ts₁.filter (· ≠ .collect) = ts₂.filter (· ≠ .collect))
    (enough₁ : ¬ (m₁.play ts₁).OutOfMemory) (enough₂ : ¬ (m₂.play ts₂).OutOfMemory) :
    m₂.events ts₂ = m₁.events ts₁ ∧
      (m₂.play ts₂).halted = (m₁.play ts₁).halted ∧
      (m₂.play ts₂).control.failed.map Fault.site = (m₁.play ts₁).control.failed.map Fault.site ∧
      (∀ v, (∀ a, v ≠ .ref a) → ((m₂.play ts₂).result = .ok v ↔ (m₁.play ts₁).result = .ok v)) ∧
      (m₁.Throughout (fun m => ¬ m.PrintsReference) ts₁ →
        (m₂.play ts₂).control.sink = (m₁.play ts₁).control.sink) := by
  have start := Machine.create_paired (Program.plain_of_instrs decoded) made₁ made₂
    (m₁.Throughout (fun m => ¬ m.PrintsReference) ts₁)
  obtain ⟨events, w, paired⟩ := start.plays (Code.inner_ofInstrs inner) (throughout_imp id) same enough₁ enough₂
  refine ⟨events, ?_, paired.alike.control.failed, fun v => paired.alike.result_iff, ?_⟩
  · rw [halted, halted, paired.alike.control.result, Option.isSome_map]
  · exact paired.alike.control.sink.eq

/-- A program that gives a constant. -/
def Program.constant : Program Datum :=
  { version := 1, records := [{ opcode := "LDC", value := .int 7 }, { opcode := "DONE", value := .null }] }

def Program.constantInstrs : List Instr := [.loadConst (.int .int64 7), .done]

theorem Machine.failed_done {m : Machine} (fine : m.control.failed = none) (more : m.control.result = none)
    (next : m.control.advance.2 = .ok .done) : ¬ (m.turn (.step false)).OutOfMemory := by
  have run : perform (.step false) m = .ok () _ := step_of_instr fine more next
  rintro ⟨f, failed, -⟩
  rw [turn_of_run run] at failed
  cases fine.symm.trans failed

/-- The second instruction is about to be executed. -/
def Machine.atDone (m : Machine) : Bool :=
  m.control.failed.isNone && m.control.result.isNone && m.control.advance.2.toOption == some .done

theorem Machine.enough_of_atDone {m n : Machine} (ready : m.atDone) (same : n.control = m.control) :
    ¬ (n.turn (.step false)).OutOfMemory := by
  unfold Machine.atDone at ready
  rw [← same] at ready
  simp only [Bool.and_eq_true, Option.isNone_iff_eq_none, beq_iff_eq] at ready
  refine failed_done ready.1.1 ready.1.2 ?_
  cases next : n.control.advance.2 with
  | error e =>
    rw [next] at ready
    cases ready.2
  | ok i =>
    rw [next] at ready
    exact congrArg _ (Option.some.inj ready.2)

theorem Machine.plays_agree_constant : ∃ m₁ m₂, Program.constant.instrs = .ok Program.constantInstrs ∧
    Machine.create 272 (Code.ofInstrs Program.constantInstrs) {} = .ok m₁ ∧
    Machine.create 288 (Code.ofInstrs Program.constantInstrs) {} = .ok m₂ ∧
    m₂.events [.step false, .collect, .step false] = m₁.events [.step false, .step false] ∧
    ((m₂.play [.step false, .collect, .step false]).result = .ok (.int 7) ↔
      (m₁.play [.step false, .step false]).result = .ok (.int 7)) := by
  have inner : ∀ pos sym, Instr.assign pos sym ∈ Program.constantInstrs → pos.frame ≠ 0 := by
    intro pos sym mem
    simp [Program.constantInstrs] at mem
  obtain ⟨m₁, made₁, ready₁⟩ : ∃ m, Machine.create 272 (Code.ofInstrs Program.constantInstrs) {} = .ok m ∧
      (m.turn (.step false)).atDone := ⟨_, Machine.create_listed rfl, by decide +kernel⟩
  obtain ⟨m₂, made₂, ready₂⟩ : ∃ m, Machine.create 288 (Code.ofInstrs Program.constantInstrs) {} = .ok m ∧
      (m.turn (.step false)).atDone := ⟨_, Machine.create_listed rfl, by decide +kernel⟩
  have same : [Turn.step false, .step false].filter (· ≠ .collect) =
      [Turn.step false, .collect, .step false].filter (· ≠ .collect) := rfl
  have agree := Machine.plays_agree (p := Program.constant) rfl inner made₁ made₂ same
    (Machine.enough_of_atDone ready₁ rfl) (Machine.enough_of_atDone ready₂ (turn_collect_control _))
  exact ⟨m₁, m₂, rfl, made₁, made₂, agree.1, agree.2.2.2.1 (.int 7) nofun⟩

end FiberVm
