import FiberVm.Program.Basic
import FiberVm.Proofs.Heap.Initial
import FiberVm.Proofs.Machine.Turn

/-!
# Runs of a decoded program

No constant of a decoded program is an address. Two new machines with the same program are paired, of
whatever sizes their heaps are, and a machine stays paired with itself through any turns in which nothing
that is collected is assigned to the outermost frame.
-/

set_option autoImplicit false

namespace FiberVm

section Decoded

theorem Literal.constant_ne_ref (l : Literal) (a : Addr) : l.constant ≠ .ref a := by
  cases l <;> nofun

theorem Record.instr_ne_ref {r : Record Datum} {i : Instr} (run : r.instr = .ok i) (a : Addr) :
    i ≠ .loadConst (.ref a) := by
  rintro rfl
  unfold Record.instr at run
  cases parse : Opcode.parse r.opcode with
  | error e =>
    rw [parse] at run
    cases run
  | ok op =>
    rw [parse] at run
    simp only [bind, Except.bind] at run
    split at run
    case h_1 =>
      split at run
      · cases run
      · rename_i l _
        have same : l.constant = .ref a := by
          injection run with run
          injection run
        exact l.constant_ne_ref a same
    -- The other opcodes make other instructions, if they make one at all.
    all_goals
      first
        | cases run
        | split at run <;> cases run

theorem exists_of_mapM_ok {α β ε : Type} {f : α → Except ε β} {l : List α} {ys : List β}
    (run : l.mapM f = .ok ys) {y : β} (mem : y ∈ ys) : ∃ x ∈ l, f x = .ok y := by
  induction l generalizing ys with
  | nil =>
    cases run
    cases mem
  | cons x l ih =>
    rw [List.mapM_cons] at run
    cases head : f x with
    | error e =>
      rw [head] at run
      cases run
    | ok z =>
      rw [head] at run
      cases tail : l.mapM f with
      | error e =>
        rw [tail] at run
        cases run
      | ok zs =>
        rw [tail] at run
        cases run
        rcases List.mem_cons.1 mem with rfl | mem
        · exact ⟨x, List.mem_cons_self, head⟩
        · obtain ⟨x', inside, found⟩ := ih tail mem
          exact ⟨x', List.mem_cons_of_mem x inside, found⟩

theorem Program.mem_instrs {p : Program Datum} {is : List Instr} (decoded : p.instrs = .ok is) {i : Instr}
    (mem : i ∈ is) : ∃ r ∈ p.records, r.instr = .ok i := by
  unfold Program.instrs at decoded
  split at decoded
  · cases decoded
  change (List.mapM (fun x => x.1.instr.mapError (Error.record x.2 x.1.opcode)) p.records.zipIdx >>= fun is =>
    Program.validate is >>= fun _ => Pure.pure is) = _ at decoded
  cases run : p.records.zipIdx.mapM fun x => x.1.instr.mapError (Error.record x.2 x.1.opcode) with
  | error e =>
    rw [run] at decoded
    cases decoded
  | ok found =>
    rw [run] at decoded
    have rest : (Program.validate found >>= fun _ => Pure.pure found) = .ok is := decoded
    cases valid : Program.validate found with
    | error e =>
      rw [valid] at rest
      cases rest
    | ok _ =>
      rw [valid] at rest
      cases rest
      obtain ⟨⟨r, index⟩, inside, made⟩ := exists_of_mapM_ok run mem
      refine ⟨r, List.fst_mem_of_mem_zipIdx inside, ?_⟩
      cases plain : r.instr with
      | error e =>
        rw [plain] at made
        cases made
      | ok j =>
        rw [plain] at made
        cases made
        rfl

/-- The instructions of a program make plain code. -/
theorem Program.plain_of_instrs {p : Program Datum} {is : List Instr} (decoded : p.instrs = .ok is) :
    (Code.ofInstrs is).Plain := by
  intro entry mem
  obtain ⟨i, inside, rfl⟩ := List.mem_map.1 (by simpa [Code.ofInstrs] using mem)
  obtain ⟨r, -, run⟩ := p.mem_instrs decoded inside
  exact ⟨i, rfl, Record.instr_ne_ref run⟩

end Decoded

section Made

variable {code : Code} {options : Options} {clock : Clock} {sink : Sink} {size size₁ size₂ : Int}
  {order order₁ order₂ : Enumeration} {m m₁ m₂ : Machine}

theorem Heap.create_pinned {h : Heap} (made : Heap.create size = .ok h) : h.pinned = [] := by
  unfold Heap.create at made
  split at made
  · cases made
  · split at made
    · cases made
    · split at made
      · cases made
      · cases made
        rfl

theorem Machine.create_eq (made : Machine.create size code options clock sink order = .ok m) :
    ∃ h, Heap.create size = .ok h ∧ m = ⟨h,
      { code := code, stepLimit := options.withDefaults.stepLimit, sink := sink,
        sched := Scheduler.create options.withDefaults.quantum options.withDefaults.firstQuantum Heap.globalEnv
          clock
        order := order }⟩ := by
  unfold Machine.create at made
  cases heap : Heap.create size with
  | error e =>
    rw [heap] at made
    cases made
  | ok h =>
    rw [heap] at made
    cases made
    exact ⟨h, rfl, rfl⟩

/-- The machine with a new heap written out. -/
def Machine.listed (size : Int) (m : Machine) : Machine :=
  { m with heap := { m.heap with words := Heap.listed size.toNat } }

theorem Machine.create_listed (made : Machine.create size code options clock sink order = .ok m) :
    Machine.create size code options clock sink order = .ok (m.listed size) := by
  obtain ⟨h, heap, rfl⟩ := Machine.create_eq made
  obtain ⟨init, -⟩ := Heap.create_initial heap
  rw [made, listed, ← init.eq_listed]

theorem Scheduler.create_fit (quantum first : Int) (clock : Clock) :
    (Scheduler.create quantum first Heap.globalEnv clock).Fit Reserved := by
  refine ⟨⟨nofun, List.nodup_nil, Nat.zero_lt_one, nofun, nofun, List.nodup_nil⟩, fun _ => ?_, nofun⟩
  exact ⟨rfl, nofun, nofun⟩

/-- Two new machines with the same program are paired. -/
theorem Machine.create_paired (plain : code.Plain)
    (made₁ : Machine.create size₁ code options clock sink order₁ = .ok m₁)
    (made₂ : Machine.create size₂ code options clock sink order₂ = .ok m₂) (quiet : Prop) :
    Machine.Paired ⟨code, quiet⟩ ⟨Reserved, id, fun _ => False⟩ m₁ m₂ := by
  obtain ⟨h₁, heap₁, rfl⟩ := Machine.create_eq made₁
  obtain ⟨h₂, heap₂, rfl⟩ := Machine.create_eq made₂
  have pins₁ := Heap.create_pinned heap₁
  have pins₂ := Heap.create_pinned heap₂
  refine ⟨⟨create_mirror heap₁ heap₂, ?_, ?_, plain, rfl, rfl, rfl, rfl, ?_, Scheduler.create_fit _ _ _, rfl,
    nofun, .refl quiet sink, rfl⟩, fun _ => id, fun _ _ => rfl⟩
  · rw [pins₁, pins₂]
    rfl
  · rw [pins₁]
    nofun
  · exact (Scheduler.rename_by_id _).symm

end Made

namespace Machine

/-- `P` holds of the machine whenever one of the turns executes an instruction. -/
def Throughout (P : Machine → Prop) (m : Machine) : List Turn → Prop
  | [] => True
  | t :: ts => (t ≠ .collect → P m) ∧ Throughout P (m.turn t) ts

variable {q : Terms} {w : World} {m : Machine}

/-- What holds throughout under a condition that does not depend on the state. -/
theorem throughout_imp {Q : Prop} {P : Machine → Prop} {ts : List Turn} (holds : Q → m.Throughout P ts) :
    m.Throughout (fun m => Q → P m) ts := by
  induction ts generalizing m with
  | nil => trivial
  | cons t ts ih => exact ⟨fun step q => (holds q).1 step, ih fun q => (holds q).2⟩

theorem Paired.play (p : Paired q w m m) (ts : List Turn)
    (safe : m.Throughout (fun m => ¬ m.StoresCollectable) ts)
    (quiet : m.Throughout (fun m => q.quiet → ¬ m.PrintsReference) ts) :
    ∃ w', Paired q w' (m.play ts) (m.play ts) := by
  induction ts generalizing w m with
  | nil => exact ⟨w, p⟩
  | cons t ts ih =>
    obtain ⟨-, w', alike, running, -⟩ := p.alone t safe.1 quiet.1
    exact ih (alike.settle running) safe.2 quiet.2

end Machine

end FiberVm
