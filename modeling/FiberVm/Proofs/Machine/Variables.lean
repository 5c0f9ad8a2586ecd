import FiberVm.Proofs.Machine.WellTyped

/-!
# What variables hold

A value that a variable holds stays, as long as nothing that is collected is assigned to the outermost
frame. That frame is reserved, and a collection does not look into reserved nodes: what is put there and
held nowhere else is freed while the variable can still be loaded.
-/

set_option autoImplicit false

namespace FiberVm

open Heap (Shows Closure tagAt)

namespace Machine

/-- Some variable that the environment of a live fiber leads to holds `v`. -/
def Holds (m : Machine) (v : Addr) : Prop :=
  ∃ f ∈ m.fibers, ∃ a slots, Closure m.heap.words [f.env] a ∧ Shows m.heap.words a (.frame slots) ∧ v ∈ slots

section

variable {q : Terms} {w : World} {m m₂ : Machine} {ts : List Turn} {t : Turn} {v : Addr}

theorem Alike.holds (alike : m.Alike q w m₂) (holds : m.Holds v) : IsValue w.role v ∧ ¬ w.recent v := by
  obtain ⟨f, live, a, slots, reach, s, mem⟩ := holds
  have env := (alike.control.fit.typed.live live).env
  obtain ⟨r, role⟩ := alike.heap.knows_closure (by simpa using ⟨_, env⟩) reach
  obtain ⟨n, s', admits, -⟩ := alike.heap.nodes a r role
  have references : n.references = slots := s'.refs.symm.trans s.refs
  have tag : n.tag = .frame := s'.tagAt.symm.trans s.tagAt
  have fits := admits.fits
  cases n with
  | frame slots' =>
    obtain rfl : slots' = slots := references
    cases r with
    | frame => exact ⟨fits v mem, admits.settled rfl v mem⟩
    | _ => exact fits.elim
  | literal t =>
    have literal : t = .nil ∨ t = .unassigned ∨ t = .true ∨ t = .false := s'.body
    rcases literal with rfl | rfl | rfl | rfl <;> cases tag
  | _ => cases tag

theorem throughout_append {P : Machine → Prop} {ts' : List Turn} :
    m.Throughout P (ts ++ ts') ↔ m.Throughout P ts ∧ (m.play ts).Throughout P ts' := by
  induction ts generalizing m with
  | nil => exact ⟨fun later => ⟨trivial, later⟩, fun both => both.2⟩
  | cons t ts ih => exact (and_congr_right fun _ => ih).trans and_assoc.symm

end

/-- In a run in which nothing that is collected is assigned to the outermost frame, no turn frees what a
variable holds after it, pinning it would have made no difference, and no turn crashes. -/
theorem variables_kept {p : Program Datum} {is : List Instr} (decoded : p.instrs = .ok is) {size : Int}
    {options : Options} {clock : Clock} {sink : Sink} {m : Machine}
    (made : Machine.create size (Code.ofInstrs is) options clock sink = .ok m) (ts : List Turn) (t : Turn)
    (safe : m.Throughout (fun m => ¬ m.StoresCollectable) (ts ++ [t])) :
    ¬ (m.play ts).Crashes t ∧ ∀ v, ((m.play ts).turn t).Holds v →
      Heap.ShowsValue ((m.play ts).turn t).heap.words v ∧ Commutes (pin v) (perform t) (m.play ts) := by
  have start := Machine.create_paired (Program.plain_of_instrs decoded) made made False
  obtain ⟨before, now, -⟩ := throughout_append.1 safe
  obtain ⟨w, paired⟩ := start.play ts before (throughout_imp False.elim)
  obtain ⟨fine, w', alike, -, kept⟩ := paired.alone t now fun _ => False.elim
  refine ⟨fine, fun v holds => ?_⟩
  obtain ⟨value, old⟩ := alike.holds holds
  exact ⟨alike.heap.showsValue value, kept v value.knows old⟩

theorem variables_kept_channelBlock : ∃ m, Program.channelBlock.instrs = .ok Program.channelInstrs ∧
    Machine.create 512 (Code.ofInstrs Program.channelInstrs) {} = .ok m ∧
    ∀ ts t v, ((m.play ts).turn t).Holds v → Commutes (pin v) (perform t) (m.play ts) := by
  obtain ⟨m, made⟩ : ∃ m, Machine.create 512 (Code.ofInstrs Program.channelInstrs) {} = .ok m := ⟨_, rfl⟩
  have inner : ∀ pos sym, Instr.assign pos sym ∈ Program.channelInstrs → pos.frame ≠ 0 := by
    intro pos sym mem
    obtain ⟨rfl, -⟩ : pos = ⟨1, 0⟩ ∧ sym = "ch" := by simpa [Program.channelInstrs] using mem
    decide
  have decoded : Program.channelBlock.instrs = .ok Program.channelInstrs := rfl
  have start := Machine.create_paired (Program.plain_of_instrs decoded) made made False
  refine ⟨m, decoded, made, fun ts t v holds => ?_⟩
  have safe := start.throughout (Code.inner_ofInstrs inner) id (ts ++ [t])
  exact ((variables_kept decoded made ts t safe).2 v holds).2

end Machine

/-- A program that assigns an integer to the outermost frame and loads it again. -/
def Program.outerVariable : Program Datum :=
  { version := 1
    records :=
      [{ opcode := "LDC", value := .int 7 },
       { opcode := "ASSIGN", value := .null, position := [0, 5], sym := "x" },
       { opcode := "POP", value := .null },
       { opcode := "LD", value := .null, position := [0, 5], sym := "x" },
       { opcode := "DONE", value := .null }] }

def Program.outerInstrs : List Instr :=
  [.loadConst (.int .int64 7), .assign ⟨0, 5⟩ "x", .pop, .load ⟨0, 5⟩ "x", .done]

theorem Heap.mark_of_skipped (words : Array Word) (stack : List Addr) (skipped : ∀ a ∈ stack, Heap.Skipped a) :
    Heap.mark words stack = .ok () words := by
  induction stack with
  | nil => rw [Heap.mark]
  | cons a rest ih =>
    have here : a = noAddr ∨ a < Heap.bottom := skipped a List.mem_cons_self
    rw [Heap.mark, if_pos here]
    exact ih fun b mem => skipped b (List.mem_cons_of_mem a mem)

/-- The roots are reserved, a collection would free node 256, and the variable would still hold it. -/
def Machine.atStaleLoad (m : Machine) : Bool :=
  let h := m.heap.afterSweep (Heap.sweep m.heap.words)
  m.control.roots.all (· < Heap.bottom) && m.heap.pinned.isEmpty && m.control.failed.isNone &&
    m.control.result.isNone && m.control.advance.2.toOption == some (.load ⟨0, 5⟩ "x") &&
    (h.words.getD 256 0).byte 0 == 0 &&
    match Heap.lookup m.current.env 0 5 h with
    | .ok a _ => a == 256
    | .error _ _ => false

theorem Machine.turn_collect_atStaleLoad {m : Machine} (ready : m.atStaleLoad) :
    (m.turn .collect).Executes (.load ⟨0, 5⟩ "x") ∧
      (∃ h, Heap.lookup (m.turn .collect).current.env 0 5 (m.turn .collect).heap = .ok 256 h) ∧
      tagAt (m.turn .collect).heap.words 256 = .free := by
  simp only [atStaleLoad, Bool.and_eq_true, List.all_eq_true, decide_eq_true_eq, List.isEmpty_iff,
    Option.isNone_iff_eq_none, beq_iff_eq] at ready
  obtain ⟨⟨⟨⟨⟨⟨low, pins⟩, fine⟩, more⟩, next⟩, free⟩, found⟩ := ready
  have run : Heap.collect (m.control.visit m.heap.stats.collections) m.heap =
      .ok (Heap.sweep m.heap.words).count (m.heap.afterSweep (Heap.sweep m.heap.words)) := by
    rw [Heap.collect, Heap.mark_of_skipped]
    · rfl
    · intro a mem
      rw [pins, List.append_nil] at mem
      exact .inr (low a ((m.control.visit_perm _).mem_iff.1 mem))
  have load : m.control.advance.2 = .ok (.load ⟨0, 5⟩ "x") := by
    cases advance : m.control.advance.2 with
    | error e =>
      rw [advance] at next
      cases next
    | ok i =>
      rw [advance] at next
      exact congrArg _ (Option.some.inj next)
  rw [turn_of_run (perform_collect run)]
  refine ⟨⟨fine, more, load⟩, ?_, congrArg Tag.mk free⟩
  split at found
  · next a h run => exact ⟨h, beq_iff_eq.1 found ▸ run⟩
  · cases found

/-- After a collection the instruction about to be executed loads a variable whose value has been freed. -/
theorem Machine.outer_variable_freed : ∃ m, Program.outerVariable.instrs = .ok Program.outerInstrs ∧
    Machine.create 288 (Code.ofInstrs Program.outerInstrs) {} = .ok m ∧
    ∃ n, m.play [.step false, .step false, .step false, .collect] = n ∧ n.Executes (.load ⟨0, 5⟩ "x") ∧
      (∃ h, Heap.lookup n.current.env 0 5 n.heap = .ok 256 h) ∧ tagAt n.heap.words 256 = .free := by
  obtain ⟨m, made, ready⟩ : ∃ m, Machine.create 288 (Code.ofInstrs Program.outerInstrs) {} = .ok m ∧
      (m.play [.step false, .step false, .step false]).atStaleLoad :=
    ⟨_, Machine.create_listed rfl, by decide +kernel⟩
  exact ⟨m, rfl, made, _, rfl, turn_collect_atStaleLoad ready⟩

end FiberVm
