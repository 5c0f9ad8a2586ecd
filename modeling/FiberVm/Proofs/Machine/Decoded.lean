import FiberVm.Proofs.Machine.CallReturn
import FiberVm.Proofs.Machine.Counters
import FiberVm.Proofs.Machine.Faults

/-!
# What decoding guarantees at run time

As long as nothing crashes, every fiber of a decoded program is inside the program or just behind its end, and
so is every place that a call or a closure has saved. No step finds an instruction that it does not know, an
operator or a constant that it cannot use, a negative arity, or no instruction at all.
-/

set_option autoImplicit false

namespace FiberVm

open Heap (Shows NodeIn tagAt)

namespace Machine

/-- Where a fault that a step ends in comes from. -/
inductive Faults (canceled : Bool) (m : Machine) (c : Cause) : Prop
  /-- There is nothing to execute. -/
  | stuck : m.control.result = none → m.control.advance.2 = .error c → Faults canceled m c
  | instr {i : Instr} {m₁ : Machine} : m.Executes i → Exec.instr i m.begun = .error (.fault c) m₁ →
    Faults canceled m c
  /-- The instruction has been executed, but there is nobody to go on. -/
  | sched {i : Instr} {m₁ : Machine} {s : Scheduler} : m.Executes i → Exec.instr i m.begun = .ok () m₁ →
    m₁.control.result = none → m₁.control.sched.reschedule canceled = .error c s → Faults canceled m c

variable {m m' : Machine} {canceled : Bool} {f : Fault}

theorem faults_of_step (fine : m.control.failed = none) (run : step canceled m = .error (.fault f) m') :
    Faults canceled m f.cause := by
  cases m.attempt canceled with
  | failed failed => cases fine.symm.trans failed
  | ended _ _ _ step => cases step.symm.trans run
  | stuck _ result next step =>
    cases step.symm.trans run
    exact .stuck result next
  | executes executes =>
    cases executes.ends canceled with
    | crashes _ step => cases step.symm.trans run
    | faults first step =>
      cases step.symm.trans run
      exact .instr executes first
    | goes _ _ step => cases step.symm.trans run
    | stalls first more decided step =>
      cases step.symm.trans run
      exact .sched executes first more decided

end Machine

/-- A fault that a decoded program of `size` instructions can end in. -/
structure Cause.OfDecoded (size : Nat) (c : Cause) : Prop where
  opcode : c.kind ≠ .unknownOpcode
  operator : c.kind ≠ .unknownOperator
  tag : c.kind ≠ .unsupportedTag
  arity : ∀ n, c ≠ .negativeArity n
  present : ∀ pc, c ≠ .noInstruction pc
  outside : ∀ pc n, c = .pcOutside pc n → pc = size ∧ n = size

theorem Cause.Usual.ofDecoded {size : Nat} {c : Cause} (usual : c.Usual) : c.OfDecoded size := by
  refine ⟨?_, ?_, ?_, ?_, ?_, ?_⟩ <;> cases usual <;> simp [Cause.kind]

/-- In a program of `size` instructions, or just behind its end. -/
def Within (size : Nat) (pc : Int) : Prop := 0 ≤ pc ∧ pc ≤ size

theorem Instr.Checked.lands {size : Nat} {i : Instr} (checked : i.Checked size) (small : size < UInt32.size) :
    i.Lands (Within size) := by
  cases i with
  | goto target => exact ⟨(checked.target (.inl rfl)).1, Int.le_of_lt (checked.target (.inl rfl)).2⟩
  | jumpOnFalse target => exact ⟨(checked.target (.inr rfl)).1, Int.le_of_lt (checked.target (.inr rfl)).2⟩
  | loadFunc arity entry =>
    obtain ⟨low, high⟩ := checked.entry
    rw [Instr.Lands, toNat_ofInt_of_lt low (by omega)]
    exact ⟨low, Int.le_of_lt high⟩
  | _ => trivial

/-- Code of fewer than 2 ^ 32 instructions, of which each passes the check. -/
structure Code.Checked (code : Code) : Prop where
  small : code.size < UInt32.size
  entries : ∀ entry ∈ code.toList, ∃ i, entry = some i ∧ i.Checked code.size

theorem Code.Checked.leads {code : Code} (checked : code.Checked) : code.Leads (Within code.size) := by
  refine .of_small checked.small (fun pc low high => ⟨low, high⟩) fun i mem => ?_
  obtain ⟨j, same, valid⟩ := checked.entries _ mem
  cases same
  exact valid.lands checked.small

theorem Program.checked_code {p : Program Datum} {is : List Instr} (decoded : p.instrs = .ok is)
    (small : is.length < UInt32.size) : (Code.ofInstrs is).Checked ∧ (Code.ofInstrs is).size = is.length := by
  have size : (Code.ofInstrs is).size = is.length := by simp [Code.ofInstrs]
  refine ⟨⟨size ▸ small, fun entry mem => ?_⟩, size⟩
  obtain ⟨i, inside, rfl⟩ := List.mem_map.1 (by simpa [Code.ofInstrs] using mem)
  exact ⟨i, rfl, size ▸ Program.checked_of_instrs decoded i inside⟩

namespace Machine

section

variable {code : Code} {limit : Int} {m : Machine}

/-- Nothing to execute is found at the end of the program only. -/
theorem ofDecoded_of_stuck (checked : code.Checked) (same : m.control.code = code)
    (inside : Within code.size m.current.pc) {c : Cause} (stuck : m.control.advance.2 = .error c) :
    c.OfDecoded code.size := by
  rw [advance_snd] at stuck
  split at stuck
  · cases stuck
    constructor <;> simp [Cause.kind]
  unfold Control.fetch at stuck
  dsimp only at stuck
  rw [same] at stuck
  split at stuck
  · next outside =>
    have pc : m.current.pc = code.size := by
      obtain ⟨low, high⟩ := inside
      exact Int.le_antisymm high (outside.resolve_left (Int.not_lt.2 low))
    cases stuck
    refine ⟨nofun, nofun, nofun, nofun, nofun, fun at_pc n same => ?_⟩
    cases same
    exact ⟨pc, rfl⟩
  · next there =>
    -- Code that was decoded has no gaps.
    have lt : m.control.sched.current.pc.toNat < code.size := by omega
    obtain ⟨i, entry, -⟩ := checked.entries _ (Array.mem_toList_iff.2 (Array.getElem_mem lt))
    rw [Array.getElem?_eq_getElem lt, entry] at stuck
    cases stuck

/-- Where the fibers of a machine are, and where its calls and closures lead to. -/
structure Placed (size : Nat) (m : Machine) : Prop where
  fibers : ∀ f ∈ m.fibers, Within size f.pc
  callframes : ∀ f ∈ m.fibers, ∀ a ∈ f.frames, tagAt m.heap.words a = .callframe →
    ∃ pc, Heap.callframePc a m.heap = .ok pc m.heap ∧ Within size pc
  closures : ∀ a, NodeIn m.heap.words a → tagAt m.heap.words a = .closure →
    ∃ pc, Heap.closurePc a m.heap = .ok pc m.heap ∧ Within size pc

theorem Sturdy.placed (sturdy : m.Sturdy code (Within code.size)) : m.Placed code.size := by
  refine ⟨sturdy.counters, fun f mem a frame tag => ?_, fun a node tag => ?_⟩
  · have node : NodeIn m.heap.words a := ((sturdy.fit.typed.live mem).frames a frame).elim And.left And.left
    obtain ⟨n, s, linked⟩ := sturdy.shaped.nodes a node (by rw [tag]; decide)
    obtain ⟨pc, e, rfl⟩ := s.callframe_of_tag (s.tagAt ▸ tag)
    exact ⟨pc, Heap.callframePc_shows s, linked.entries pc (by simp [Node.entries])⟩
  · obtain ⟨n, s, linked⟩ := sturdy.shaped.nodes a node (by rw [tag]; decide)
    obtain ⟨k, pc, e, rfl⟩ := s.closure_of_tag (s.tagAt ▸ tag)
    exact ⟨pc, Heap.closurePc_shows s, linked.entries pc (by simp [Node.entries])⟩

theorem Along.imp {A B : Machine → Turn → Prop} (weaker : ∀ m t, A m t → B m t) {ts : List Turn}
    (along : m.Along A ts) : m.Along B ts := by
  induction ts generalizing m with
  | nil => trivial
  | cons t ts ih => exact ⟨weaker m t along.1, ih along.2⟩

/-- What decoding makes sure of, in every state. -/
structure Guaranteed (code : Code) (limit : Int) (m : Machine) : Prop where
  sturdy : m.Sturdy code (Within code.size)
  running : m.Running
  grounded : m.Grounded code limit
  failed : ∀ f ∈ m.control.failed, f.cause.OfDecoded code.size

/-- A step of such a machine ends in a fault of a decoded program, if it ends in a fault. -/
theorem Guaranteed.fault (guaranteed : m.Guaranteed code limit) (checked : code.Checked) {t : Turn} {f : Fault}
    {m' : Machine} (raised : perform t m = .error (.fault f) m') : f.cause.OfDecoded code.size := by
  obtain ⟨sturdy, running, -, failed⟩ := guaranteed
  cases t with
  | collect =>
    unfold perform at raised
    dsimp only at raised
    split at raised <;> cases raised
  | step canceled =>
    have raised : Machine.step canceled m = .error (.fault f) m' := raised
    cases before : m.control.failed with
    | some g =>
      cases (step_of_failed before).symm.trans raised
      exact failed f before
    | none =>
      cases faults_of_step before raised with
      | stuck more stuck =>
        have alive : m.control.sched.current.state ≠ .terminated := by
          rw [running before more]
          decide
        exact ofDecoded_of_stuck checked sturdy.code
          (sturdy.counters _ (Scheduler.mem_live.2 (.inl ⟨rfl, alive⟩))) stuck
      | instr executes run =>
        obtain ⟨i, entry, valid⟩ := checked.entries _ (sturdy.code ▸ executes.mem_code)
        cases entry
        exact ((Exec.tame_instr valid).usual _ _ _ run).ofDecoded
      | sched _ _ _ decided =>
        rcases Scheduler.reschedule_error decided with is | ⟨n, is⟩
        · rw [is]
          constructor <;> simp [Cause.kind]
        · rw [is]
          constructor <;> simp [Cause.kind]

theorem Guaranteed.turn (guaranteed : m.Guaranteed code limit) (checked : code.Checked) {t : Turn}
    (sound : ¬ m.Crashes t) : (m.turn t).Guaranteed code limit := by
  have course := guaranteed.sturdy.course guaranteed.running checked.leads t sound
  obtain ⟨sturdy, running⟩ := course.sturdy guaranteed.running
  have lands : ∀ i, some i ∈ code.toList → i.Lands (0 ≤ ·) := fun i mem => by
    obtain ⟨j, same, valid⟩ := checked.entries _ mem
    cases same
    exact valid.lands_nonneg
  refine ⟨sturdy, running, guaranteed.grounded.play lands [t], fun f mem => ?_⟩
  cases t with
  | collect => exact guaranteed.failed f (m.turn_collect_control ▸ mem)
  | step canceled =>
    rcases guaranteed.grounded.step lands canceled with ⟨same, -⟩ | ⟨-, -, raised⟩
    · exact guaranteed.failed f (same ▸ mem)
    · exact guaranteed.fault checked (t := .step canceled) (raised f mem)

theorem Guaranteed.play (guaranteed : m.Guaranteed code limit) (checked : code.Checked) {ts : List Turn}
    (sound : m.Along (fun m t => ¬ m.Crashes t) ts) : (m.play ts).Guaranteed code limit := by
  induction ts generalizing m with
  | nil => exact guaranteed
  | cons t ts ih => exact ih (guaranteed.turn checked sound.1) sound.2

end

/-- In every state that a decoded program of fewer than 2 ^ 32 instructions reaches without a crash, all program
counters lie in the program or just behind its end, in fibers as well as in calls and closures, and the next turn
faults only as a decoded program can. -/
theorem play_guaranteed {p : Program Datum} {is : List Instr} (decoded : p.instrs = .ok is)
    (small : is.length < UInt32.size) {size : Int} {options : Options} {clock : Clock} {sink : Sink} {m : Machine}
    (made : Machine.create size (Code.ofInstrs is) options clock sink = .ok m) {ts : List Turn}
    (sound : m.Along (fun m t => ¬ m.Crashes t) ts) :
    (m.play ts).Placed is.length ∧
    ∀ t f m', perform t (m.play ts) = .error (.fault f) m' → f.cause.OfDecoded is.length := by
  obtain ⟨checked, length⟩ := Program.checked_code decoded small
  obtain ⟨sturdy, running⟩ := Machine.create_sturdy checked.leads made
  obtain ⟨grounded, fine⟩ := Machine.create_grounded made
  have start : m.Guaranteed (Code.ofInstrs is) options.withDefaults.stepLimit := by
    refine ⟨sturdy, running, grounded, fun f mem => ?_⟩
    cases fine.symm.trans mem
  have guaranteed := start.play checked sound
  rw [← length]
  exact ⟨guaranteed.sturdy.placed, fun t f m' raised => guaranteed.fault checked raised⟩

/-- Calls a function that returns at once. -/
def callProgram : Program Datum :=
  { version := 1
    records := [{ opcode := "LDF", value := .null, entry := 3 }, { opcode := "CALL", value := .null },
      { opcode := "DONE", value := .null }, { opcode := "RESET", value := .null }] }

def callInstrs : List Instr := [.loadFunc 0 3, .call 0, .done, .reset]

/-- Inside the call, a call frame that leads to instruction 2 is on the runtime stack. -/
theorem play_guaranteed_call : ∃ m, callProgram.instrs = .ok callInstrs ∧
    Machine.create 320 (Code.ofInstrs callInstrs) {} = .ok m ∧
    (∀ f ∈ (m.play [.step false, .step false]).fibers, Within 4 f.pc) ∧
    (∃ f ∈ (m.play [.step false, .step false]).fibers, f.pc = 3 ∧ f.frames ≠ []) := by
  obtain ⟨m, made, run, called⟩ : ∃ m, Machine.create 320 (Code.ofInstrs callInstrs) {} = .ok m ∧ m.makes false 2 ∧
      (∃ f ∈ (m.play [.step false, .step false]).fibers, f.pc = 3 ∧ f.frames ≠ []) :=
    ⟨_, Machine.create_listed rfl, by decide +kernel⟩
  have sound : m.Along (fun m t => ¬ m.Crashes t) (List.replicate 2 (.step false)) :=
    (along_smooth_of_makes run).imp fun _ _ => Smooth.not_crashes
  have decoded : callProgram.instrs = .ok callInstrs := rfl
  obtain ⟨placed, -⟩ := play_guaranteed decoded (by decide) made sound
  exact ⟨m, rfl, made, placed.fibers, called⟩

end Machine

end FiberVm
