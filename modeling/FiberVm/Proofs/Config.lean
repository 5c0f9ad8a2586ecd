import FiberVm.Config.Basic
import FiberVm.Program.Basic

/-!
# Configurations that pass their check

A configuration is checked before a machine is made with it, and making the machine checks the size of the heap once
more and fills in what the options leave out. The two checks agree but for sizes that hold the reserved nodes and no
other: those pass the first and not the second. From the next size on every configuration that passes makes a machine,
and nothing is filled in.
-/

set_option autoImplicit false

namespace FiberVm

/-- When a heap can be made. -/
theorem Heap.create_ok_iff (size : Int) : (∃ h, Heap.create size = .ok h) ↔
    0 < size ∧ size % Heap.nodeSize = 0 ∧ size ≤ Heap.maxWords ∧ (Heap.bottom.toNat : Int) < size := by
  have reserved : Heap.bottom.toNat = Heap.reservedNodes * Heap.nodeSize := by decide
  rw [reserved]
  unfold Heap.create
  split
  · next flawed => exact ⟨nofun, by omega⟩
  split
  · next large => exact ⟨nofun, by omega⟩
  split
  · next small => exact ⟨nofun, by unfold Heap.nodeSize Heap.reservedNodes at *; omega⟩
  · exact ⟨fun _ => by unfold Heap.nodeSize Heap.reservedNodes at *; omega, fun _ => ⟨_, rfl⟩⟩

theorem Heap.create_tooSmall {size : Int} (pos : 0 < size) (aligned : size % Heap.nodeSize = 0)
    (small : size ≤ Heap.bottom.toNat) : Heap.create size = .error (.tooSmall size) := by
  have reserved : Heap.bottom.toNat = Heap.reservedNodes * Heap.nodeSize := by decide
  rw [reserved] at small
  unfold Heap.create
  rw [if_neg (by omega), if_neg (by unfold Heap.nodeSize Heap.reservedNodes Heap.maxWords at *; omega),
    if_pos (by unfold Heap.nodeSize Heap.reservedNodes at *; omega)]

namespace Config

variable {c : Config}

/-- What the check asks for. -/
structure Valid (c : Config) : Prop where
  words_pos : 0 < c.words
  aligned : c.words % Heap.nodeSize = 0
  addressed : c.words ≤ Heap.maxWords
  quantum : 0 < c.quantum
  firstQuantum : 0 < c.firstQuantum
  stepLimit : 0 < c.stepLimit ∨ c.stepLimit = -1

theorem validate_ok_iff : c.validate = .ok () ↔ c.Valid := by
  constructor
  · intro passes
    unfold validate flaw? at passes
    split at passes
    · cases passes
    · next none =>
      split at none
      · cases none
      split at none
      · cases none
      split at none
      · cases none
      split at none
      · cases none
      split at none
      · cases none
      constructor <;> omega
  · rintro ⟨pos, aligned, addressed, quantum, first, limit⟩
    rw [validate, flaw?, if_neg (by omega), if_neg (by omega), if_neg (by omega), if_neg (by omega),
      if_neg (by omega)]

/-- Nothing is left out of the options of a configuration that passes. -/
theorem Valid.withDefaults (valid : c.Valid) : c.options.withDefaults = c.options := by
  have quantum := valid.quantum
  have first := valid.firstQuantum
  have limit := valid.stepLimit
  unfold Options.withDefaults options
  dsimp only
  rw [if_neg (by omega), if_neg (by omega), if_neg (by omega)]

theorem Valid.create_ok_iff (valid : c.Valid) :
    (∃ h, Heap.create c.words = .ok h) ↔ (Heap.bottom.toNat : Int) < c.words := by
  rw [Heap.create_ok_iff]
  exact ⟨fun fits => fits.2.2.2, fun room => ⟨valid.words_pos, valid.aligned, valid.addressed, room⟩⟩

/-- A machine for `code` whose time is sliced and limited as the configuration says. -/
structure Drives (c : Config) (code : Code) (m : Machine) : Prop where
  code : m.control.code = code
  quantum : m.control.sched.quantum = c.quantum
  firstQuantum : m.control.sched.firstQuantum = c.firstQuantum
  stepLimit : m.control.stepLimit = c.stepLimit

theorem Valid.drives (valid : c.Valid) {code : Code} {clock : Clock} {sink : Sink} {order : Enumeration} {h : Heap}
    (heap : Heap.create c.words = .ok h) :
    ∃ m, Machine.create c.words code c.options clock sink order = .ok m ∧ m.heap = h ∧ c.Drives code m := by
  refine ⟨_, by rw [Machine.create, heap], rfl, ?_⟩
  rw [valid.withDefaults]
  exact ⟨rfl, rfl, rfl, rfl⟩

/-- **What a configuration that passes its check stands for.** The defaults replace none of its options. With a heap
that has room for more than the reserved nodes there is a machine for every code, and its quanta and its step limit are
those of the configuration. With a smaller heap there is none, and that is the only reason. -/
theorem validated_drives (passes : c.validate = .ok ()) (code : Code) (clock : Clock) (sink : Sink)
    (order : Enumeration) :
    c.options.withDefaults = c.options ∧
    ((Heap.bottom.toNat : Int) < c.words →
      ∃ m, Machine.create c.words code c.options clock sink order = .ok m ∧ c.Drives code m) ∧
    (c.words ≤ Heap.bottom.toNat →
      Machine.create c.words code c.options clock sink order = .error (.tooSmall c.words)) := by
  have valid := validate_ok_iff.1 passes
  refine ⟨valid.withDefaults, fun room => ?_, fun small => ?_⟩
  · obtain ⟨h, heap⟩ := valid.create_ok_iff.2 room
    obtain ⟨m, made, -, drives⟩ := valid.drives heap
    exact ⟨m, made, drives⟩
  · rw [Machine.create, Heap.create_tooSmall valid.words_pos valid.aligned small]

/-- One collectable node, slices of one instruction and no limit. -/
theorem validated_drives_least :
    ({ words := 272, quantum := 1, firstQuantum := 1, stepLimit := -1 } : Config).validate = .ok () ∧
    ∃ m, Machine.create 272 (Code.ofInstrs [.done]) { quantum := 1, firstQuantum := 1, stepLimit := -1 } = .ok m ∧
      m.control.sched.quantum = 1 ∧ m.control.sched.firstQuantum = 1 ∧ m.control.stepLimit = -1 := by
  have passes : ({ words := 272, quantum := 1, firstQuantum := 1, stepLimit := -1 } : Config).validate = .ok () := rfl
  obtain ⟨-, runs, -⟩ := validated_drives passes (Code.ofInstrs [.done]) {} .discard {}
  obtain ⟨m, made, drives⟩ := runs (by decide)
  exact ⟨passes, m, made, drives.quantum, drives.firstQuantum, drives.stepLimit⟩

/-- A heap of reserved nodes alone passes the check, but no machine can be made with it. -/
theorem reserved_only_refused : ({ words := 256 } : Config).validate = .ok () ∧
    Machine.create 256 (Code.ofInstrs [.done]) ({ words := 256 } : Config).options = .error (.tooSmall 256) :=
  ⟨rfl, rfl⟩

end Config

end FiberVm
