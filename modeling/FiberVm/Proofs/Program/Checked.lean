import FiberVm.Proofs.Program.RoundTrip

/-!
# What decoding makes sure of

Every instruction of a decoded program was read from a record and has passed the check of its operands. So its
constant is a literal, its operator is used on as many operands as it takes, its arity is not negative, and it
leads to a place inside the program.
-/

set_option autoImplicit false

namespace FiberVm

/-- The instruction was read from a record and passes the check in a stream of `size` instructions. -/
structure Instr.Checked (size : Nat) (i : Instr) : Prop where
  read : ∃ r, i.ReadFrom r
  flawless : i.flaw? size = none

namespace Program

theorem validate_ok_iff {is : List Instr} : validate is = .ok () ↔ ∀ i ∈ is, i.flaw? is.length = none := by
  unfold validate
  dsimp only
  split
  · next e found =>
    obtain ⟨x, mem, flaw⟩ := List.exists_of_findSome?_eq_some found
    refine ⟨nofun, fun flawless => ?_⟩
    rw [flawless x.1 (List.fst_mem_of_mem_zipIdx mem)] at flaw
    cases flaw
  · next none =>
    refine ⟨fun _ i mem => ?_, fun _ => rfl⟩
    obtain ⟨k, inside, rfl⟩ := List.mem_iff_getElem.1 mem
    have at_k := List.findSome?_eq_none_iff.1 none (is[k], k) (List.mk_mem_zipIdx_iff_getElem?.2 (List.getElem?_eq_getElem inside))
    exact Option.map_eq_none_iff.1 at_k

theorem checked_of_instrs {p : Program Datum} {is : List Instr} (decoded : p.instrs = .ok is) :
    ∀ i ∈ is, i.Checked is.length := by
  intro i mem
  obtain ⟨-, records, valid⟩ := instrs_ok_iff.1 decoded
  refine ⟨?_, validate_ok_iff.1 valid i mem⟩
  obtain ⟨k, inside, rfl⟩ := List.mem_iff_getElem.1 mem
  have read := records.get (records.length_eq ▸ inside) inside
  exact ⟨_, Record.readFrom_of_instr read⟩

end Program

namespace Instr.Checked

variable {size : Nat}

theorem target {i : Instr} {target : Int} (is : i = .goto target ∨ i = .jumpOnFalse target)
    (checked : i.Checked size) : 0 ≤ target ∧ target < size := by
  have flawless := checked.flawless
  rcases is with rfl | rfl
  · simpa [flaw?] using flawless
  · simpa [flaw?] using flawless

theorem entry {arity entry : Int} (checked : (Instr.loadFunc arity entry).Checked size) :
    0 ≤ entry ∧ entry < size := by
  have flawless := checked.flawless
  simp only [flaw?] at flawless
  grind

theorem arity {i : Instr} {arity : Int} (is : i = .call arity ∨ i = .tailCall arity) (checked : i.Checked size) :
    0 ≤ arity := by
  have flawless := checked.flawless
  rcases is with rfl | rfl
  · simpa [flaw?] using flawless
  · simpa [flaw?] using flawless

theorem constant {c : Constant} (checked : (Instr.loadConst c).Checked size) : ∃ l : Literal, c = l.constant :=
  checked.read.elim fun _ read => read

theorem binary {op : Operator} (checked : (Instr.binary op).Checked size) : op.isBinary := by
  obtain ⟨r, row, mem, rfl⟩ := checked.read
  exact List.any_eq_true.2 ⟨row, mem, beq_self_eq_true row.2⟩

theorem unary {op : Operator} (checked : (Instr.unary op).Checked size) : op = .neg ∨ op = .not := by
  obtain ⟨r, row, mem, rfl⟩ := checked.read
  simp only [Operator.unaryTable, List.mem_cons, List.not_mem_nil, or_false] at mem
  rcases mem with rfl | rfl
  · exact .inl rfl
  · exact .inr rfl

theorem not_foreign {op : Opcode} {name : String} : ¬ (Instr.foreign op name).Checked size := fun checked =>
  checked.read.elim fun _ read => read

end Instr.Checked

end FiberVm
