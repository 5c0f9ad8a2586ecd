import FiberVm.Proofs.Program.Ranges
import FiberVm.Proofs.Program.Records

/-!
# Decoded programs can be written and read again

The instructions that a file stands for are written as records of which each reads back as its instruction.
Their integers still fit 64 bits, so the program that is written comes back from either format.
-/

set_option autoImplicit false

namespace FiberVm

/-- The instruction takes its operands from a record. -/
def Instr.ReadFrom (r : Record Datum) : Instr → Prop
  | .loadConst c => ∃ v : Literal, c = v.constant
  | .load pos sym | .assign pos sym => r.position = [pos.frame, pos.slot] ∧ sym = r.sym
  | .loadFunc arity entry => arity = r.arity ∧ entry = r.entry
  | .binary op => ∃ row ∈ Operator.binaryTable, row.2 = op
  | .unary op => ∃ row ∈ Operator.unaryTable, row.2 = op
  | .jumpOnFalse target | .goto target => target = r.target
  | .call arity | .tailCall arity => arity = r.arity
  | .enterScope slots => slots = r.slots
  | .startFiber stop => stop = r.stop
  | .foreign _ _ => False
  | _ => True

namespace Operator

theorem mem_of_parseBinary {s : String} {op : Operator} (read : parseBinary s = .ok op) :
    ∃ row ∈ binaryTable, row.2 = op := by
  unfold parseBinary at read
  split at read
  · rename_i found
    cases read
    obtain ⟨row, first, rfl⟩ := Option.map_eq_some_iff.1 found
    exact ⟨row, List.mem_of_find?_eq_some first, rfl⟩
  · cases read

theorem mem_of_parseUnary {s : String} {op : Operator} (read : parseUnary s = .ok op) :
    ∃ row ∈ unaryTable, row.2 = op := by
  unfold parseUnary at read
  split at read
  · rename_i found
    cases read
    obtain ⟨row, first, rfl⟩ := Option.map_eq_some_iff.1 found
    exact ⟨row, List.mem_of_find?_eq_some first, rfl⟩
  · cases read

end Operator

/-- A property of numbers of 8 bits is one of finitely many numbers. -/
theorem forall_byte {P : UInt8 → Prop} (each : ∀ n < 256, P n.toUInt8) (b : UInt8) : P b := by
  have here := each b.toNat b.toNat_lt
  rwa [Nat.toUInt8_eq, UInt8.ofNat_toNat] at here

theorem Opcode.utf8ByteSize_name_lt (op : Opcode) : op.name.utf8ByteSize < 2 ^ 64 := by
  have each := forall_byte (P := fun b => (name ⟨b⟩).utf8ByteSize < 2 ^ 64) (by decide +kernel)
  exact each op.number

theorem Operator.utf8ByteSize_name_lt (op : Operator) : op.name.utf8ByteSize < 2 ^ 64 := by
  have each := forall_byte (P := fun b => (name ⟨b⟩).utf8ByteSize < 2 ^ 64) (by decide +kernel)
  exact each op.number

namespace Record

theorem position_of_pos {r : Record Datum} {pos : Pos} (read : r.pos = .ok pos) : r.position = [pos.frame, pos.slot] := by
  unfold Record.pos at read
  split at read
  · rename_i same
    cases read
    exact same
  · cases read

theorem readFrom_of_instr {r : Record Datum} {i : Instr} (read : r.instr = .ok i) : i.ReadFrom r := by
  unfold Record.instr at read
  cases parse : Opcode.parse r.opcode with
  | error e =>
    rw [parse] at read
    cases read
  | ok op =>
    rw [parse] at read
    simp only [bind, Except.bind] at read
    split at read
    case h_1 =>
      split at read
      · cases read
      · cases read
        exact ⟨_, rfl⟩
    case h_2 | h_4 =>
      split at read
      · cases read
      · rename_i found
        cases read
        exact ⟨position_of_pos found, rfl⟩
    case h_5 =>
      split at read
      · cases read
      · rename_i found
        cases read
        exact Operator.mem_of_parseBinary found
    case h_6 =>
      split at read
      · cases read
      · rename_i found
        cases read
        exact Operator.mem_of_parseUnary found
    all_goals
      cases read <;> simp [Instr.ReadFrom]

/-- The record can be written in either format and read again. -/
structure Writable (s : Record Literal) : Prop where
  fits : s.Fits
  short : ∀ t ∈ s.texts, t.utf8ByteSize < 2 ^ 64
  places : s.position.length ≤ 2

theorem writable_ofInstr {r : Record Datum} {i : Instr} (origin : i.ReadFrom r) (fits : r.Fits)
    (short : r.sym.utf8ByteSize < 2 ^ 64) {s : Record Literal} (written : ofInstr i = .ok s) : s.Writable := by
  obtain ⟨places, slots, arity, entry, target, stop⟩ := fits_iff.1 fits
  have zero := fits64_zero
  have none : ∀ n ∈ ([] : List Int), Fits64 n := nofun
  have empty : ("" : String).utf8ByteSize < 2 ^ 64 := by decide
  have texts {s t : String} (first : s.utf8ByteSize < 2 ^ 64) (second : t.utf8ByteSize < 2 ^ 64) :
      ∀ u ∈ [i.opcode.name, s, t], u.utf8ByteSize < 2 ^ 64 :=
    List.forall_mem_cons.2 ⟨i.opcode.utf8ByteSize_name_lt, List.forall_mem_cons.2 ⟨first, List.forall_mem_singleton.2 second⟩⟩
  cases i with
  | loadConst c =>
    obtain ⟨v, rfl⟩ := origin
    cases v <;> cases written <;>
      exact ⟨fits_iff.2 ⟨none, zero, zero, zero, zero, zero⟩, texts empty empty, Nat.zero_le 2⟩
  | load pos sym | assign pos sym =>
    cases written
    obtain ⟨same, rfl⟩ := origin
    rw [same] at places
    exact ⟨fits_iff.2 ⟨places, zero, zero, zero, zero, zero⟩, texts short empty, Nat.le_refl 2⟩
  | loadFunc a e =>
    cases written
    obtain ⟨rfl, rfl⟩ := origin
    exact ⟨fits_iff.2 ⟨none, zero, arity, entry, zero, zero⟩, texts empty empty, Nat.zero_le 2⟩
  | binary op | unary op =>
    cases written
    exact ⟨fits_iff.2 ⟨none, zero, zero, zero, zero, zero⟩, texts empty op.utf8ByteSize_name_lt, Nat.zero_le 2⟩
  | jumpOnFalse t | goto t =>
    cases written
    cases origin
    exact ⟨fits_iff.2 ⟨none, zero, zero, zero, target, zero⟩, texts empty empty, Nat.zero_le 2⟩
  | call a | tailCall a =>
    cases written
    cases origin
    exact ⟨fits_iff.2 ⟨none, zero, arity, zero, zero, zero⟩, texts empty empty, Nat.zero_le 2⟩
  | enterScope n =>
    cases written
    cases origin
    exact ⟨fits_iff.2 ⟨none, slots, zero, zero, zero, zero⟩, texts empty empty, Nat.zero_le 2⟩
  | startFiber n =>
    cases written
    cases origin
    exact ⟨fits_iff.2 ⟨none, zero, zero, zero, zero, stop⟩, texts empty empty, Nat.zero_le 2⟩
  | foreign op typeName => cases written
  | _ =>
    cases written
    exact ⟨fits_iff.2 ⟨none, zero, zero, zero, zero, zero⟩, texts empty empty, Nat.zero_le 2⟩

theorem exists_ofInstr {r : Record Datum} {i : Instr} (origin : i.ReadFrom r) :
    (∃ s, ofInstr i = .ok s) ∧ i.reread = .ok i := by
  have binary : ∀ row ∈ Operator.binaryTable, Operator.ofBinarySymbol? row.2.name = some row.2 := by decide
  have unary : ∀ row ∈ Operator.unaryTable, Operator.ofUnarySymbol? row.2.name = some row.2 := by decide
  cases i with
  | loadConst c =>
    obtain ⟨v, rfl⟩ := origin
    cases v <;> exact ⟨⟨_, rfl⟩, rfl⟩
  | binary op =>
    obtain ⟨row, mem, rfl⟩ := origin
    refine ⟨⟨_, rfl⟩, ?_⟩
    rw [Instr.reread, Operator.parseBinary, binary row mem]
    rfl
  | unary op =>
    obtain ⟨row, mem, rfl⟩ := origin
    refine ⟨⟨_, rfl⟩, ?_⟩
    rw [Instr.reread, Operator.parseUnary, unary row mem]
    rfl
  | foreign op typeName => exact origin.elim
  | _ => exact ⟨⟨_, rfl⟩, rfl⟩

end Record

namespace Program

theorem load_of_ofJson? {bs : List UInt8} {p : Program Datum} (found : ofJson? bs = some p) :
    load .json bs = p.instrs := by
  have read : decode .json bs = .ok p := by
    unfold decode
    rw [found]
  rw [load, read]
  rfl

theorem load_of_ofCbor? {bs : List UInt8} {p : Program Datum} (found : ofCbor? bs = some p) :
    load .cbor bs = p.instrs := by
  have read : decode .cbor bs = .ok p := by
    unfold decode
    rw [found]
  rw [load, read]
  rfl

/-- The instructions of some records have records that can be written, and each reads back as what it was. -/
theorem exists_records {rs : List (Record Datum)} {is : List Instr}
    (each : List.Forall₂ (fun r i => r.instr = .ok i) rs is) (fits : ∀ r ∈ rs, r.Fits)
    (short : ∀ r ∈ rs, r.sym.utf8ByteSize < 2 ^ 64) :
    ∃ ss, List.Forall₂ (fun i s => Record.ofInstr i = .ok s) is ss ∧ (∀ s ∈ ss, s.Writable)
      ∧ List.Forall₂ (fun i j => i.reread = .ok j) is is := by
  induction each with
  | nil => exact ⟨[], .nil, nofun, .nil⟩
  | @cons r i rs is first rest ih =>
    have origin := Record.readFrom_of_instr first
    obtain ⟨⟨s, made⟩, again⟩ := Record.exists_ofInstr origin
    have writable := Record.writable_ofInstr origin (fits r List.mem_cons_self) (short r List.mem_cons_self) made
    obtain ⟨ss, others, all, back⟩ := ih (fun r mem => fits r (List.mem_cons_of_mem _ mem))
      fun r mem => short r (List.mem_cons_of_mem _ mem)
    exact ⟨s :: ss, .cons made others, List.forall_mem_cons.2 ⟨writable, all⟩, .cons again back⟩

/-- A decoded program can be written, and either format of it stands for the same instructions. A text has
a length that is a signed word. -/
theorem load_encode_of_decode {format : Format} {bs : List UInt8} {p : Program Datum} {is : List Instr}
    (read : decode format bs = .ok p) (decoded : p.instrs = .ok is) (few : is.length ≤ 131072)
    (short : ∀ r ∈ p.records, r.sym.utf8ByteSize < 2 ^ 63) :
    ∃ q, ofInstrs is = .ok q ∧ ∀ out, load out (encode out q) = .ok is := by
  obtain ⟨-, each, valid⟩ := instrs_ok_iff.1 decoded
  obtain ⟨ss, made, writable, again⟩ := exists_records each (fits_of_decode read) fun r mem =>
    lt_trans (short r mem) (by decide)
  have written : ofInstrs is = .ok ⟨currentVersion, ss⟩ := ofInstrs_ok_iff.2 ⟨rfl, made⟩
  have version : Fits64 currentVersion := ⟨by decide, by decide⟩
  have fits : ∀ s ∈ ss, s.Fits := fun s mem => (writable s mem).fits
  refine ⟨_, written, ?_⟩
  intro out
  cases out with
  | json =>
    have back := (instrs_map_ok_iff Literal.literal_jsonDatum written).2 ⟨again, valid⟩
    have found : ofJson? (Text.utf8 (toJson ⟨currentVersion, ss⟩)) = _ := ofJson?_toJson version fits
    exact (load_of_ofJson? found).trans back
  | cbor =>
    have back := (instrs_map_ok_iff Literal.literal_cborDatum written).2 ⟨again, valid⟩
    have places : ∀ s ∈ ss, s.position.length ≤ Cbor.maxMembers := fun s mem =>
      le_trans (writable s mem).places (by decide)
    have members : ss.length ≤ Cbor.maxMembers := made.length_eq ▸ few
    have found : ofCbor? (toCbor ⟨currentVersion, ss⟩) = _ :=
      ofCbor?_toCbor version fits (fun s mem => (writable s mem).short) places members
    exact (load_of_ofCbor? found).trans back

/-- Zero, the undefined value and null are told apart, and a text is escaped. -/
theorem load_encode_of_decode_zeros :
    let bs : List UInt8 := [
      0xA2, 0x01, 0x01, 0x02, 0x85,
      0xA2, 0x01, 0x63, 0x4C, 0x44, 0x43, 0x02, 0x00,
      0xA2, 0x01, 0x63, 0x4C, 0x44, 0x43, 0x02, 0x69, 0x75, 0x6E, 0x64, 0x65, 0x66, 0x69, 0x6E, 0x65, 0x64,
      0xA1, 0x01, 0x63, 0x4C, 0x44, 0x43,
      0xA3, 0x01, 0x62, 0x4C, 0x44, 0x03, 0x82, 0x00, 0x03, 0x04, 0x62, 0x3C, 0x0A,
      0xA1, 0x01, 0x64, 0x44, 0x4F, 0x4E, 0x45]
    let p : Program Datum := ⟨1, [{ opcode := "LDC", value := .unsigned 0 }, { opcode := "LDC", value := .text "undefined" },
      { opcode := "LDC", value := .null }, { opcode := "LD", value := .null, position := [0, 3], sym := "<\n" },
      { opcode := "DONE", value := .null }]⟩
    let is : List Instr :=
      [.loadConst (.int .int64 0), .loadConst .undefined, .loadConst .nil, .load ⟨0, 3⟩ "<\n", .done]
    decode .cbor bs = .ok p ∧ p.instrs = .ok is ∧ is.length ≤ 131072
      ∧ (∀ r ∈ p.records, r.sym.utf8ByteSize < 2 ^ 63)
      ∧ ∃ q, ofInstrs is = .ok q ∧ ∀ out, load out (encode out q) = .ok is := by
  intro bs p is
  have read : decode .cbor bs = .ok p := rfl
  have decoded : p.instrs = .ok is := rfl
  exact ⟨read, decoded, by decide, by decide, load_encode_of_decode read decoded (by decide) (by decide)⟩

end Program

end FiberVm
