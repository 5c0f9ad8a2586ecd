import Mathlib.Data.List.Forall2
import FiberVm.Program.Basic

/-!
# Instructions and their records

What the record of an instruction reads back as. Everything comes back as it was, up to the width that an
integer constant was declared with, but for two instructions: a binary operation by the unary minus and a
unary operation by the binary one are written by the sign that both operators share, so each comes back with
the operator that this sign has in its place.
-/

set_option autoImplicit false

namespace FiberVm

theorem mapM_zipIdx_ok_iff {α β ε δ : Type} {f : α → Except ε β} {e : Nat → α → ε → δ} {xs : List α} {k : Nat}
    {ys : List β} :
    (xs.zipIdx k).mapM (fun x => (f x.1).mapError (e x.2 x.1)) = .ok ys
      ↔ List.Forall₂ (fun x y => f x = .ok y) xs ys := by
  induction xs generalizing k ys with
  | nil => cases ys <;> simp [pure, Except.pure]
  | cons x xs ih =>
    rw [List.zipIdx_cons, List.mapM_cons]
    cases head : f x with
    | error err => cases ys <;> simp [head, Except.mapError, bind, Except.bind]
    | ok y =>
      have passed : (Except.ok y).mapError (e k x) = .ok y := rfl
      cases tail : (xs.zipIdx (k + 1)).mapM (fun x => (f x.1).mapError (e x.2 x.1)) with
      | error err => cases ys <;> simp [passed, head, bind, Except.bind, ← ih (k := k + 1), tail]
      | ok zs => cases ys <;> simp [passed, head, bind, Except.bind, pure, Except.pure, ← ih (k := k + 1), tail]

namespace Program

theorem instrs_ok_iff {p : Program Datum} {is : List Instr} :
    p.instrs = .ok is ↔ (0 ≤ p.version ∧ p.version ≤ currentVersion)
      ∧ List.Forall₂ (fun r i => r.instr = .ok i) p.records is ∧ validate is = .ok () := by
  rw [← mapM_zipIdx_ok_iff (e := fun index r => Error.record index r.opcode) (k := 0)]
  unfold instrs
  split
  · rename_i outside
    constructor
    · intro run
      cases run
    · rintro ⟨inside, -⟩
      omega
  · rename_i inside
    have inside : 0 ≤ p.version ∧ p.version ≤ currentVersion := by omega
    change (List.mapM (fun x => x.1.instr.mapError (Error.record x.2 x.1.opcode)) p.records.zipIdx >>= fun is =>
      validate is >>= fun _ => Pure.pure is) = _ ↔ _
    cases List.mapM (fun x => x.1.instr.mapError (Error.record x.2 x.1.opcode)) p.records.zipIdx with
    | error err => simp [bind, Except.bind]
    | ok js =>
      simp only [bind, Except.bind, pure, Except.pure]
      cases valid : validate js with
      | error err =>
        simp only [reduceCtorEq, Except.ok.injEq, false_iff, not_and]
        rintro - rfl
        simp [valid]
      | ok u =>
        simp only [Except.ok.injEq]
        constructor
        · rintro rfl
          exact ⟨inside, rfl, valid⟩
        · rintro ⟨-, same, -⟩
          exact same

theorem ofInstrs_ok_iff {is : List Instr} {p : Program Literal} :
    ofInstrs is = .ok p ↔ p.version = currentVersion
      ∧ List.Forall₂ (fun i r => Record.ofInstr i = .ok r) is p.records := by
  rw [← mapM_zipIdx_ok_iff (e := fun index _ => Error.instr index) (k := 0)]
  change (List.mapM (fun x => (Record.ofInstr x.1).mapError (Error.instr x.2)) is.zipIdx >>= fun records =>
    Pure.pure (⟨currentVersion, records⟩ : Program Literal)) = _ ↔ _
  cases List.mapM (fun x => (Record.ofInstr x.1).mapError (Error.instr x.2)) is.zipIdx with
  | error err => simp [bind, Except.bind]
  | ok rs =>
    obtain ⟨version, records⟩ := p
    simp [bind, Except.bind, pure, Except.pure, eq_comm]

end Program

namespace Operator

/-- Only the operators of the tables have a name that the tables know. -/
theorem mem_tables_of_name {o : Operator} {row : String × Operator} (mem : row ∈ binaryTable ++ unaryTable)
    (same : row.1 = o.name) : (o.name, o) ∈ binaryTable ++ unaryTable := by
  unfold name at same ⊢
  cases known : o.symbol? with
  | some s =>
    obtain ⟨row, found, rfl⟩ := Option.map_eq_some_iff.1 known
    have same : row.2 = o := by simpa using List.find?_some found
    rw [← same]
    exact List.mem_of_find?_eq_some found
  | none =>
    -- A name made from the number is longer than any symbol.
    have short : ∀ row ∈ binaryTable ++ unaryTable, row.1.length ≤ 2 := by decide
    have long : 2 < (s!"Operator({o.number.toNat})").length := by
      simp only [String.length_append]
      have : 2 < (toString "Operator(").length := by decide
      omega
    simp only [known] at same
    exact absurd (same ▸ short row mem) (Nat.not_le.2 long)

theorem parseBinary_name {o o' : Operator} (read : parseBinary o.name = .ok o') :
    o' = if o = neg then sub else o := by
  have table : ∀ row ∈ binaryTable ++ unaryTable,
      ofBinarySymbol? row.1 = none ∨ ofBinarySymbol? row.1 = some (if row.2 = neg then sub else row.2) := by
    decide
  have found : ofBinarySymbol? o.name = some o' := by
    unfold parseBinary at read
    split at read
    · rename_i found
      cases read
      exact found
    · cases read
  obtain ⟨row, first, -⟩ := Option.map_eq_some_iff.1 found
  have mem := List.mem_append_left unaryTable (List.mem_of_find?_eq_some first)
  rcases table _ (mem_tables_of_name mem (by simpa using List.find?_some first)) with none | some
  · simp [none] at found
  · simpa [found] using some

theorem parseUnary_name {o o' : Operator} (read : parseUnary o.name = .ok o') :
    o' = if o = sub then neg else o := by
  have table : ∀ row ∈ binaryTable ++ unaryTable,
      ofUnarySymbol? row.1 = none ∨ ofUnarySymbol? row.1 = some (if row.2 = sub then neg else row.2) := by
    decide
  have found : ofUnarySymbol? o.name = some o' := by
    unfold parseUnary at read
    split at read
    · rename_i found
      cases read
      exact found
    · cases read
  obtain ⟨row, first, -⟩ := Option.map_eq_some_iff.1 found
  have mem := List.mem_append_right binaryTable (List.mem_of_find?_eq_some first)
  rcases table _ (mem_tables_of_name mem (by simpa using List.find?_some first)) with none | some
  · simp [none] at found
  · simpa [found] using some

end Operator


namespace Opcode

theorem parse_name {op : Opcode} (known : op.number.toNat < count) : parse op.name = .ok op := by
  obtain ⟨n⟩ := op
  have table : ∀ k < count, ofName? (name ⟨k.toUInt8⟩) = some ⟨k.toUInt8⟩ := by decide
  have found := table n.toNat known
  rw [Nat.toUInt8_eq, UInt8.ofNat_toNat] at found
  rw [parse, found]

end Opcode

/-- The constant with an integer brought to 64 bits. -/
def Constant.widened : Constant → Constant
  | .int _ n => .int .int64 n
  | c => c

namespace Instr

/-- The instruction with an integer constant brought to 64 bits. -/
def widened : Instr → Instr
  | .loadConst c => .loadConst c.widened
  | i => i

/-- What the record of an instruction reads back as. Operators are found again by their names. -/
def reread : Instr → Except Flaw Instr
  | .loadConst c => .ok (.loadConst c.widened)
  | .binary op => Except.map .binary (Operator.parseBinary op.name)
  | .unary op => Except.map .unary (Operator.parseUnary op.name)
  | i => .ok i

end Instr

theorem Literal.literal_datum (v : Literal) : v.datum.literal = .ok v := by
  cases v <;> rfl

theorem Record.opcode_of_ofInstr {i : Instr} {r : Record Literal} (written : Record.ofInstr i = .ok r) :
    Opcode.parse r.opcode = .ok i.opcode := by
  have named : r.opcode = i.opcode.name := by
    cases i with
    | loadConst c => cases c <;> cases written <;> rfl
    | foreign op typeName => cases written
    | _ =>
      cases written
      rfl
  rw [named]
  apply Opcode.parse_name
  cases i with
  | foreign op typeName => cases written
  | _ => exact of_decide_eq_true rfl

theorem Record.instr_of_ofInstr {f : Literal → Datum} (reads : ∀ v, (f v).literal = .ok v) {i : Instr}
    {r : Record Literal} (written : Record.ofInstr i = .ok r) : (r.map f).instr = i.reread := by
  have parsed : Opcode.parse (r.map f).opcode = .ok i.opcode := Record.opcode_of_ofInstr written
  rw [Record.instr, parsed]
  cases i with
  | foreign op typeName => cases written
  | loadConst c =>
    change ((f r.value).literal >>= fun v => pure (Instr.loadConst v.constant)) = _
    rw [reads]
    cases c <;> cases written <;> rfl
  | binary op =>
    cases written
    change (Operator.parseBinary op.name >>= fun o => pure (Instr.binary o)) = Except.map Instr.binary _
    cases Operator.parseBinary op.name <;> rfl
  | unary op =>
    cases written
    change (Operator.parseUnary op.name >>= fun o => pure (Instr.unary o)) = Except.map Instr.unary _
    cases Operator.parseUnary op.name <;> rfl
  | _ =>
    cases written
    rfl

/-- Two instructions are written by an operator that has another meaning in their place. -/
theorem Instr.eq_widened_iff {i j : Instr} (read : i.reread = .ok j) :
    j = i.widened ↔ i ≠ .binary .neg ∧ i ≠ .unary .sub := by
  cases i with
  | binary op =>
    cases parsed : Operator.parseBinary op.name with
    | error err => simp [Instr.reread, parsed, Except.map] at read
    | ok op' =>
      have same : Instr.binary op' = j := by simpa [Instr.reread, parsed, Except.map] using read
      subst same
      rw [Operator.parseBinary_name parsed]
      by_cases neg : op = .neg <;> simp [neg, Instr.widened]
      decide
  | unary op =>
    cases parsed : Operator.parseUnary op.name with
    | error err => simp [Instr.reread, parsed, Except.map] at read
    | ok op' =>
      have same : Instr.unary op' = j := by simpa [Instr.reread, parsed, Except.map] using read
      subst same
      rw [Operator.parseUnary_name parsed]
      by_cases sub : op = .sub <;> simp [sub, Instr.widened]
      decide
  | _ =>
    cases read
    simp [Instr.widened]

namespace Program

/-- A program made of instructions is read as what its records read back as, if the check lets it pass. -/
theorem instrs_map_ok_iff {f : Literal → Datum} (reads : ∀ v, (f v).literal = .ok v) {is js : List Instr}
    {p : Program Literal} (written : ofInstrs is = .ok p) :
    (p.map f).instrs = .ok js
      ↔ List.Forall₂ (fun i j => i.reread = .ok j) is js ∧ validate js = .ok () := by
  obtain ⟨version, records⟩ := ofInstrs_ok_iff.1 written
  have same : List.Forall₂ (fun r j => r.instr = .ok j) (p.map f).records js
      ↔ List.Forall₂ (fun i j => i.reread = .ok j) is js := by
    rw [map, List.forall₂_map_left_iff]
    clear written
    generalize p.records = rs at records
    induction records generalizing js with
    | nil => simp
    | cons first rest ih => cases js <;> simp [Record.instr_of_ofInstr reads first, ih]
  rw [instrs_ok_iff, same]
  have current : 0 ≤ (p.map f).version ∧ (p.map f).version ≤ currentVersion := by
    simp [map, version, currentVersion]
  simp [current]

/-- A program made of instructions gives them back, with integer constants brought to 64 bits, exactly if
no binary operation has the unary minus and no unary operation the binary one. -/
theorem instrs_map_datum_eq_iff {is js : List Instr} {p : Program Literal} (written : ofInstrs is = .ok p)
    (read : (p.map Literal.datum).instrs = .ok js) :
    js = is.map Instr.widened ↔ ∀ i ∈ is, i ≠ .binary .neg ∧ i ≠ .unary .sub := by
  obtain ⟨each, -⟩ := (instrs_map_ok_iff Literal.literal_datum written).1 read
  clear written read
  induction each with
  | nil => simp
  | cons first rest ih => simp [Instr.eq_widened_iff first, ih]

theorem instrs_map_datum_eq_signs :
    let is : List Instr := [.loadConst (.int .int8 5), .loadConst .nil, .unary .neg, .binary .sub, .binary .ne]
    (∀ i ∈ is, i ≠ .binary .neg ∧ i ≠ .unary .sub) ∧ ∃ p js, ofInstrs is = .ok p
      ∧ (p.map Literal.datum).instrs = .ok js ∧ js = is.map Instr.widened :=
  ⟨by decide, _, _, rfl, rfl, (instrs_map_datum_eq_iff rfl rfl).2 (by decide)⟩

/-- Each minus comes back as the other one. -/
theorem instrs_map_datum_swaps_signs :
    ∃ p js, ofInstrs [.binary .neg, .unary .sub] = .ok p ∧ (p.map Literal.datum).instrs = .ok js
      ∧ js = [.binary .sub, .unary .neg] ∧ js ≠ [.binary .neg, .unary .sub].map Instr.widened :=
  ⟨_, _, rfl, rfl, by decide, by decide⟩

end Program

end FiberVm
