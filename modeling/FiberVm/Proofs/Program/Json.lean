import Mathlib
import FiberVm.Program.Json
import FiberVm.Proofs.Json.Object
import FiberVm.Proofs.Json.Value
import FiberVm.Proofs.Program.Cbor

/-!
# Programs in JSON come back

A program whose integers fit 64 bits is read from its JSON form as the same program. Of the constants, null is
left out and an integer comes back with its spelling.
-/

set_option autoImplicit false

namespace FiberVm

open Json

namespace Json

variable {α ρ : Type}

/-- Reads one part of a record over the old one. -/
def part (get : ρ → α) (set : ρ → α → ρ) (read : α → Reader α) (r : ρ) : Reader ρ := do
  return set r (← read (get r))

variable {parts : Parts ρ} {r : ρ} {x : α} {value : List Char}

theorem Written.part {get : ρ → α} {set : ρ → α → ρ} {read : α → Reader α} 
    (written : Written (read (get r)) value x) : Written (part get set read r) value (set r x) := by
  refine ⟨written.starts, written.nonzero, ?_⟩
  intro blanks d rest blank delimits
  exact (written.reads blanks d rest blank delimits).bind (Takes.pure _)

variable (name : String)

theorem fill_part (get : ρ → α) (set : ρ → α → ρ) (read : α → Reader α) (letters : Letters name)
    (found : lookup parts name = some (part get set read)) (written : Written (read (get r)) value x) : 
    Fill parts [fieldText name value] r (set r x) :=
  .cons letters found written.part (.nil _)

/-- A part that is left out if it has the value that it starts with. -/
theorem fill_omitted {skip : Prop} [Decidable skip] (get : ρ → α) (set : ρ → α → ρ) (read : α → Reader α)
    (letters : Letters name)
    (found : lookup parts name = some (part get set read)) (written : Written (read (get r)) value x)
    (same : skip → set r x = r) : Fill parts (if skip then [] else [fieldText name value]) r (set r x) := by
  split_ifs with left
  · rw [same left]
    exact .nil r
  · exact fill_part name get set read letters found written

theorem written_fits {n : Int} (fits : Fits64 n) : Written integer (integerText n) n := by
  have same : (Int64.ofInt n).toInt = n := by
    rw [Int64.toInt_ofInt]
    obtain ⟨low, high⟩ := fits
    exact Int.bmod_eq_of_le low high
  have written := written_integer (Int64.ofInt n)
  rwa [same] at written

theorem fill_integer (get : ρ → Int) (set : ρ → Int → ρ) {n : Int} (fits : Fits64 n) (letters : Letters name)
    (found : lookup parts name = some (part get set fun old => orNull old integer)) (same : set r 0 = r) :
    Fill parts (if n = 0 then [] else [fieldText name (integerText n)]) r (set r n) :=
  fill_omitted name get set _ letters found ((written_fits fits).orNull _) fun zero => by rw [zero, same]

theorem fill_text (get : ρ → String) (set : ρ → String → ρ) (s : String) (letters : Letters name)
    (found : lookup parts name = some (part get set fun old => orNull old text)) (same : set r "" = r) :
    Fill parts (if s = "" then [] else [fieldText name (quoted s)]) r (set r s) :=
  fill_omitted name get set _ letters found ((written_text s).orNull _) fun none => by rw [none, same]

end Json

namespace Literal

/-- The value that a literal comes back as. -/
def jsonDatum : Literal → Datum
  | null => .null
  | undefined => .text undefinedText
  | bool b => .bool b
  | int n => .numeral (String.ofList (integerText n.toInt))

theorem literal_jsonDatum (v : Literal) : v.jsonDatum.literal = .ok v := by
  cases v with
  | int n =>
    have spelled := Text.decimal_integerText n
    simp [jsonDatum, Datum.literal, spelled]
  | _ => rfl

theorem written_literalText {v : Literal} {text : List Char} (some : Record.literalText? v = some text) (room : Nat) :
    Written (Json.value room) text v.jsonDatum := by
  cases v with
  | null => cases some
  | undefined =>
    cases some
    apply written_value_text
    exact Json.small_of_all (by decide)
  | bool b =>
    cases b
    · cases some
      exact written_value_bool false room
    · cases some
      exact written_value_bool true room
  | int n =>
    cases some
    exact written_value_integer n room

end Literal

namespace Record

theorem fill_value (room : Nat) (v : Literal) {r : Record Datum} (unset : r.value = .null) :
    Fill (jsonParts room) ((literalText? v).map (fieldText "value")).toList r { r with value := v.jsonDatum } := by
  cases text : literalText? v with
  | none =>
    have null : v = .null := by
      cases v with
      | null => rfl
      | undefined => cases text
      | bool b => cases b <;> cases text
      | int n => cases text
    subst null
    have same : { r with value := Literal.null.jsonDatum } = r := by
      rw [Literal.jsonDatum, ← unset]
    rw [same]
    exact .nil r
  | some text' =>
    exact fill_part "value" Record.value (fun r x => { r with value := x }) (fun _ => Json.value room) rfl (by cbv)
      (Literal.written_literalText text room)

theorem fill_position (room level : Nat) {ns : List Int}
    (each : List.Forall₂ (Written (orNull 0 Json.integer)) (ns.map integerText) ns) {r : Record Datum}
    (unset : r.position = []) :
    Fill (jsonParts room)
      (if ns.isEmpty then [] else [fieldText "compilePos" (listText (level + 1) (ns.map integerText))]) r
      { r with position := ns } := by
  have written : Written (Json.list (fun old => orNull old Json.integer) 0 r.position)
      (listText (level + 1) (ns.map integerText)) ns := by
    rw [unset]
    exact written_list (level + 1) each
  apply fill_omitted "compilePos" Record.position (fun r x => { r with position := x })
    (Json.list (fun old => orNull old Json.integer) 0) rfl (by cbv) written
  intro none
  rw [List.isEmpty_iff.1 none, ← unset]

theorem fill_jsonFields (level room : Nat) {r : Record Literal} (fits : ∀ n ∈ r.integers, Fits64 n) :
    Fill (jsonParts room) (r.jsonFields level) blank (r.map Literal.jsonDatum) := by
  have position : List.Forall₂ (Written (orNull 0 Json.integer)) (r.position.map integerText) r.position := by
    rw [List.forall₂_map_left_iff, List.forall₂_same]
    intro n mem
    exact (written_fits (fits n (List.mem_append_left _ mem))).orNull 0
  have fits (n : Int) (mem : n ∈ [r.slots, r.arity, r.entry, r.target, r.stop]) : Fits64 n :=
    fits n (List.mem_append_right _ mem)
  -- Every field starts out as what an omitted one stands for, and no other field touches it.
  have opcode : Fill (jsonParts room) _ blank _ :=
    fill_part "opcode" opcode (fun r x => { r with opcode := x }) (fun old => orNull old Json.text) rfl (by cbv)
      ((written_text r.opcode).orNull _)
  have value := opcode.append (fill_value room r.value rfl)
  have position := value.append (fill_position room level position rfl)
  have sym := position.append (fill_text "sym" Record.sym (fun r x => { r with sym := x }) r.sym rfl (by cbv) rfl)
  have operator := sym.append
    (fill_text "operator" Record.operator (fun r x => { r with operator := x }) r.operator rfl (by cbv) rfl)
  have slots := operator.append
    (fill_integer "numDeclarations" Record.slots (fun r x => { r with slots := x }) (fits r.slots (by simp)) rfl (by cbv) rfl)
  have arity := slots.append
    (fill_integer "arity" Record.arity (fun r x => { r with arity := x }) (fits r.arity (by simp)) rfl (by cbv) rfl)
  have entry := arity.append
    (fill_integer "entryInstr" Record.entry (fun r x => { r with entry := x }) (fits r.entry (by simp)) rfl (by cbv) rfl)
  have target := entry.append
    (fill_integer "targetInstr" Record.target (fun r x => { r with target := x }) (fits r.target (by simp)) rfl (by cbv) rfl)
  exact target.append
    (fill_integer "stopInstr" Record.stop (fun r x => { r with stop := x }) (fits r.stop (by simp)) rfl (by cbv) rfl)

theorem written_jsonText (level room : Nat) {r : Record Literal} (fits : ∀ n ∈ r.integers, Fits64 n) :
    Written (readJson room blank) (r.jsonText level) (r.map Literal.jsonDatum) :=
  written_object level room (fill_jsonFields level room fits) (by simp [jsonFields])

end Record

namespace Program

/-- The fields of a written program. -/
def jsonFields (p : Program Literal) : List (List Char) :=
  [fieldText "version" (integerText p.version),
    fieldText "instructions" (listText 1 (p.records.map (Record.jsonText 2)))]

theorem fill_jsonFields {p : Program Literal} (version : Fits64 p.version)
    (fits : ∀ r ∈ p.records, ∀ n ∈ r.integers, Fits64 n) :
    Fill jsonParts p.jsonFields {} (p.map Literal.jsonDatum) := by
  have records : List.Forall₂ (Written (Record.readJson (maxDepth - 3) Record.blank))
      (p.records.map (Record.jsonText 2)) (p.records.map (Record.map Literal.jsonDatum)) := by
    rw [List.forall₂_map_left_iff, List.forall₂_map_right_iff, List.forall₂_same]
    intro r mem
    exact Record.written_jsonText 2 _ (fits r mem)
  have first : Fill jsonParts [fieldText "version" (integerText p.version)] {} { version := p.version } :=
    fill_part "version" Program.version (fun p x => { p with version := x }) (fun old => orNull old Json.integer) rfl rfl
      ((written_fits version).orNull _)
  exact first.append (fill_part "instructions" Program.records (fun p x => { p with records := x }) (readJsonRecords 2)
    rfl rfl (written_list 1 records))

theorem takes_skipSeparator (cs : List Char) : Takes (On ('{' :: cs)) skipSeparator () (At ('{' :: cs)) :=
  Takes.bind (takes_here (by decide) (by decide)) (Takes.pure ())

theorem ofJson?_toJson {p : Program Literal} (version : Fits64 p.version)
    (fits : ∀ r ∈ p.records, ∀ n ∈ r.integers, Fits64 n) :
    ofJson? (Text.utf8 p.toJson) = some (p.map Literal.jsonDatum) := by
  have fill := fill_jsonFields version fits
  have some : p.jsonFields ≠ [] := by simp [jsonFields]
  have text : Text.utf8 p.toJson = Text.bytesOf (objectText 0 p.jsonFields) := by
    rw [Text.utf8_eq, toJson, String.toList_ofList]
    rfl
  have head : (Text.bytesOf (objectText 0 p.jsonFields)).head? = Option.some 0x7B := rfl
  have last : (Text.bytesOf (objectText 0 p.jsonFields)).getLast? = Option.some 0x7D := by
    rw [objectText, Text.bytesOf_append]
    exact List.getLast?_concat
  have solid : ∀ c : Char, c.toNat = 0x7B ∨ c.toNat = 0x7D → Text.isBlank c = false := by
    intro c code
    apply decide_eq_false
    omega
  have whole := Text.trimUtf8_eq head last (by decide) solid
  have none : ∀ b ∈ ([] : List Char), isBlank b = true := List.forall_mem_nil _
  have reads : Takes (On (objectText 0 p.jsonFields)) (readJson false) (p.map Literal.jsonDatum) (On []) := by
    have object : Takes (On ([] ++ (objectText 0 p.jsonFields ++ []))) (object (maxDepth - 1) jsonParts {})
        (p.map Literal.jsonDatum) (On []) := takes_object 0 (maxDepth - 1) fill some none
    rw [List.nil_append, List.append_nil] at object
    exact (takes_skipSeparator _).bind (object.imp (fun _ => At.on) fun _ => id)
  obtain ⟨w, read, -⟩ := reads _ (Window.shows_ofBytes (Text.zero_not_mem_bytesOf (nonzero_objectText 0 fill some)))
  rw [text, ofJson?]
  simp only [whole, head]
  change ((readJson false) _).map _ = _
  rw [read]
  rfl

end Program

end FiberVm
