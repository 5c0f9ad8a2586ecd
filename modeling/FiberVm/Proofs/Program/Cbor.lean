import FiberVm.Program.Cbor
import FiberVm.Proofs.Cbor.Items
import FiberVm.Proofs.Text.Utf8

/-!
# Programs in CBOR come back

A program whose integers fit 64 bits and whose texts are of a length that can be written is read from its
CBOR form as the same program. Of the constants, null is left out and an integer of either sign comes back as
a value of the same number.
-/

set_option autoImplicit false

namespace FiberVm

open Cbor (Item)

def Fits64 (n : Int) : Prop := -0x8000000000000000 ≤ n ∧ n < 0x8000000000000000

namespace Cbor.Item

theorem untagged?_ofInt (n : Int) : (ofInt n).untagged? = some (ofInt n) := by
  unfold ofInt
  split <;> rfl

theorem toNat_ofInt {n : Int} (low : 0 ≤ n) (high : n < 0x10000000000000000) :
    (UInt64.ofInt n).toNat = n.toNat := by
  have same : n % 2 ^ 64 = n := Int.emod_eq_of_lt low high
  rw [UInt64.ofInt, same, UInt64.toNat_ofNat']
  omega

theorem integer?_ofInt {n : Int} (fits : Fits64 n) : (ofInt n).integer? = some n := by
  obtain ⟨low, high⟩ := fits
  rw [integer?, typed?, untagged?_ofInt]
  by_cases sign : 0 ≤ n
  · have same := toNat_ofInt sign (by omega)
    have small : n.toNat < 0x8000000000000000 := by omega
    simp [ofInt, sign, isNull, same, small]
  · have same := toNat_ofInt (n := -1 - n) (by omega) (by omega)
    have small : (-1 - n).toNat < 0x8000000000000000 := by omega
    simp [ofInt, sign, isNull, same, small]
    omega

theorem textOf?_utf8 (s : String) : textOf? [Text.utf8 s] = some s := by
  simp [textOf?, Text.fromUTF8?_utf8, String.join]

theorem text?_ofText (s : String) : (ofText s).text? = some s := by
  simp [text?, typed?, ofText, untagged?, isNull, textOf?_utf8]

theorem list?_array {α : Type} {read : Item → Option α} {items : List Item} {xs : List α}
    (each : items.mapM read = some xs) : list? read (.array items) = some xs := by
  simp [list?, typed?, untagged?, isNull, each]

theorem mapM_map_eq {α β : Type} {read : Item → Option β} {write : α → Item} {f : α → β} {xs : List α}
    (each : ∀ x ∈ xs, read (write x) = some (f x)) : (xs.map write).mapM read = some (xs.map f) := by
  induction xs with
  | nil => rfl
  | cons x xs ih =>
    simp [each x List.mem_cons_self, ih fun y mem => each y (List.mem_cons_of_mem x mem)]

theorem readable_ofInt (n : Int) : Readable 0 (ofInt n) := by
  unfold ofInt
  split
  · exact readable_unsigned _
  · exact readable_negative _

theorem readable_ofText {s : String} (fits : s.utf8ByteSize < 2 ^ 64) : Readable 0 (ofText s) :=
  readable_text (by rwa [Text.length_utf8])

theorem readable_ofBool (b : Bool) : Readable 0 (ofBool b) := by
  cases b
  · exact readable_simple (by decide)
  · exact readable_simple (by decide)

/-- The fields of a map that have a value, under their numbers. -/
def numbered (rows : List (UInt64 × Option Item)) : List (Item × Item) :=
  rows.filterMap fun row => row.2.map fun x => (.unsigned row.1, x)

theorem numbered_cons (row : UInt64 × Option Item) (rows : List (UInt64 × Option Item)) :
    numbered (row :: rows) = (row.2.map fun x => (.unsigned row.1, x)).toList ++ numbered rows := by
  unfold numbered
  rw [List.filterMap_cons]
  cases row.2 <;> rfl

theorem isFieldKey_numbered (rows : List (UInt64 × Option Item)) :
    ((numbered rows).all fun e => e.1.isFieldKey) = true := by
  simp only [numbered, List.all_eq_true, List.mem_filterMap, Option.map_eq_some_iff]
  rintro e ⟨row, -, x, -, rfl⟩
  rfl

theorem field?_numbered {α : Type} {rows : List (UInt64 × Option Item)} (distinct : (rows.map Prod.fst).Nodup)
    {number : UInt64} {x : Option Item} (mem : (number, x) ∈ rows) (zero : α) (read : Item → Option α) :
    field? (numbered rows) number.toNat zero read = x.elim (some zero) read := by
  induction rows with
  | nil => cases mem
  | cons row rows ih =>
    obtain ⟨n, y⟩ := row
    rw [List.map_cons, List.nodup_cons] at distinct
    rcases List.mem_cons.1 mem with same | mem
    · cases same
      cases x with
      | some x => simp [numbered_cons, field?, isKeyOf]
      | none =>
        have missing : (numbered rows).find? (fun e => e.1.isKeyOf number.toNat) = none := by
          rw [List.find?_eq_none]
          intro e inside
          obtain ⟨row, other, some⟩ := List.mem_filterMap.1 inside
          obtain ⟨x, -, rfl⟩ := Option.map_eq_some_iff.1 some
          have apart : row.1 ≠ number := by
            rintro rfl
            exact distinct.1 (List.mem_map.2 ⟨row, other, rfl⟩)
          simpa [isKeyOf, UInt64.toNat_inj] using apart
        simp [numbered_cons, field?, missing]
    · have apart : n ≠ number := by
        rintro rfl
        exact distinct.1 (List.mem_map.2 ⟨_, mem, rfl⟩)
      have skipped : field? (numbered ((n, y) :: rows)) number.toNat zero read
          = field? (numbered rows) number.toNat zero read := by
        cases y <;> simp [numbered_cons, field?, isKeyOf, UInt64.toNat_inj, apart]
      rw [skipped, ih distinct.2 mem]

theorem record?_numbered {α : Type} (zero : α) (read : List (Item × Item) → Option α)
    (rows : List (UInt64 × Option Item)) : record? zero read (.map (numbered rows)) = read (numbered rows) := by
  simp [record?, typed?, untagged?, isNull, isFieldKey_numbered]

theorem readable_numbered {depth : Nat} {rows : List (UInt64 × Option Item)}
    (each : ∀ row ∈ rows, ∀ x, row.2 = some x → Readable depth x) (few : rows.length ≤ maxMembers) :
    Readable (depth + 1) (.map (numbered rows)) := by
  apply readable_map
  · intro e mem
    obtain ⟨row, inside, some⟩ := List.mem_filterMap.1 mem
    obtain ⟨x, here, rfl⟩ := Option.map_eq_some_iff.1 some
    exact ⟨(readable_unsigned _).mono (by omega), each row inside x here⟩
  · exact le_trans (List.length_filterMap_le _ _) few

end Cbor.Item

namespace Literal

/-- The value that a literal comes back as. -/
def cborDatum : Literal → Datum
  | null => .null
  | undefined => .text undefinedText
  | bool b => .bool b
  | int n => if 0 ≤ n.toInt then .unsigned (UInt64.ofInt n.toInt) else .int n

theorem literal_cborDatum (v : Literal) : v.cborDatum.literal = .ok v := by
  cases v with
  | int n =>
    have high := n.toInt_lt
    by_cases sign : 0 ≤ n.toInt
    · have same := Item.toNat_ofInt sign (by omega)
      have small : n.toInt.toNat < 0x8000000000000000 := by omega
      have back : Int64.ofNat n.toInt.toNat = n := by
        rw [← Int64.toInt_inj, Int64.toInt_ofNat_of_lt (by omega)]
        omega
      rw [cborDatum, if_pos sign]
      change (if (UInt64.ofInt n.toInt).toNat < _ then _ else _) = _
      rw [same, if_pos small, back]
    · simp [cborDatum, sign, Datum.literal]
  | _ => rfl

theorem datum?_literalItem {v : Literal} {x : Item} (item : Record.literalItem? v = some x) :
    x.datum? true = some v.cborDatum := by
  cases v with
  | null => cases item
  | undefined =>
    cases item
    simp [Item.ofText, Item.datum?, Item.textOf?_utf8, cborDatum]
  | bool b =>
    cases item
    cases b <;> rfl
  | int n =>
    cases item
    have low := n.le_toInt
    by_cases sign : 0 ≤ n.toInt
    · simp [Item.ofInt, sign, Item.datum?, cborDatum]
    · have same := Item.toNat_ofInt (n := -1 - n.toInt) (by omega) (by omega)
      have small : (-1 - n.toInt).toNat < 0x8000000000000000 := by omega
      have back : -1 - ((-1 - n.toInt).toNat : Int) = n.toInt := by omega
      rw [Item.ofInt, if_neg sign, cborDatum, if_neg sign, Item.datum?, same, if_pos small, back, Int64.ofInt_toInt]

end Literal

namespace Record

def integers {V : Type} (r : Record V) : List Int :=
  r.position ++ [r.slots, r.arity, r.entry, r.target, r.stop]

def texts {V : Type} (r : Record V) : List String := [r.opcode, r.sym, r.operator]

/-- The fields of a record's item; those that are left out have none. -/
def items (r : Record Literal) : List (UInt64 × Option Item) :=
  let integer (n : Int) : Option Item := if n = 0 then none else some (Item.ofInt n)
  let text (s : String) : Option Item := if s = "" then none else some (Item.ofText s)
  [(1, some (Item.ofText r.opcode)), (2, literalItem? r.value),
    (3, if r.position.isEmpty then none else some (.array (r.position.map Item.ofInt))),
    (4, text r.sym), (5, text r.operator), (6, integer r.slots), (7, integer r.arity),
    (8, integer r.entry), (9, integer r.target), (10, integer r.stop)]

theorem toItem_eq (r : Record Literal) : r.toItem = .map (Item.numbered r.items) := by
  have optional (c : Prop) [Decidable c] (number : UInt64) (x : Item) :
      ((if c then none else some x).map fun x => (Item.unsigned number, x)).toList
        = if c then [] else [(Item.unsigned number, x)] := by
    split <;> rfl
  simp only [toItem, items, Item.numbered_cons, optional]
  simp [Item.numbered]

theorem ofItem?_toItem {r : Record Literal} (fits : ∀ n ∈ r.integers, Fits64 n) :
    ofItem? r.toItem = some (r.map Literal.cborDatum) := by
  have distinct : (r.items.map Prod.fst).Nodup := by
    change ([1, 2, 3, 4, 5, 6, 7, 8, 9, 10] : List UInt64).Nodup
    decide
  have integer (number : UInt64) {n : Int} (mem : (number, if n = 0 then none else some (Item.ofInt n)) ∈ r.items)
      (inside : n ∈ r.integers) : Item.field? (Item.numbered r.items) number.toNat 0 Item.integer? = some n := by
    rw [Item.field?_numbered distinct mem]
    split_ifs with zero
    · simp [zero]
    · exact Item.integer?_ofInt (fits n inside)
  have text (number : UInt64) {s : String} (mem : (number, if s = "" then none else some (Item.ofText s)) ∈ r.items) :
      Item.field? (Item.numbered r.items) number.toNat "" Item.text? = some s := by
    rw [Item.field?_numbered distinct mem]
    split_ifs with empty
    · simp [empty]
    · exact Item.text?_ofText s
  have opcode : Item.field? (Item.numbered r.items) 1 "" Item.text? = some r.opcode :=
    (Item.field?_numbered distinct List.mem_cons_self _ _).trans (Item.text?_ofText _)
  have value : Item.field? (Item.numbered r.items) 2 .null (Item.datum? true) = some r.value.cborDatum := by
    have mem : (2, literalItem? r.value) ∈ r.items := by simp [items]
    refine (Item.field?_numbered distinct mem _ _).trans ?_
    cases item : literalItem? r.value with
    | none =>
      cases v : r.value <;> rw [v] at item <;> cases item
      rfl
    | some x => exact Literal.datum?_literalItem item
  have position : Item.field? (Item.numbered r.items) 3 [] (Item.list? Item.integer?) = some r.position := by
    have mem : (3, if r.position.isEmpty then none else some (.array (r.position.map Item.ofInt))) ∈ r.items := by
      simp [items]
    refine (Item.field?_numbered distinct mem _ _).trans ?_
    split_ifs with empty
    · rw [List.isEmpty_iff.1 empty]
      rfl
    · apply Item.list?_array
      simpa using Item.mapM_map_eq (f := id) fun n mem => Item.integer?_ofInt (fits n (List.mem_append_left _ mem))
  have sym : Item.field? _ 4 "" Item.text? = some r.sym := text 4 (by simp [items])
  have operator : Item.field? _ 5 "" Item.text? = some r.operator := text 5 (by simp [items])
  have slots : Item.field? _ 6 0 Item.integer? = some r.slots :=
    integer 6 (by simp [items]) (by simp [integers])
  have arity : Item.field? _ 7 0 Item.integer? = some r.arity :=
    integer 7 (by simp [items]) (by simp [integers])
  have entry : Item.field? _ 8 0 Item.integer? = some r.entry :=
    integer 8 (by simp [items]) (by simp [integers])
  have target : Item.field? _ 9 0 Item.integer? = some r.target :=
    integer 9 (by simp [items]) (by simp [integers])
  have stop : Item.field? _ 10 0 Item.integer? = some r.stop :=
    integer 10 (by simp [items]) (by simp [integers])
  rw [toItem_eq, ofItem?, Item.record?_numbered]
  simp [ofEntries?, map, opcode, value, position, sym, operator, slots, arity, entry, target, stop]

theorem readable_toItem {r : Record Literal} (short : ∀ s ∈ r.texts, s.utf8ByteSize < 2 ^ 64)
    (few : r.position.length ≤ Cbor.maxMembers) : Item.Readable 2 r.toItem := by
  have integer (n : Int) : Item.Readable 1 (Item.ofInt n) := (Item.readable_ofInt n).mono (by decide)
  have text (s : String) (mem : s ∈ r.texts) : Item.Readable 1 (Item.ofText s) :=
    (Item.readable_ofText (short s mem)).mono (by decide)
  have chosen {c : Prop} [Decidable c] {x y : Item} (some : (if c then none else some y) = some x) : y = x := by
    split_ifs at some
    exact Option.some.inj some
  rw [toItem_eq]
  apply Item.readable_numbered
  · intro row mem x some
    simp only [items, List.mem_cons, List.not_mem_nil, or_false] at mem
    rcases mem with rfl | rfl | rfl | rfl | rfl | rfl | rfl | rfl | rfl | rfl
    · cases some
      exact text r.opcode (by simp [texts])
    · cases v : r.value <;> rw [v] at some <;> cases some
      · exact (Item.readable_ofText (by decide)).mono (by decide)
      · exact (Item.readable_ofBool _).mono (by decide)
      · exact integer _
    · rw [← chosen some]
      refine Item.readable_array ?_ (by simpa using few)
      intro y inside
      obtain ⟨n, -, rfl⟩ := List.mem_map.1 inside
      exact Item.readable_ofInt n
    · rw [← chosen some]
      exact text r.sym (by simp [texts])
    · rw [← chosen some]
      exact text r.operator (by simp [texts])
    all_goals
      rw [← chosen some]
      exact integer _
  · exact of_decide_eq_true rfl

end Record

namespace Program

theorem ofCbor?_toCbor {p : Program Literal} (version : Fits64 p.version)
    (fits : ∀ r ∈ p.records, ∀ n ∈ r.integers, Fits64 n)
    (short : ∀ r ∈ p.records, ∀ s ∈ r.texts, s.utf8ByteSize < 2 ^ 64)
    (places : ∀ r ∈ p.records, r.position.length ≤ Cbor.maxMembers) (few : p.records.length ≤ Cbor.maxMembers) :
    ofCbor? p.toCbor = some (p.map Literal.cborDatum) := by
  let rows : List (UInt64 × Option Item) :=
    [(1, some (Item.ofInt p.version)), (2, some (.array (p.records.map Record.toItem)))]
  have same : p.toItem = .map (Item.numbered rows) := rfl
  have records : Item.Readable 3 (.array (p.records.map Record.toItem)) := by
    refine Item.readable_array ?_ (by simpa using few)
    intro x mem
    obtain ⟨r, inside, rfl⟩ := List.mem_map.1 mem
    exact Record.readable_toItem (short r inside) (places r inside)
  have readable : Item.Readable 4 p.toItem := by
    rw [same]
    apply Item.readable_numbered
    · intro row mem x some
      simp only [rows, List.mem_cons, List.not_mem_nil, or_false] at mem
      rcases mem with rfl | rfl <;> cases some
      · exact (Item.readable_ofInt _).mono (by decide)
      · exact records
    · exact of_decide_eq_true rfl
  have long : 4 ≤ p.toItem.encode.length := by
    have outer := Cbor.length_head_pos 5 2
    have key₁ := Cbor.length_head_pos 0 1
    have key₂ := Cbor.length_head_pos 0 2
    have list := Cbor.length_head_pos 4 (p.records.map Record.toItem).length
    change 4 ≤ (Cbor.head 5 2 ++ (Cbor.head 0 1 ++ (Item.ofInt p.version).encode
      ++ (Cbor.head 0 2 ++ (Cbor.head 4 (p.records.map Record.toItem).length
        ++ Item.encodeAll (p.records.map Record.toItem)) ++ []))).length
    simp only [List.length_append]
    omega
  have distinct : (rows.map Prod.fst).Nodup := by
    change ([1, 2] : List UInt64).Nodup
    decide
  have mem₁ : (1, some (Item.ofInt p.version)) ∈ rows := List.mem_cons_self
  have mem₂ : (2, some (.array (p.records.map Record.toItem))) ∈ rows := by simp [rows]
  have first : Item.field? (Item.numbered rows) 1 0 Item.integer? = some p.version :=
    (Item.field?_numbered distinct mem₁ _ _).trans (Item.integer?_ofInt version)
  have second : Item.field? (Item.numbered rows) 2 [] (Item.list? Record.ofItem?)
      = some (p.records.map (Record.map Literal.cborDatum)) := by
    refine (Item.field?_numbered distinct mem₂ _ _).trans (Item.list?_array ?_)
    exact Item.mapM_map_eq fun r mem => Record.ofItem?_toItem (fits r mem)
  rw [ofCbor?, toCbor, Item.decode?_encode readable (by decide) long]
  change Item.record? {} ofEntries? p.toItem = _
  rw [same, Item.record?_numbered]
  simp [ofEntries?, map, first, second]

end Program

end FiberVm
