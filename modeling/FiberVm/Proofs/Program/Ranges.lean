import FiberVm.Program.File
import FiberVm.Proofs.Program.Json

/-!
# Integers of programs that were read

Both formats read integers of 64 bits, so that a program that was read can be written again without any of
them being cut. What holds of every value that a reader can give is put together from what its parts can give.
-/

set_option autoImplicit false

namespace FiberVm

theorem fits64_toInt (n : Int64) : Fits64 n.toInt := ⟨n.le_toInt, n.toInt_lt⟩

theorem fits64_zero : Fits64 0 := ⟨by decide, by decide⟩

namespace Json

variable {α β : Type}

/-- Everything that the reader gives satisfies `P`. -/
def Gives (P : α → Prop) (r : Reader α) : Prop := ∀ w x w', r w = some (x, w') → P x

namespace Gives

variable {P : α → Prop} {Q : β → Prop} {r : Reader α} {f : α → Reader β}

theorem bind (first : Gives P r) (second : ∀ x, P x → Gives Q (f x)) : Gives Q (r >>= f) := by
  intro w y w' run
  change (r w >>= fun p => f p.1 p.2) = some (y, w') at run
  cases read : r w with
  | none => simp [read] at run
  | some p =>
    rw [read] at run
    exact second p.1 (first w p.1 p.2 read) p.2 y w' run

theorem last (second : ∀ x, Gives Q (f x)) : Gives Q (r >>= f) := by
  have any : Gives (fun _ => True) r := fun _ _ _ _ => trivial
  exact any.bind fun x _ => second x

theorem pure {x : α} (holds : P x) : Gives P (Pure.pure x) := by
  intro w y w' run
  cases run
  exact holds

theorem failure : Gives P (Alternative.failure : Reader α) := by
  intro w x w' run
  cases run

theorem failure_bind : Gives Q (Alternative.failure >>= f) := by
  have none : Gives (fun _ => False) (Alternative.failure : Reader α) := failure
  exact none.bind fun _ no => no.elim

theorem lift {o : Option α} (each : ∀ x, o = some x → P x) : Gives P (liftM o : Reader α) := by
  intro w x w' run
  cases o with
  | none => cases run
  | some y =>
    cases run
    exact each x rfl

theorem orNull {old : α} (kept : P old) (read : Gives P r) : Gives P (orNull old r) := by
  apply Gives.last
  intro c
  split_ifs
  · exact Gives.last fun _ => .pure kept
  · exact read

end Gives

theorem gives_integer : Gives Fits64 integer := by
  have finish (n : Int) (fits : Fits64 n) : Gives Fits64 (do release; return n) := Gives.last fun _ => .pure fits
  have digits (negative : Bool) : Gives Fits64 (do
      let n ← integerOf negative (← run Char.isDigit)
      release
      return n) := by
    apply Gives.last
    intro ds
    refine Gives.bind (Gives.lift ?_) finish
    intro n read
    unfold integerOf at read
    split at read
    · cases read
    · cases read
      exact fits64_toInt _
  apply Gives.last
  intro c
  simp only
  split
  · exact Gives.last fun _ => digits true
  · exact Gives.last fun _ => (Gives.pure fits64_zero).bind finish
  · exact digits false

theorem gives_members {P : α → Prop} {read : α → Reader α} {zero : α} (each : ∀ old, P old → Gives P (read old))
    (first : P zero) (fuel : Nat) {old seen : List α} (kept : ∀ x ∈ old, P x) (before : ∀ x ∈ seen, P x) :
    Gives (fun xs => ∀ x ∈ xs, P x) (members read zero fuel old seen) := by
  induction fuel generalizing old seen with
  | zero => exact .failure
  | succ fuel ih =>
    have head : P (old.headD zero) := by
      cases old with
      | nil => exact first
      | cons x old => exact kept x List.mem_cons_self
    refine (each _ head).bind ?_
    intro x here
    have seen' : ∀ y ∈ x :: seen, P y := by
      intro y mem
      rcases List.mem_cons.1 mem with rfl | mem
      · exact here
      · exact before y mem
    apply Gives.last
    intro c
    split
    · exact Gives.last fun _ => ih (fun y mem => kept y (List.mem_of_mem_tail mem)) seen'
    · exact Gives.last fun _ => .pure fun y mem => seen' y (List.mem_reverse.1 mem)
    · exact .failure

theorem gives_list {P : α → Prop} {read : α → Reader α} {zero : α} (each : ∀ old, P old → Gives P (read old))
    (first : P zero) {old : List α} (kept : ∀ x ∈ old, P x) :
    Gives (fun xs => ∀ x ∈ xs, P x) (list read zero old) := by
  have empty : ∀ x ∈ ([] : List α), P x := nofun
  refine Gives.orNull empty ?_
  apply Gives.last
  intro c
  split
  · exact .failure_bind
  · apply Gives.last
    intro _
    apply Gives.last
    intro c
    split
    · exact Gives.last fun _ => .pure empty
    · exact Gives.last fun w => gives_members each first w.budget kept empty

theorem Candidates.forall_narrow {P : β → Prop} {cs : Candidates β} (each : ∀ c ∈ cs, P c.2.2) (d : Char) :
    ∀ c ∈ cs.narrow d, P c.2.2 := by
  intro c mem
  obtain ⟨⟨letters, n, x⟩, inside, fit⟩ := List.mem_filterMap.1 mem
  cases letters with
  | nil => cases fit
  | cons e letters =>
    simp only at fit
    split_ifs at fit
    cases fit
    exact each (e :: letters, n, x) inside

theorem Candidates.of_choose {P : β → Prop} {cs : Candidates β} (each : ∀ c ∈ cs, P c.2.2) {length : Nat} {x : β}
    (chosen : cs.choose length = some x) : P x := by
  cases cs with
  | nil => cases chosen
  | cons c cs =>
    simp only [choose] at chosen
    split_ifs at chosen
    cases chosen
    exact each c List.mem_cons_self

/-- A name stands for nothing but what stands in the table. -/
theorem gives_nameFrom {P : β → Prop} (fuel : Nat) {cs : Candidates β} (each : ∀ c ∈ cs, P c.2.2) (length : Nat) :
    Gives (fun part => ∀ x, part = some x → P x) (nameFrom fuel cs length) := by
  have none : Gives (fun part => ∀ x, part = some x → P x) (noName : Reader (Option β)) :=
    Gives.last fun _ => Gives.last fun _ => Gives.last fun _ => .pure nofun
  induction fuel generalizing cs length with
  | zero => exact .failure
  | succ fuel ih =>
    apply Gives.last
    intro c
    split
    · exact Gives.last fun _ => .pure fun x chosen => Candidates.of_choose each chosen
    · exact .failure
    · apply Gives.last
      intro _
      apply Gives.last
      intro c
      split
      · apply Gives.last
        intro _
        apply Gives.last
        intro u
        split_ifs
        · exact Gives.last fun _ => none
        · apply Gives.last
          intro _
          split_ifs
          · exact none
          · exact Gives.last fun _ => ih (Candidates.forall_narrow each _) _
      · split
        · exact .failure_bind
        · exact Gives.last fun _ => none
    · simp only
      split
      · exact none
      · exact Gives.last fun _ => ih (Candidates.forall_narrow each _) _

theorem gives_name {P : β → Prop} {rows : List (String × β)} (each : ∀ row ∈ rows, P row.2) :
    Gives (fun part => ∀ x, part = some x → P x) (name rows) := by
  apply Gives.last
  intro c
  split
  · exact .failure_bind
  · apply Gives.last
    intro _
    apply Gives.last
    intro w
    apply gives_nameFrom
    intro c mem
    obtain ⟨row, inside, rfl⟩ := List.mem_map.1 mem
    exact each row inside

theorem gives_fields {P : α → Prop} {parts : Parts α} (each : ∀ part ∈ parts, ∀ old, P old → Gives P (part.2 old))
    (room fuel : Nat) {old : α} (kept : P old) : Gives P (fields room parts fuel old) := by
  induction fuel generalizing old with
  | zero => exact .failure
  | succ fuel ih =>
    apply Gives.last
    intro _
    have known : Gives (fun part => ∀ read, part = some read → ∀ old, P old → Gives P (read old)) (name parts) :=
      gives_name each
    refine known.bind ?_
    intro part known
    apply Gives.last
    intro _
    extract_lets behind
    have ends : ∀ x, P x → Gives P (behind x) := by
      intro x holds
      apply Gives.last
      intro c
      split
      · exact Gives.last fun _ => ih holds
      · exact Gives.last fun _ => .pure holds
      · exact .failure
    cases part with
    | some read => exact (known read rfl old kept).bind ends
    | none => exact Gives.bind (Gives.last fun _ => .pure kept) ends

theorem gives_object {P : α → Prop} {parts : Parts α} (each : ∀ part ∈ parts, ∀ old, P old → Gives P (part.2 old))
    (room : Nat) {old : α} (kept : P old) : Gives P (object room parts old) := by
  apply Gives.orNull kept
  apply Gives.last
  intro c
  split
  · exact .failure_bind
  · apply Gives.last
    intro _
    apply Gives.last
    intro c
    split
    · exact Gives.last fun _ => .pure kept
    · exact Gives.last fun w => gives_fields each room w.budget kept

end Json

namespace Cbor.Item

variable {α : Type} {P : α → Prop}

theorem typed?_of {zero : α} {read : Item → Option α} (first : P zero) (each : ∀ x y, read x = some y → P y) {x : Item}
    {y : α} (found : typed? zero read x = some y) : P y := by
  unfold typed? at found
  split at found
  · cases found
  · split_ifs at found
    · cases found
      exact first
    · exact each _ y found

theorem integer?_fits {x : Item} {n : Int} (found : x.integer? = some n) : Fits64 n := by
  refine typed?_of fits64_zero ?_ found
  intro x n read
  split at read
  · split_ifs at read with small
    cases read
    exact ⟨by omega, by omega⟩
  · split_ifs at read with small
    cases read
    exact ⟨by omega, by omega⟩
  · rename_i k
    have := k.toNat_lt
    split_ifs at read
    cases read
    exact ⟨by omega, by omega⟩
  · cases read

theorem forall_of_mapM {read : Item → Option α} (each : ∀ x y, read x = some y → P y) {xs : List Item} {ys : List α}
    (found : xs.mapM read = some ys) : ∀ y ∈ ys, P y := by
  induction xs generalizing ys with
  | nil =>
    cases found
    nofun
  | cons x xs ih =>
    simp only [List.mapM_cons, Option.bind_eq_bind, Option.bind_eq_some_iff, Option.pure_def, Option.some.injEq] at found
    obtain ⟨z, head, zs, tail, rfl⟩ := found
    intro y mem
    rcases List.mem_cons.1 mem with rfl | mem
    · exact each x _ head
    · exact ih tail y mem

theorem list?_of {read : Item → Option α} (each : ∀ x y, read x = some y → P y) {x : Item} {ys : List α}
    (found : list? read x = some ys) : ∀ y ∈ ys, P y := by
  have none : ∀ y ∈ ([] : List α), P y := nofun
  refine typed?_of (P := fun ys => ∀ y ∈ ys, P y) none ?_ found
  intro x ys members
  split at members
  · exact forall_of_mapM each members
  · cases members

theorem field?_of {entries : List (Item × Item)} {number : Nat} {zero : α} {read : Item → Option α} (first : P zero)
    (each : ∀ x y, read x = some y → P y) {y : α} (found : field? entries number zero read = some y) : P y := by
  unfold field? at found
  split at found
  · exact each _ y found
  · cases found
    exact first

end Cbor.Item

namespace Record

/-- Every integer of the record fits 64 bits. -/
def Fits {V : Type} (r : Record V) : Prop := ∀ n ∈ r.integers, Fits64 n

theorem fits_iff {V : Type} {r : Record V} :
    r.Fits ↔ (∀ n ∈ r.position, Fits64 n) ∧ Fits64 r.slots ∧ Fits64 r.arity ∧ Fits64 r.entry ∧ Fits64 r.target
      ∧ Fits64 r.stop := by
  simp [Fits, integers, or_imp, forall_and]

theorem fits_blank : blank.Fits := by simp [fits_iff, blank, fits64_zero]

theorem gives_readJson (room : Nat) {old : Record Datum} (fits : old.Fits) : Json.Gives Fits (readJson room old) := by
  have integer (n : Int) (fits : Fits64 n) : Json.Gives Fits64 (Json.orNull n Json.integer) :=
    .orNull fits Json.gives_integer
  have position (ns : List Int) (fits : ∀ n ∈ ns, Fits64 n) :
      Json.Gives (fun ns => ∀ n ∈ ns, Fits64 n) (Json.list (fun old => Json.orNull old Json.integer) 0 ns) :=
    Json.gives_list integer fits64_zero fits
  have any {α : Type} (r : Json.Reader α) : Json.Gives (fun _ => True) r := fun _ _ _ _ => trivial
  refine Json.gives_object ?_ room fits
  intro part mem old fits
  obtain ⟨places, slots, arity, entry, target, stop⟩ := fits_iff.1 fits
  simp only [jsonParts, List.mem_cons, List.not_mem_nil, or_false] at mem
  rcases mem with rfl | rfl | rfl | rfl | rfl | rfl | rfl | rfl | rfl | rfl
  · exact (integer _ arity).bind fun _ holds => .pure (fits_iff.2 ⟨places, slots, holds, entry, target, stop⟩)
  · exact (position _ places).bind fun _ holds => .pure (fits_iff.2 ⟨holds, slots, arity, entry, target, stop⟩)
  · exact (integer _ entry).bind fun _ holds => .pure (fits_iff.2 ⟨places, slots, arity, holds, target, stop⟩)
  · exact (integer _ slots).bind fun _ holds => .pure (fits_iff.2 ⟨places, holds, arity, entry, target, stop⟩)
  · exact Json.Gives.last fun _ => .pure fits
  · exact Json.Gives.last fun _ => .pure fits
  · exact (integer _ stop).bind fun _ holds => .pure (fits_iff.2 ⟨places, slots, arity, entry, target, holds⟩)
  · exact Json.Gives.last fun _ => .pure fits
  · exact (integer _ target).bind fun _ holds => .pure (fits_iff.2 ⟨places, slots, arity, entry, holds, stop⟩)
  · exact Json.Gives.last fun _ => .pure fits

theorem fits_of_ofItem? {x : Cbor.Item} {r : Record Datum} (found : ofItem? x = some r) : r.Fits := by
  refine Cbor.Item.typed?_of fits_blank ?_ found
  intro x r read
  split at read
  · split_ifs at read
    simp only [ofEntries?, Option.bind_eq_bind, Option.bind_eq_some_iff, Option.pure_def, Option.some.injEq] at read
    obtain ⟨opcode, -, value, -, position, places, sym, -, operator, -, slots, h₁, arity, h₂, entry, h₃, target, h₄,
      stop, h₅, rfl⟩ := read
    have integer {n : Int} {number : Nat} {entries : List (Cbor.Item × Cbor.Item)}
        (found : Cbor.Item.field? entries number 0 Cbor.Item.integer? = some n) : Fits64 n :=
      Cbor.Item.field?_of fits64_zero (fun x n => Cbor.Item.integer?_fits) found
    have none : ∀ n ∈ ([] : List Int), Fits64 n := List.forall_mem_nil _
    have places := Cbor.Item.field?_of (P := fun ns => ∀ n ∈ ns, Fits64 n) none
      (fun x ns => Cbor.Item.list?_of fun x n => Cbor.Item.integer?_fits) places
    exact fits_iff.2 ⟨places, integer h₁, integer h₂, integer h₃, integer h₄, integer h₅⟩
  · cases read

end Record

namespace Program

theorem fits_of_ofJson? {bs : List UInt8} {p : Program Datum} (read : ofJson? bs = some p) :
    ∀ r ∈ p.records, r.Fits := by
  have records (depth : Nat) (old : List (Record Datum)) (fits : ∀ r ∈ old, r.Fits) :
      Json.Gives (fun rs => ∀ r ∈ rs, r.Fits) (readJsonRecords depth old) :=
    Json.gives_list (fun _ => Record.gives_readJson _) Record.fits_blank fits
  have none : ∀ r ∈ ([] : List (Record Datum)), r.Fits := nofun
  have gives (isList : Bool) : Json.Gives (fun p => ∀ r ∈ p.records, r.Fits) (readJson isList) := by
    apply Json.Gives.last
    intro _
    split
    · exact (records 1 [] none).bind fun _ holds => .pure holds
    · refine Json.gives_object ?_ _ none
      intro part mem old fits
      simp only [jsonParts, List.mem_cons, List.not_mem_nil, or_false] at mem
      rcases mem with rfl | rfl
      · exact (records 2 _ fits).bind fun _ holds => .pure holds
      · exact Json.Gives.last fun _ => .pure fits
  rw [ofJson?] at read
  obtain ⟨⟨q, w⟩, run, rfl⟩ := Option.map_eq_some_iff.1 read
  exact gives _ _ _ _ run

theorem fits_of_ofCbor? {bs : List UInt8} {p : Program Datum} (read : ofCbor? bs = some p) :
    ∀ r ∈ p.records, r.Fits := by
  have none : ∀ r ∈ ([] : List (Record Datum)), r.Fits := nofun
  obtain ⟨x, -, read⟩ := Option.bind_eq_some_iff.1 read
  refine Cbor.Item.typed?_of (P := fun p : Program Datum => ∀ r ∈ p.records, r.Fits) none ?_ read
  intro x p read
  split at read
  · split_ifs at read
    simp only [ofEntries?, Option.bind_eq_bind, Option.bind_eq_some_iff, Option.pure_def, Option.some.injEq] at read
    obtain ⟨version, -, records, found, rfl⟩ := read
    exact Cbor.Item.field?_of (P := fun rs => ∀ r ∈ rs, Record.Fits r) none
      (fun x rs => Cbor.Item.list?_of fun x r => Record.fits_of_ofItem?) found
  · cases read

theorem fits_of_decode {format : Format} {bs : List UInt8} {p : Program Datum} (read : decode format bs = .ok p) :
    ∀ r ∈ p.records, r.Fits := by
  unfold decode at read
  cases format with
  | json =>
    cases found : ofJson? bs with
    | none => simp [found] at read
    | some q =>
      simp only [found, Except.ok.injEq] at read
      exact read ▸ fits_of_ofJson? found
  | cbor =>
    cases found : ofCbor? bs with
    | none => simp [found] at read
    | some q =>
      simp only [found, Except.ok.injEq] at read
      exact read ▸ fits_of_ofCbor? found

end Program

end FiberVm
