import FiberVm.Json.Object
import FiberVm.Proofs.Json.Text

/-!
# Reading written objects

The fields of a written object are found by their names, in whatever order they stand, and each turns the
value read so far into the next one.
-/

set_option autoImplicit false

namespace FiberVm.Json

variable {α β : Type}

section Names

/-- The names that fit some letters. -/
def Candidates.narrowAll (ds : List Char) (cs : Candidates β) : Candidates β :=
  ds.foldl (fun cs d => cs.narrow d) cs

/-- What a name stands for in a table. -/
def lookup (rows : List (String × β)) (name : String) : Option β :=
  ((Candidates.ofTable rows).narrowAll name.toList).choose name.length

/-- A name of nothing but letters. -/
def Letters (name : String) : Prop := name.toList.all Char.isAlpha = true

theorem narrowAll_nil (ds : List Char) : Candidates.narrowAll ds ([] : Candidates β) = [] := by
  induction ds with
  | nil => rfl
  | cons d ds ih => exact ih

theorem isAlpha_cases {c : Char} (alpha : c.isAlpha = true) :
    0x41 ≤ c.toNat ∧ c.toNat < 0x80 ∧ c ≠ '\\' := by
  have range : (0x41 ≤ c.toNat ∧ c.toNat ≤ 0x5A) ∨ (0x61 ≤ c.toNat ∧ c.toNat ≤ 0x7A) := by
    rcases Bool.or_eq_true_iff.1 (show (c.isUpper || c.isLower) = true from alpha) with upper | lower
    · exact .inl (of_decide_eq_true upper)
    · have both : (decide (c.val ≥ 'a'.val) && decide (c.val ≤ 'z'.val)) = true := lower
      rw [Bool.and_eq_true, decide_eq_true_eq, decide_eq_true_eq] at both
      exact .inr both
  refine ⟨by omega, by omega, ?_⟩
  rintro rfl
  revert alpha
  decide

theorem takes_nameFrom {ds cs : List Char} (letters : ∀ d ∈ ds, d.isAlpha = true) {cands : Candidates β}
    (fit : cands.narrowAll ds ≠ []) {fuel : Nat} (enough : ds.length < fuel) (length : Nat) :
    Takes (On (ds ++ '"' :: cs)) (nameFrom fuel cands length)
      ((cands.narrowAll ds).choose (length + ds.length)) (On cs) := by
  induction ds generalizing cands fuel length with
  | nil =>
    obtain ⟨fuel, rfl⟩ := Nat.exists_eq_succ_of_ne_zero (by omega : fuel ≠ 0)
    exact (takes_peek (by decide)).bind ((takes_pass (by decide)).bind (Takes.pure _))
  | cons d ds ih =>
    obtain ⟨fuel, rfl⟩ := Nat.exists_eq_succ_of_ne_zero (by omega : fuel ≠ 0)
    obtain ⟨low, small, slash⟩ := isAlpha_cases (letters d List.mem_cons_self)
    have some : (cands.narrow d).isEmpty = false := by
      cases none : (cands.narrow d).isEmpty with
      | false => rfl
      | true =>
        rw [Candidates.narrowAll, List.foldl_cons, List.isEmpty_iff.1 none] at fit
        exact absurd (narrowAll_nil ds) fit
    refine (takes_peek small).bind ?_
    simp only
    split
    · exact absurd low (by decide)
    · exact absurd low (by decide)
    · exact absurd rfl slash
    · rw [some]
      refine (takes_pass small).bind ?_
      have rest := ih (fun e mem => letters e (List.mem_cons_of_mem d mem)) fit (by simpa using enough) (length + 1)
      rw [List.length_cons, Nat.add_comm ds.length 1, ← Nat.add_assoc]
      exact rest

theorem quoted_letters {name : String} (letters : Letters name) : quoted name = '"' :: (name.toList ++ ['"']) := by
  have each : name.toList.flatMap escaped = name.toList := by
    have plain : ∀ c ∈ name.toList, escaped c = [c] := by
      intro c mem
      obtain ⟨low, small, slash⟩ := isAlpha_cases (List.all_eq_true.1 letters c mem)
      rcases escaped_cases c with ⟨e, -, -, -, stands⟩ | ⟨-, known⟩ | ⟨written, -⟩
      · exfalso
        unfold escape? at stands
        split at stands <;> cases stands <;> first | exact slash rfl | exact absurd low (by decide)
      · exfalso
        simp only [coded, List.mem_append, List.mem_range, List.mem_cons, List.not_mem_nil, or_false] at known
        omega
      · exact written
    rw [List.flatMap_congr plain, List.flatMap_singleton']
  rw [quoted, each]
  rfl

theorem takes_name {rows : List (String × β)} {name : String} {x : β} (letters : Letters name)
    (found : lookup rows name = some x) {blanks cs : List Char} (blank : ∀ b ∈ blanks, isBlank b = true) :
    Takes (On (blanks ++ (quoted name ++ cs))) (Json.name rows) (some x) (On cs) := by
  have text : quoted name ++ cs = '"' :: (name.toList ++ '"' :: cs) := by simp [quoted_letters letters]
  have fit : (Candidates.ofTable rows).narrowAll name.toList ≠ [] := by
    intro none
    rw [lookup, none] at found
    cases found
  rw [text]
  refine (takes_next (by decide) (by decide) blank).bind ((takes_pass (by decide)).bind ?_)
  apply Takes.get
  intro w on
  have budget := on.budget
  simp only [List.length_append] at budget
  have chosen : ((Candidates.ofTable rows).narrowAll name.toList).choose (0 + name.toList.length) = some x := by
    rw [Nat.zero_add, String.length_toList]
    exact found
  rw [← chosen]
  exact takes_nameFrom (List.all_eq_true.1 letters) fit (by omega) 0

end Names

section Fields

/-- The fields turn one value into another: each has a name of the table, whose reader takes its text. -/
inductive Fill (parts : Parts α) : List (List Char) → α → α → Prop
  | nil (x : α) : Fill parts [] x x
  | cons {name : String} {value : List Char} {fields : List (List Char)} {read : α → Reader α} {x y z : α}
    (letters : Letters name) (found : lookup parts name = some read) (written : Written (read x) value y)
    (rest : Fill parts fields y z) : Fill parts (fieldText name value :: fields) x z

variable {parts : Parts α} {items : List (List Char)} {x y z : α}

theorem Fill.append {others : List (List Char)} (first : Fill parts items x y) (second : Fill parts others y z) :
    Fill parts (items ++ others) x z := by
  induction first with
  | nil => exact second
  | cons letters found written _ ih => exact .cons letters found written (ih second)

theorem Fill.visible (fill : Fill parts items x y) : ∀ item ∈ items, item ≠ [] ∧ '\x00' ∉ item := by
  induction fill with
  | nil => nofun
  | @cons name value items read x y z letters found written rest ih =>
    intro item mem
    rcases List.mem_cons.1 mem with rfl | mem
    · have value := written.nonzero
      have name := nonzero_quoted name
      refine ⟨by simp [fieldText, quoted], ?_⟩
      simp [fieldText, name, value]
    · exact ih item mem

theorem takes_field {name : String} {value cs : List Char} {read : α → Reader α} (letters : Letters name)
    (found : lookup parts name = some read) (written : Written (read x) value y) {d : Char} (delimits : Delimits d)
    {blanks : List Char} (blank : ∀ b ∈ blanks, isBlank b = true) {next : α → Reader β} {z : β} {Q : Window → Prop}
    (rest : Takes (On (d :: cs)) (next y) z Q) (room : Nat) :
    Takes (On (blanks ++ (fieldText name value ++ d :: cs))) (do
      release
      let part ← Json.name parts
      colon
      let x ←
        match part with
        | some read => read x
        | none => skipValue room *> pure x
      next x) z Q := by
  have text : fieldText name value ++ d :: cs = quoted name ++ (':' :: ([' '] ++ (value ++ d :: cs))) := by
    simp [fieldText]
  rw [text]
  refine takes_release.bind ((takes_name letters found blank).bind ?_)
  refine ((takes_here (by decide) (by decide)).bind (takes_pass (by decide))).bind ?_
  exact (written.reads [' '] d cs (List.forall_mem_singleton.2 rfl) delimits).bind rest

theorem takes_fields {level outer : Nat} (fill : Fill parts items x y) (some : items ≠ []) {cs : List Char}
    {fuel : Nat} (enough : items.length ≤ fuel) {blanks : List Char} (blank : ∀ b ∈ blanks, isBlank b = true)
    (room : Nat) :
    Takes (On (blanks ++ (rows level items ++ (newline outer ++ '}' :: cs)))) (fields room parts fuel x) y (On cs) := by
  induction fill generalizing fuel blanks with
  | nil => exact absurd rfl some
  | @cons name value items read x y z letters found written rest ih =>
    obtain ⟨fuel, rfl⟩ := Nat.exists_eq_succ_of_ne_zero (by simp at enough; omega : fuel ≠ 0)
    cases items with
    | nil =>
      cases rest
      refine takes_field letters found written (.inr rfl) blank ?_ room
      refine (takes_next (by decide) (by decide) fun b mem => isBlank_newline mem).bind ?_
      exact (takes_pass (by decide)).bind (Takes.pure y)
    | cons second items =>
      rw [rows, List.append_assoc, List.cons_append]
      refine takes_field letters found written (.inl rfl) blank ?_ room
      refine (takes_here (by decide) (by decide)).bind ((takes_pass (by decide)).bind ?_)
      rw [List.append_assoc]
      exact ih (by simp) (by simpa using enough) fun b mem => isBlank_newline mem

theorem Fill.starts (fill : Fill parts items x y) (some : items ≠ []) (level : Nat) :
    ∃ cs, rows level items = '"' :: cs := by
  cases fill with
  | nil => exact absurd rfl some
  | @cons name value items read x y z letters found written rest =>
    obtain ⟨tail, split⟩ := rows_cons level (fieldText name value) items
    exact ⟨_, split⟩

theorem takes_object (level room : Nat) (fill : Fill parts items x y) (some : items ≠ []) {blanks rest : List Char}
    (blank : ∀ b ∈ blanks, isBlank b = true) :
    Takes (On (blanks ++ (objectText level items ++ rest))) (object room parts x) y (On rest) := by
  have inside : Takes (On (rows (level + 1) items ++ (newline level ++ '}' :: rest)))
      (get >>= fun w => fields room parts w.budget x) y (On rest) := by
    apply Takes.get
    intro w on
    have budget := on.budget
    have short := length_le_rows (level + 1) fun item mem => (fill.visible item mem).1
    simp only [List.length_append] at budget
    have none : ∀ b ∈ ([] : List Char), isBlank b = true := nofun
    exact takes_fields fill some (by omega) none room
  have text : objectText level items ++ rest
      = '{' :: (newline (level + 1) ++ (rows (level + 1) items ++ (newline level ++ '}' :: rest))) := by
    simp [objectText, lines_eq _ some]
  obtain ⟨cs, starts⟩ := fill.starts some (level + 1)
  rw [starts] at inside
  rw [text, starts]
  apply takes_orNull (by decide) (by decide) (by decide) blank
  refine Takes.bind ((takes_here (by decide) (by decide)).imp (fun _ => At.on) fun _ => id) ?_
  refine (takes_pass (by decide)).bind ?_
  refine (takes_next (by decide) (by decide) fun b mem => isBlank_newline mem).bind ?_
  exact inside.imp (fun _ => At.on) fun _ => id

theorem nonzero_objectText (level : Nat) (fill : Fill parts items x y) (some : items ≠ []) :
    '\x00' ∉ objectText level items := by
  have all := nonzero_rows (level + 1) fun item mem => (fill.visible item mem).2
  rw [objectText, lines_eq _ some]
  simpa [nonzero_newline] using all

theorem written_object (level room : Nat) (fill : Fill parts items x y) (some : items ≠ []) :
    Written (object room parts x) (objectText level items) y := by
  constructor
  · exact ⟨'{', _, rfl, by decide, by decide, by decide, by decide⟩
  · exact nonzero_objectText level fill some
  · intro blanks d rest blank delimits
    exact takes_object level room fill some blank

end Fields

end FiberVm.Json
