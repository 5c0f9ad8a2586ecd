import FiberVm.Json.Value
import FiberVm.Proofs.Json.Text

/-!
# Reading written constants

What a reader of any value makes of a written text, truth value or integer. An integer keeps its spelling,
which stands for that integer.
-/

set_option autoImplicit false

namespace FiberVm

section Spelling

theorem Text.digitValue?_isDigit {c : Char} (digit : c.isDigit = true) :
    digitValue? c = some (c.toNat - '0'.toNat) ∧ c.toNat - '0'.toNat < 10 := by
  simp only [Char.isDigit, Bool.and_eq_true, decide_eq_true_eq, ge_iff_le] at digit
  have high : c.toNat ≤ 57 := UInt32.le_iff_toNat_le.1 digit.2
  refine ⟨if_pos digit, ?_⟩
  change c.toNat - 48 < 10
  omega

theorem Text.magnitude_digits {ds : List Char} (digits : ∀ d ∈ ds, d.isDigit = true) {n : Nat}
    (fits : Nat.ofDigitChars 10 ds n < 0x10000000000000000) :
    magnitude 10 false n ds = .ok (Nat.ofDigitChars 10 ds n) := by
  induction ds generalizing n with
  | nil => rfl
  | cons d ds ih =>
    obtain ⟨value, small⟩ := digitValue?_isDigit (digits d List.mem_cons_self)
    rw [Nat.ofDigitChars_cons, Nat.mul_comm] at fits ⊢
    have grows : n * 10 + (d.toNat - '0'.toNat) ≤ Nat.ofDigitChars 10 ds (n * 10 + (d.toNat - '0'.toNat)) := by
      rw [Nat.ofDigitChars_eq_ofDigitChars_zero]
      have := Nat.le_mul_of_pos_left (n * 10 + (d.toNat - '0'.toNat)) (Nat.pow_pos (by decide) : 0 < 10 ^ ds.length)
      omega
    have inside : ¬ 10 ≤ d.toNat - '0'.toNat := by omega
    have short : ¬ 0x10000000000000000 ≤ n * 10 + (d.toNat - '0'.toNat) := by omega
    simp only [magnitude, Bool.false_and, Bool.false_eq_true, if_false, value, inside, short]
    exact ih (fun e mem => digits e (List.mem_cons_of_mem d mem)) fits

theorem Text.splitSign_toDigits (n : Nat) : splitSign (Nat.toDigits 10 n) = (false, Nat.toDigits 10 n) := by
  unfold splitSign
  split
  next cs written =>
    cases Json.isDigit_toDigits (written ▸ List.mem_cons_self : '-' ∈ Nat.toDigits 10 n)
  next cs written =>
    cases Json.isDigit_toDigits (written ▸ List.mem_cons_self : '+' ∈ Nat.toDigits 10 n)
  next => rfl

theorem Text.splitSign_integerText (n : Int) :
    splitSign (Json.integerText n) = (decide (n < 0), Nat.toDigits 10 n.natAbs) := by
  rw [Json.integerText_eq]
  by_cases negative : n < 0
  · rw [if_pos negative, decide_eq_true negative]
    rfl
  · rw [if_neg negative, decide_eq_false negative, splitSign_toDigits]

theorem Text.decimal_integerText (n : Int64) : decimal (Json.integerText n.toInt) = .ok n.toInt := by
  have low := n.le_toInt
  have high := n.toInt_lt
  have some : (Nat.toDigits 10 n.toInt.natAbs).isEmpty = false := by simp [Nat.toDigits_ne_nil]
  have value := magnitude_digits (n := 0) (fun d mem => Json.isDigit_toDigits mem)
    (lt_of_eq_of_lt (Nat.ofDigitChars_ten_toDigits (n := n.toInt.natAbs)) (by omega))
  rw [Nat.ofDigitChars_ten_toDigits] at value
  rw [decimal, splitSign_integerText]
  simp only [some, Bool.false_eq_true, if_false, value]
  change signed (decide (n.toInt < 0)) n.toInt.natAbs = _
  unfold signed
  split_ifs with negative small small
  · simp only [decide_eq_true_eq] at negative
    rw [show -(n.toInt.natAbs : Int) = n.toInt by omega]
  · omega
  · simp only [decide_eq_true_eq] at negative
    rw [show (n.toInt.natAbs : Int) = n.toInt by omega]
  · simp only [decide_eq_true_eq] at negative
    omega

theorem Decimal.isNumber_integerText (n : Int64) : isNumber (Json.integerText n.toInt) = true := by
  have low := n.le_toInt
  have high := n.toInt_lt
  have all : ∀ d ∈ Nat.toDigits 10 n.toInt.natAbs, d.isDigit = true := fun d mem => Json.isDigit_toDigits mem
  have whole := List.takeWhile_eq_self_iff.2 all
  have rest := List.dropWhile_eq_nil_iff.2 all
  have width : (Nat.toDigits 10 n.toInt.natAbs).length ≤ 20 := by
    rw [Nat.length_toDigits_le_iff (by decide) (by decide)]
    omega
  have spelled : Literal.ofSpelling? (Nat.toDigits 10 n.toInt.natAbs) = some ⟨n.toInt.natAbs, 0⟩ := by
    simp [Literal.ofSpelling?, whole, rest, exponentOf?, Nat.ofDigitChars_ten_toDigits, Nat.toDigits_ne_nil]
  have narrow : ((Nat.toDigits 10 n.toInt.natAbs).length : Int) + 0 < 300 := by omega
  rw [isNumber, Text.splitSign_integerText, spelled]
  exact if_pos (.inr narrow)

end Spelling

namespace Json

theorem takes_value {c : Char} {cs : List Char} {x : Datum} {Q : Window → Prop} (room : Nat) (small : c.toNat < 0x80)
    (solid : isBlank c = false) (noObject : c ≠ '{') (noList : c ≠ '[') {blanks : List Char}
    (blank : ∀ b ∈ blanks, isBlank b = true) (reads : Takes (At (c :: cs)) (scalar c) x Q) :
    Takes (On (blanks ++ c :: cs)) (value room) x Q := by
  cases room with
  | zero => exact (takes_next small solid blank).bind reads
  | succ room =>
    apply (takes_next small solid blank).bind
    simpa only using reads

theorem scalar_digit {c : Char} (digit : c.isDigit = true) : scalar c = numeral := by
  unfold scalar
  split
  · cases digit
  · cases digit
  · cases digit
  · cases digit
  · rw [digit, Bool.or_true, if_pos rfl]

theorem written_value_text {s : String} (plain : ∀ c ∈ s.toList, c.toNat < 0x80) (room : Nat) :
    Written (value room) (quoted s) (.text s) := by
  refine ⟨(written_text s).starts, nonzero_quoted s, ?_⟩
  intro blanks d rest blank delimits
  have none : ∀ b ∈ ([] : List Char), isBlank b = true := nofun
  have reads : Takes (On (quoted s ++ d :: rest)) (textBytes true) (Text.bytesOf s.toList) (On (d :: rest)) :=
    takes_textBytes (fun _ => plain) none
  apply takes_value room (by decide) (by decide) (by decide) (by decide) blank
  refine Takes.bind (reads.imp (fun _ => At.on) fun _ => id) ?_
  rw [Text.ofUtf8_bytesOf, String.ofList_toList]
  exact Takes.pure _

theorem written_value_bool (b : Bool) (room : Nat) :
    Written (value room) (if b then "true".toList else "false".toList) (.bool b) := by
  cases b with
  | true =>
    refine ⟨⟨'t', _, rfl, by decide, by decide, by decide, by decide⟩, by decide, ?_⟩
    intro blanks d rest blank delimits
    apply takes_value room (by decide) (by decide) (by decide) (by decide) blank
    exact (takes_word (small_of_all (by decide))).bind (Takes.pure _)
  | false =>
    refine ⟨⟨'f', _, rfl, by decide, by decide, by decide, by decide⟩, by decide, ?_⟩
    intro blanks d rest blank delimits
    apply takes_value room (by decide) (by decide) (by decide) (by decide) blank
    exact (takes_word (small_of_all (by decide))).bind (Takes.pure _)

theorem isNumeral_integerText {n : Int} {c : Char} (mem : c ∈ integerText n) :
    isNumeral c = true ∧ c.toNat < 0x80 := by
  rw [integerText_eq] at mem
  have digits : ∀ {d : Char}, d ∈ Nat.toDigits 10 n.natAbs → isNumeral d = true ∧ d.toNat < 0x80 := by
    intro d mem
    have digit := isDigit_toDigits mem
    exact ⟨by simp [isNumeral, digit], small_of_isDigit digit⟩
  split_ifs at mem
  · rcases List.mem_cons.1 mem with rfl | mem
    · decide
    · exact digits mem
  · exact digits mem

theorem written_value_integer (n : Int64) (room : Nat) :
    Written (value room) (integerText n.toInt) (.numeral (String.ofList (integerText n.toInt))) := by
  refine ⟨(written_integer n).starts, nonzero_integerText n.toInt, ?_⟩
  intro blanks d rest blank delimits
  have number := Decimal.isNumber_integerText n
  have stops : isNumeral d = false := by
    rcases delimits with rfl | rfl <;> decide
  have reads : Takes (On (integerText n.toInt ++ d :: rest)) numeral
      (.numeral (String.ofList (integerText n.toInt))) (On (d :: rest)) := by
    refine (takes_run delimits.small stops fun c mem => isNumeral_integerText mem).bind ?_
    simp only [number, Bool.not_true, Bool.false_eq_true, if_false]
    exact Takes.bind (takes_release.imp (fun _ => At.on) fun _ => id) (Takes.pure _)
  obtain ⟨c, cs, written, start⟩ := head_integerText n.toInt
  rw [written] at reads ⊢
  rcases start with rfl | digit
  · apply takes_value room (by decide) (by decide) (by decide) (by decide) blank
    exact reads.imp (fun _ => At.on) fun _ => id
  · refine takes_value room (small_of_isDigit digit) (not_blank_of_isDigit digit) ?_ ?_ blank ?_
    · rintro rfl
      cases digit
    · rintro rfl
      cases digit
    · rw [scalar_digit digit]
      exact reads.imp (fun _ => At.on) fun _ => id

end Json

end FiberVm
