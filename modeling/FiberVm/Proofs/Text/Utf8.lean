import Mathlib.Tactic.SplitIfs
import Mathlib.Tactic.ByContra
import FiberVm.Text.Blank

/-!
# Text and its bytes

The bytes of a text give it back, the bytes of one character are recognised at the front of any others, and
bytes that a window cuts off inside a character are not taken for a whole one.
-/

set_option autoImplicit false

namespace FiberVm.Text

def bytesOf (cs : List Char) : List UInt8 := cs.flatMap String.utf8EncodeChar

@[simp] theorem bytesOf_nil : bytesOf [] = [] := rfl

@[simp] theorem bytesOf_cons (c : Char) (cs : List Char) :
    bytesOf (c :: cs) = String.utf8EncodeChar c ++ bytesOf cs := rfl

@[simp] theorem bytesOf_append (cs ds : List Char) : bytesOf (cs ++ ds) = bytesOf cs ++ bytesOf ds :=
  List.flatMap_append

theorem utf8_eq (s : String) : utf8 s = bytesOf s.toList := by
  rw [utf8, String.toUTF8, ← String.utf8Encode_toList, List.utf8Encode, List.toList_data_toByteArray, bytesOf]

theorem fromUTF8?_bytesOf (cs : List Char) :
    String.fromUTF8? (bytesOf cs).toByteArray = some (String.ofList cs) := by
  have valid : (bytesOf cs).toByteArray.IsValidUTF8 := .intro cs rfl
  rw [String.fromUTF8?, dif_pos valid]
  rfl

theorem fromUTF8?_utf8 (s : String) : String.fromUTF8? (utf8 s).toByteArray = some s := by
  rw [utf8_eq, fromUTF8?_bytesOf, String.ofList_toList]

theorem ofUtf8_bytesOf (cs : List Char) : ofUtf8 (bytesOf cs) = String.ofList cs := by
  rw [ofUtf8, fromUTF8?_bytesOf]

theorem length_utf8 (s : String) : (utf8 s).length = s.utf8ByteSize := rfl

section FirstCharacter

theorem char?_eq_some_iff {width : Nat} {bs : List UInt8} {c : Char} :
    char? width bs = some c ↔ bs.take width = String.utf8EncodeChar c := by
  constructor
  · intro found
    unfold char? at found
    split at found
    · rename_i s read
      split at found
      · rename_i single
        obtain ⟨d, whole⟩ := List.length_eq_one_iff.1 single
        obtain rfl : d = c := by simpa [whole] using found
        have same : s.toByteArray = (bs.take width).toByteArray := by
          unfold String.fromUTF8? at read
          split at read
          · cases read
            rfl
          · cases read
        rw [← String.utf8Encode_toList, whole, List.utf8Encode_singleton] at same
        exact (List.toByteArray_inj.1 same).symm
      · cases found
    · cases found
  · intro same
    have read := fromUTF8?_bytesOf [c]
    simp only [bytesOf_cons, bytesOf_nil, List.append_nil] at read
    simp [char?, same, read]

/-- No character is written as the beginning of another one. -/
theorem utf8EncodeChar_inj_append {c d : Char} {xs ys : List UInt8}
    (same : String.utf8EncodeChar c ++ xs = String.utf8EncodeChar d ++ ys) : c = d := by
  have first := ByteArray.utf8DecodeChar?_utf8EncodeChar_append (b := xs.toByteArray) (c := c)
  have second := ByteArray.utf8DecodeChar?_utf8EncodeChar_append (b := ys.toByteArray) (c := d)
  rw [← List.toByteArray_append] at first second
  rw [same, second] at first
  exact (Option.some.inj first).symm

theorem firstChar?_append (c : Char) (rest : List UInt8) :
    firstChar? (String.utf8EncodeChar c ++ rest) = some (c, c.utf8Size) := by
  have size := String.length_utf8EncodeChar c
  have here : char? c.utf8Size (String.utf8EncodeChar c ++ rest) = some c :=
    char?_eq_some_iff.2 (by rw [← size, List.take_left])
  have shorter (width : Nat) (less : width < c.utf8Size) :
      char? width (String.utf8EncodeChar c ++ rest) = none := by
    cases found : char? width (String.utf8EncodeChar c ++ rest) with
    | none => rfl
    | some d =>
      have taken := char?_eq_some_iff.1 found
      have whole : String.utf8EncodeChar d ++ (String.utf8EncodeChar c ++ rest).drop width
          = String.utf8EncodeChar c ++ rest := by
        rw [← taken, List.take_append_drop]
      obtain rfl : d = c := utf8EncodeChar_inj_append whole
      have := congrArg List.length taken
      rw [List.length_take_of_le (by simp; omega), size] at this
      omega
  rcases Char.utf8Size_eq c with h | h | h | h <;> rw [h] at here shorter ⊢ <;>
    simp [firstChar?, here, shorter]

theorem firstChar_append (c : Char) (rest : List UInt8) :
    firstChar (String.utf8EncodeChar c ++ rest) = (c, c.utf8Size) := by
  rw [firstChar, firstChar?_append, Option.getD_some]

theorem firstChar?_eq_some {bs : List UInt8} {c : Char} {width : Nat} (found : firstChar? bs = some (c, width)) :
    bs.take width = String.utf8EncodeChar c := by
  obtain ⟨w, -, some⟩ := List.exists_of_findSome?_eq_some found
  obtain ⟨d, read, same⟩ := Option.map_eq_some_iff.1 some
  cases same
  exact char?_eq_some_iff.1 read

end FirstCharacter

section Widths

/-- How many bytes a character takes is told by its first byte. -/
theorem lead_cases (c : Char) :
    (∃ b, String.utf8EncodeChar c = [b] ∧ b.toNat < 0x80 ∧ b.toNat = c.toNat)
    ∨ (∃ b d, String.utf8EncodeChar c = [b, d] ∧ 0xC2 ≤ b.toNat ∧ b.toNat < 0xE0
      ∧ 0x80 ≤ d.toNat ∧ d.toNat ≤ 0xBF)
    ∨ (∃ b d e, String.utf8EncodeChar c = [b, d, e] ∧ 0xE0 ≤ b.toNat ∧ b.toNat < 0xF0
      ∧ 0x80 ≤ d.toNat ∧ d.toNat ≤ 0xBF ∧ (b.toNat = 0xE0 → 0xA0 ≤ d.toNat)
      ∧ (b.toNat = 0xED → d.toNat ≤ 0x9F) ∧ 0x80 ≤ e.toNat ∧ e.toNat ≤ 0xBF)
    ∨ (∃ b d e f, String.utf8EncodeChar c = [b, d, e, f] ∧ 0xF0 ≤ b.toNat ∧ b.toNat ≤ 0xF4
      ∧ 0x80 ≤ d.toNat ∧ d.toNat ≤ 0xBF ∧ (b.toNat = 0xF0 → 0x90 ≤ d.toNat)
      ∧ (b.toNat = 0xF4 → d.toNat ≤ 0x8F) ∧ 0x80 ≤ e.toNat ∧ e.toNat ≤ 0xBF
      ∧ 0x80 ≤ f.toNat ∧ f.toNat ≤ 0xBF) := by
  have valid : c.toNat < 0xD800 ∨ (0xDFFF < c.toNat ∧ c.toNat < 0x110000) := c.valid
  have same : c.val.toNat = c.toNat := rfl
  unfold String.utf8EncodeChar
  simp only [same]
  split
  · refine .inl ⟨_, rfl, ?_⟩
    simp only [UInt8.toNat_ofNat']
    omega
  split
  · refine .inr (.inl ⟨_, _, rfl, ?_⟩)
    simp only [UInt8.toNat_ofNat']
    omega
  split
  · refine .inr (.inr (.inl ⟨_, _, _, rfl, ?_⟩))
    simp only [UInt8.toNat_ofNat']
    omega
  · refine .inr (.inr (.inr ⟨_, _, _, _, rfl, ?_⟩))
    simp only [UInt8.toNat_ofNat']
    omega

/-- A byte below 128 stands for a character alone. -/
theorem eq_singleton_of_mem {c : Char} {b : UInt8} (mem : b ∈ String.utf8EncodeChar c) (small : b.toNat < 0x80) :
    String.utf8EncodeChar c = [b] ∧ b.toNat = c.toNat := by
  rcases lead_cases c with ⟨d, same, -, code⟩ | ⟨d, e, same, h⟩ | ⟨d, e, f, same, h⟩ | ⟨d, e, f, g, same, h⟩ <;>
    rw [same] at mem <;> simp only [List.mem_cons, List.not_mem_nil, or_false] at mem
  · subst mem
    exact ⟨same, code⟩
  · rcases mem with rfl | rfl <;> omega
  · rcases mem with rfl | rfl | rfl <;> omega
  · rcases mem with rfl | rfl | rfl | rfl <;> omega

theorem zero_not_mem_bytesOf {cs : List Char} (nonzero : '\x00' ∉ cs) : (0 : UInt8) ∉ bytesOf cs := by
  intro mem
  obtain ⟨c, inside, byte⟩ := List.mem_flatMap.1 mem
  obtain ⟨-, code⟩ := eq_singleton_of_mem byte (by decide)
  have same : c = '\x00' := Char.toNat_inj.1 code.symm
  exact nonzero (same ▸ inside)

theorem utf8EncodeChar_small {c : Char} (small : c.toNat < 0x80) :
    ∃ b, String.utf8EncodeChar c = [b] ∧ Char.ofUInt8 b = c := by
  rcases lead_cases c with ⟨b, same, -, code⟩ | ⟨b, d, same, h⟩ | ⟨b, d, e, same, h⟩ | ⟨b, d, e, f, same, h⟩
  · refine ⟨b, same, Char.toNat_inj.1 ?_⟩
    rw [← code]
    rfl
  all_goals
    exfalso
    have one : c.utf8Size = 1 := Char.utf8Size_eq_one_iff.2 (by
      rw [UInt32.le_iff_toNat_le]
      exact Nat.le_of_lt_succ small)
    have size := String.length_utf8EncodeChar c
    simp [same, one] at size

theorem utf8EncodeChar_wide {c : Char} (wide : ¬ c.toNat < 0x80) :
    ∃ b bs, String.utf8EncodeChar c = b :: bs ∧ 0x80 ≤ b.toNat := by
  rcases lead_cases c with ⟨b, same, h⟩ | ⟨b, d, same, h⟩ | ⟨b, d, e, same, h⟩ | ⟨b, d, e, f, same, h⟩ <;>
    exact ⟨b, _, same, by omega⟩

theorem length_le_bytesOf (cs : List Char) : cs.length ≤ (bytesOf cs).length := by
  induction cs with
  | nil => exact Nat.le_refl 0
  | cons c cs ih =>
    have := c.utf8Size_pos
    simp only [bytesOf_cons, List.length_cons, List.length_append, String.length_utf8EncodeChar]
    omega

theorem lead_one {b : UInt8} (h : b.toNat < 0xC2) : (lead b).1 = 1 := by
  simp [lead, UInt8.lt_iff_toNat_lt, h]

theorem lead_two {b : UInt8} (h : 0xC2 ≤ b.toNat ∧ b.toNat < 0xE0) : lead b = (2, 0x80, 0xBF) := by
  have first : ¬ b.toNat < 0xC2 := by omega
  have second : ¬ 0xF4 < b.toNat := by omega
  simp [lead, UInt8.lt_iff_toNat_lt, h, first, second]

theorem lead_three {b : UInt8} (h : 0xE0 ≤ b.toNat ∧ b.toNat < 0xF0) :
    lead b = (3, if b = 0xE0 then 0xA0 else 0x80, if b = 0xED then 0x9F else 0xBF) := by
  have first : ¬ b.toNat < 0xC2 := by omega
  have second : ¬ 0xF4 < b.toNat := by omega
  have third : ¬ b.toNat < 0xE0 := by omega
  simp [lead, UInt8.lt_iff_toNat_lt, h, first, second, third]

theorem lead_four {b : UInt8} (h : 0xF0 ≤ b.toNat ∧ b.toNat ≤ 0xF4) :
    lead b = (4, if b = 0xF0 then 0x90 else 0x80, if b = 0xF4 then 0x8F else 0xBF) := by
  have first : ¬ b.toNat < 0xC2 := by omega
  have second : ¬ 0xF4 < b.toNat := by omega
  have third : ¬ b.toNat < 0xE0 := by omega
  have fourth : ¬ b.toNat < 0xF0 := by omega
  simp [lead, UInt8.lt_iff_toNat_lt, first, second, third, fourth]

theorem isWhole_append (c : Char) (rest : List UInt8) : isWhole (String.utf8EncodeChar c ++ rest) = true := by
  rcases lead_cases c with ⟨b, same, h⟩ | ⟨b, d, same, h⟩ | ⟨b, d, e, same, h⟩ | ⟨b, d, e, f, same, h⟩ <;>
    rw [same]
  · have width := lead_one (b := b) (by omega)
    cases rest <;> simp [isWhole, width]
  · simp [isWhole, lead_two (b := b) (by omega)]
  · simp [isWhole, lead_three (b := b) (by omega)]
  · simp [isWhole, lead_four (b := b) (by omega)]

/-- Bytes that end inside a character are not taken for a whole one. -/
theorem isWhole_take {c : Char} {n : Nat} (some : 0 < n) (cut : n < c.utf8Size) :
    isWhole ((String.utf8EncodeChar c).take n) = false := by
  have size := String.length_utf8EncodeChar c
  rcases lead_cases c with ⟨b, same, h⟩ | ⟨b, d, same, h⟩ | ⟨b, d, e, same, h⟩ | ⟨b, d, e, f, same, h⟩ <;>
    rw [same] at size ⊢ <;> simp only [List.length_cons, List.length_nil] at size
  · omega
  · obtain rfl : n = 1 := by omega
    simp [isWhole, lead_two (b := b) (by omega)]
  · have low : ¬ d < (if b = 0xE0 then 0xA0 else 0x80) := by
      split <;> simp_all [UInt8.lt_iff_toNat_lt]
    have high : ¬ (if b = 0xED then 0x9F else 0xBF) < d := by
      split <;> simp_all [UInt8.lt_iff_toNat_lt]
    obtain rfl | rfl : n = 1 ∨ n = 2 := by omega
    · simp [isWhole, lead_three (b := b) (by omega)]
    · simp [isWhole, lead_three (b := b) (by omega), low, high]
  · have low : ¬ d < (if b = 0xF0 then 0x90 else 0x80) := by
      split <;> simp_all [UInt8.lt_iff_toNat_lt]
    have high : ¬ (if b = 0xF4 then 0x8F else 0xBF) < d := by
      split <;> simp_all [UInt8.lt_iff_toNat_lt]
    have third : ¬ e < 0x80 ∧ ¬ 0xBF < e := by
      simp only [UInt8.lt_iff_toNat_lt, UInt8.reduceToNat]
      omega
    obtain rfl | rfl | rfl : n = 1 ∨ n = 2 ∨ n = 3 := by omega
    · simp [isWhole, lead_four (b := b) (by omega)]
    · simp [isWhole, lead_four (b := b) (by omega), low, high]
    · simp [isWhole, lead_four (b := b) (by omega), low, high, third]

end Widths

section Trimming

theorem blankWidth_eq_zero_or (bs : List UInt8) :
    blankWidth bs = 0 ∨ ∃ c, isBlank c = true ∧ bs.take (blankWidth bs) = String.utf8EncodeChar c := by
  unfold blankWidth
  split
  · exact .inl rfl
  · rename_i b bs
    cases found : firstChar? (b :: bs) with
    | none => simp [firstChar, found, show isBlank '\ufffd' = false by decide +kernel]
    | some first =>
      obtain ⟨c, width⟩ := first
      cases blank : isBlank c with
      | false => simp [firstChar, found, blank]
      | true =>
        right
        refine ⟨c, blank, ?_⟩
        simpa [firstChar, found, blank] using firstChar?_eq_some found

/-- What ends in a byte below 128 that is not blank has no white space at its end. -/
theorem blankEnd_append {last : UInt8} (small : last.toNat < 0x80)
    (solid : ∀ c, c.toNat = last.toNat → isBlank c = false) {fuel : Nat} {front : List UInt8}
    (enough : front.length < fuel) (seen : Nat) : blankEnd fuel seen (front ++ [last]) = 0 := by
  induction fuel generalizing front seen with
  | zero => omega
  | succ fuel ih =>
    obtain ⟨b, bs, split⟩ := List.exists_cons_of_ne_nil (by simp : front ++ [last] ≠ [])
    have size : bs.length = front.length := by simpa using congrArg List.length split.symm
    rw [split, blankEnd_cons]
    split_ifs with none
    · cases front with
      | nil =>
        obtain rfl : bs = [] := by simpa using size
        cases fuel <;> rfl
      | cons x front =>
        obtain rfl : bs = front ++ [last] := by simpa using (List.cons.inj split).2.symm
        exact ih (by simpa using enough) 0
    · obtain ⟨c, blank, taken⟩ := (blankWidth_eq_zero_or (b :: bs)).resolve_left none
      generalize blankWidth (b :: bs) = width at none taken
      -- A blank character does not reach the last byte, which is none.
      have inside : width ≤ front.length := by
        by_contra beyond
        rw [← split, List.take_of_length_le (by simp; omega)] at taken
        have mem : last ∈ String.utf8EncodeChar c := by simp [← taken]
        have := solid c (eq_singleton_of_mem mem small).2.symm
        simp [this] at blank
      rw [← split, List.drop_append_of_le_length inside]
      exact ih (by simp; omega) _

theorem trimUtf8_eq {first last : UInt8} {bs : List UInt8} (starts : bs.head? = some first)
    (ends : bs.getLast? = some last) (small : first.toNat < 0x80 ∧ last.toNat < 0x80)
    (solid : ∀ c, c.toNat = first.toNat ∨ c.toNat = last.toNat → isBlank c = false) : trimUtf8 bs = bs := by
  have front : blankWidth bs = 0 := by
    by_contra nonzero
    obtain ⟨c, blank, taken⟩ := (blankWidth_eq_zero_or bs).resolve_left nonzero
    have mem : first ∈ String.utf8EncodeChar c := by
      obtain ⟨width, same⟩ := Nat.exists_eq_succ_of_ne_zero nonzero
      obtain ⟨rest, rfl⟩ := List.head?_eq_some_iff.1 starts
      rw [← taken, same]
      simp
    have := solid c (.inl (eq_singleton_of_mem mem small.1).2.symm)
    simp [this] at blank
  have start (fuel : Nat) : trimStart fuel bs = bs := by
    cases fuel <;> simp [trimStart, front]
  obtain ⟨xs, rfl⟩ := List.getLast?_eq_some_iff.1 ends
  rw [trimUtf8, start, blankEnd_append small.2 (fun c same => solid c (.inr same)) (by simp)]
  exact List.take_length

end Trimming

end FiberVm.Text
