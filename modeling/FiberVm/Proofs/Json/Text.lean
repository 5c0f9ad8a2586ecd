import FiberVm.Json.Unquoted
import FiberVm.Proofs.Json.Reader

/-!
# Reading written texts

A text that was written between quotes is read back, whichever of its characters were escaped and wherever
the window has to be refilled: an escape by code is not read before all its digits are in view, and a
character of several bytes not before the last of them is.
-/

set_option autoImplicit false

namespace FiberVm.Json

section Characters

variable {c : Char} {cs : List Char} {Q : Window → Prop} {bs seen : List UInt8} {fuel : Nat}

/-- Only bytes in view are decoded: those of a character that is cut off are not taken for a whole one. -/
theorem isShort_eq {w : Window} {rest front : List UInt8} {gap : Nat}
    (views : w.Views (String.utf8EncodeChar c ++ rest) front gap) (some : 1 ≤ front.length) :
    (!Text.isWhole (w.ahead.take 5).dropLast) = decide (front.length < c.utf8Size) := by
  have size := String.length_utf8EncodeChar c
  have most := c.utf8Size_le_four
  by_cases cut : front.length < c.utf8Size
  · have taken : front = (String.utf8EncodeChar c).take front.length := by
      have := congrArg (List.take front.length) views.input
      rw [List.take_append_of_le_length (by omega), List.take_left] at this
      exact this.symm
    have more : w.rest ≠ [] := by
      intro none
      have := congrArg List.length views.input
      simp only [none, List.append_nil, List.length_append] at this
      omega
    obtain ⟨rfl, -⟩ | ⟨rfl, -⟩ := views.more more
    · have seen : (w.ahead.take 5).dropLast = front := by
        rw [views.ahead, List.take_of_length_le (by simp; omega)]
        exact List.dropLast_concat
      have partial_ : Text.isWhole front = false := taken ▸ Text.isWhole_take some cut
      rw [seen, partial_, decide_eq_true cut]
      rfl
    · simp at some
  · have split := views.front_eq (by omega)
    have whole : (w.ahead.take 5).dropLast = String.utf8EncodeChar c
        ++ ((front.drop c.utf8Size ++ List.replicate (gap + 1) 0).take (5 - c.utf8Size)).dropLast := by
      rw [views.ahead]
      nth_rewrite 1 [split]
      rw [List.append_assoc, List.take_append, size, List.take_of_length_le (by omega)]
      apply List.dropLast_append_of_ne_nil
      apply List.ne_nil_of_length_pos
      simp only [List.length_take, List.length_append, List.length_replicate]
      omega
    rw [whole, Text.isWhole_append, decide_eq_false cut]
    rfl

theorem takes_wideChar (cs : List Char) : Takes (At (c :: cs)) wideChar c (On cs) := by
  have size := String.length_utf8EncodeChar c
  refine Takes.bind (x := ()) (Q := Window.InView c.utf8Size (String.utf8EncodeChar c ++ Text.bytesOf cs)) ?_ ?_
  · apply Takes.modify
    rintro w ⟨front, gap, some, views⟩
    rw [Text.bytesOf_cons] at views
    have budget := views.budget
    have enough : c.utf8Size ≤ w.budget + front.length := by
      simp only [List.length_append] at budget
      omega
    obtain ⟨front', gap', views', reached, -⟩ := views.refillWhile (by simp) (fun _ _ _ => isShort_eq) enough
      (List.length_pos_iff.2 some)
    exact ⟨front', gap', reached, views'⟩
  · apply Takes.get
    rintro w ⟨front, gap, reached, views⟩
    have short := isShort_eq views (le_trans c.utf8Size_pos reached)
    rw [decide_eq_false (Nat.not_lt.2 reached)] at short
    obtain ⟨rest, ahead⟩ := views.ahead_eq (by omega)
    simp only [short, Bool.false_eq_true, if_false]
    rw [ahead, Text.firstChar_append]
    refine Takes.bind (x := ()) (Q := On cs) ?_ (Takes.pure c)
    apply Takes.modify
    rintro w ⟨front, gap, reached, views⟩
    have passed := views.replace (by omega) (le_refl _)
    rwa [size] at passed

end Characters

section Escapes

variable {c : Char} {cs : List Char}

theorem takes_substitute {xs : List UInt8} (narrow : c.utf8Size - 1 ≤ xs.length) :
    Takes (Window.InView xs.length (xs ++ Text.bytesOf cs)) (substitute xs.length c) c (On cs) := by
  refine Takes.bind (x := ()) (Q := On cs) ?_ (Takes.pure c)
  apply Takes.modify
  rintro w ⟨front, gap, reached, views⟩
  exact views.replace reached narrow

/-- The characters that are escaped by code. -/
def coded : List Nat := List.range 0x20 ++ [0x26, 0x3C, 0x3E, 0x2028, 0x2029]

/-- The value of some hexadecimal digits. -/
def unitOf (bs : List UInt8) : Nat := bs.foldl (fun n b => n * 16 + hexValue (Char.ofUInt8 b)) 0

theorem hexDigits_coded : ∀ n ∈ coded, (Text.bytesOf (Text.hexDigits 4 n)).length = 4
    ∧ unitOf (Text.bytesOf (Text.hexDigits 4 n)) = n ∧ isSurrogate n = false := by
  decide +kernel

theorem escaped_cases (c : Char) :
    (∃ e, escaped c = ['\\', e] ∧ e.toNat < 0x80 ∧ e ≠ 'u' ∧ escape? e = some c)
    ∨ (escaped c = '\\' :: 'u' :: Text.hexDigits 4 c.toNat ∧ c.toNat ∈ coded)
    ∨ (escaped c = [c] ∧ 0x20 ≤ c.toNat ∧ c ≠ '"' ∧ c ≠ '\\') := by
  unfold escaped
  split
  · exact .inl ⟨'"', rfl, by decide, by decide, rfl⟩
  · exact .inl ⟨'\\', rfl, by decide, by decide, rfl⟩
  · exact .inl ⟨'n', rfl, by decide, by decide, rfl⟩
  · exact .inl ⟨'r', rfl, by decide, by decide, rfl⟩
  · exact .inl ⟨'t', rfl, by decide, by decide, rfl⟩
  · exact .inr (.inl ⟨rfl, by decide⟩)
  · exact .inr (.inl ⟨rfl, by decide⟩)
  · exact .inr (.inl ⟨rfl, by decide⟩)
  · exact .inr (.inl ⟨rfl, by decide +kernel⟩)
  · exact .inr (.inl ⟨rfl, by decide +kernel⟩)
  · split_ifs with control
    · refine .inr (.inl ⟨rfl, List.mem_append_left _ (List.mem_range.2 control)⟩)
    · refine .inr (.inr ⟨rfl, by omega, ?_, ?_⟩) <;> rintro rfl
      · simp_all
      · simp_all

theorem takes_codeEscape (known : c.toNat ∈ coded) (some : cs ≠ []) :
    Takes (At ('u' :: (Text.hexDigits 4 c.toNat ++ cs))) codeEscape c (On cs) := by
  obtain ⟨length, value, single⟩ := hexDigits_coded _ known
  let xs : List UInt8 := 0x75 :: Text.bytesOf (Text.hexDigits 4 c.toNat)
  have five : xs.length = 5 := by simp [xs, length]
  have text : Text.bytesOf ('u' :: (Text.hexDigits 4 c.toNat ++ cs)) = xs ++ Text.bytesOf cs := by
    rw [Text.bytesOf_cons, Text.bytesOf_append]
    rfl
  refine Takes.bind (x := ()) (Q := Window.InView 6 (xs ++ Text.bytesOf cs)) ?_ ?_
  · apply Takes.modify
    intro w at_
    unfold At at at_
    rw [text] at at_
    apply at_.shows.reach
    have := Text.length_le_bytesOf cs
    have := List.length_pos_iff.2 some
    rw [List.length_append, five]
    omega
  · apply Takes.get
    rintro w ⟨front, gap, reached, views⟩
    have fresh : ¬ w.fresh ≤ 5 := by
      rw [views.fresh]
      omega
    obtain ⟨rest, ahead⟩ := views.ahead_eq (by omega)
    have unit : unitAt 1 w = c.toNat := by
      rw [unitAt, ahead]
      change unitOf ((Text.bytesOf (Text.hexDigits 4 c.toNat) ++ rest).take 4) = _
      rw [List.take_left' length, value]
    simp only [fresh, if_false, unit, single, Bool.not_false, if_true, Char.ofNat_toNat]
    have most := c.utf8Size_le_four
    have done : Takes _ (substitute xs.length c) c (On cs) := takes_substitute (by omega)
    rw [five] at done
    apply done.imp ?_ fun _ => id
    rintro w ⟨front, gap, reached, views⟩
    exact ⟨front, gap, by omega, views⟩

theorem takes_escape {e : Char} (small : e.toNat < 0x80) (other : e ≠ 'u') (stands : escape? e = some c) :
    Takes (At ('\\' :: e :: cs)) escape c (On cs) := by
  refine (takes_pass (by decide)).bind ((takes_peek small).bind ?_)
  split
  · exact absurd rfl other
  · refine (takes_lift stands).bind ?_
    obtain ⟨b, written, -⟩ := Text.utf8EncodeChar_small small
    have single : c.utf8Size - 1 ≤ [b].length := by
      change c.utf8Size - 1 ≤ 1
      unfold escape? at stands
      split at stands <;> cases stands <;> decide
    apply (takes_substitute single).imp ?_ fun _ => id
    rintro w ⟨front, gap, some, views⟩
    rw [Text.bytesOf_cons, written] at views
    exact ⟨front, gap, List.length_pos_iff.2 some, views⟩

theorem takes_escapeCode (known : c.toNat ∈ coded) (some : cs ≠ []) :
    Takes (At ('\\' :: 'u' :: (Text.hexDigits 4 c.toNat ++ cs))) escape c (On cs) :=
  (takes_pass (by decide)).bind ((takes_peek (by decide)).bind (takes_codeEscape known some))

end Escapes

section Texts

variable {c : Char} {cs : List Char} {exact : Bool}

/-- One character of a text is read as what it was written for. -/
theorem takes_textFrom_cons (plain : exact = true → c.toNat < 0x80) (some : cs ≠ []) {fuel : Nat}
    {seen bs : List UInt8} {Q : Window → Prop}
    (rest : Takes (On cs) (textFrom exact fuel ((String.utf8EncodeChar c).reverse ++ seen)) bs Q) :
    Takes (On (escaped c ++ cs)) (textFrom exact (fuel + 1) seen) bs Q := by
  rcases escaped_cases c with ⟨e, written, small, other, stands⟩ | ⟨written, known⟩ | ⟨written, visible, quote, slash⟩
  · rw [written]
    exact (takes_peek (by decide)).bind ((takes_escape small other stands).bind rest)
  · rw [written]
    exact (takes_peek (by decide)).bind ((takes_escapeCode known some).bind rest)
  · rw [written]
    by_cases small : c.toNat < 0x80
    · obtain ⟨b, single, back⟩ := Text.utf8EncodeChar_small small
      have byte : c.toNat.toUInt8 = b := by
        rw [← back]
        exact UInt8.ofNat_toNat
      refine (takes_peek small).bind ?_
      simp only
      split
      · exact absurd rfl quote
      · exact absurd rfl slash
      · simp at visible
      · rw [if_pos (by simp [small])]
        rw [single] at rest
        exact (takes_pass small).bind (byte ▸ rest)
    · obtain ⟨b, bs, first, high⟩ := Text.utf8EncodeChar_wide small
      have inexact : exact = false := by
        cases exact with
        | false => rfl
        | true => exact absurd (plain rfl) small
      have start := takes_peek_byte b (bs ++ Text.bytesOf cs)
      rw [← List.cons_append, ← first] at start
      refine start.bind ?_
      have code : (Char.ofUInt8 b).toNat = b.toNat := rfl
      generalize Char.ofUInt8 b = d at code
      have wide : ¬ d.toNat < 0x80 := by omega
      simp only
      split
      · exact absurd (by decide) wide
      · exact absurd (by decide) wide
      · exact absurd (by decide) wide
      · rw [if_neg (by simp [wide, inexact])]
        exact (takes_wideChar cs).bind rest

theorem takes_textFrom (plain : exact = true → ∀ c ∈ cs, c.toNat < 0x80) {ds : List Char} {fuel : Nat}
    (enough : cs.length < fuel) (seen : List UInt8) :
    Takes (On (cs.flatMap escaped ++ '"' :: ds)) (textFrom exact fuel seen) (seen.reverse ++ Text.bytesOf cs)
      (On ds) := by
  induction cs generalizing fuel seen with
  | nil =>
    obtain ⟨fuel, rfl⟩ := Nat.exists_eq_succ_of_ne_zero (by omega : fuel ≠ 0)
    refine (takes_peek (by decide)).bind ((takes_pass (by decide)).bind ?_)
    simpa using Takes.pure seen.reverse
  | cons c cs ih =>
    obtain ⟨fuel, rfl⟩ := Nat.exists_eq_succ_of_ne_zero (by omega : fuel ≠ 0)
    rw [List.flatMap_cons, List.append_assoc]
    apply takes_textFrom_cons (fun ex => plain ex c List.mem_cons_self) (by simp)
    have rest := ih (fun ex d mem => plain ex d (List.mem_cons_of_mem c mem)) (by simpa using enough)
      ((String.utf8EncodeChar c).reverse ++ seen)
    simpa using rest

theorem length_le_escaped (cs : List Char) : cs.length ≤ (cs.flatMap escaped).length := by
  induction cs with
  | nil => exact Nat.le_refl 0
  | cons c cs ih =>
    have some : 0 < (escaped c).length := by
      rcases escaped_cases c with ⟨e, written, -⟩ | ⟨written, -⟩ | ⟨written, -⟩ <;> simp [written]
    rw [List.flatMap_cons, List.length_append, List.length_cons]
    omega

theorem takes_textBytes {s : String} (plain : exact = true → ∀ c ∈ s.toList, c.toNat < 0x80) {blanks ds : List Char}
    (blank : ∀ b ∈ blanks, isBlank b = true) :
    Takes (On (blanks ++ (quoted s ++ ds))) (textBytes exact) (Text.bytesOf s.toList) (On ds) := by
  have text : quoted s ++ ds = '"' :: (s.toList.flatMap escaped ++ '"' :: ds) := by simp [quoted]
  rw [text]
  refine (takes_next (by decide) (by decide) blank).bind ((takes_pass (by decide)).bind ?_)
  apply Takes.get
  intro w on
  have budget := on.budget
  have long := length_le_escaped s.toList
  simp only [List.length_append, List.length_cons] at budget
  simpa using takes_textFrom plain (by omega) []

theorem nonzero_quoted (s : String) : '\x00' ∉ quoted s := by
  have codes : ∀ n ∈ coded, '\x00' ∉ Text.hexDigits 4 n := by decide +kernel
  have each : ∀ c, '\x00' ∉ escaped c := by
    intro c
    rcases escaped_cases c with ⟨e, written, -, -, stands⟩ | ⟨written, known⟩ | ⟨written, visible, -⟩ <;> rw [written]
    · unfold escape? at stands
      split at stands <;> cases stands <;> decide
    · simpa using codes c.toNat known
    · rw [List.mem_singleton]
      rintro rfl
      simp at visible
  simpa [quoted] using fun c _ => each c

theorem written_text (s : String) : Written text (quoted s) s := by
  constructor
  · exact ⟨'"', _, rfl, by decide, by decide, by decide, by decide⟩
  · exact nonzero_quoted s
  · intro blanks d rest blank delimits
    refine (takes_textBytes (fun no => by cases no) blank).bind (takes_release.bind ?_)
    rw [Text.ofUtf8_bytesOf, String.ofList_toList]
    exact Takes.pure s

end Texts

end FiberVm.Json
