import Mathlib.Data.List.Forall2
import FiberVm.Json.Layout
import FiberVm.Json.Reader
import FiberVm.Proofs.Json.Window
import FiberVm.Proofs.Text.Utf8

/-!
# Reading written JSON

What the readers of tokens, integers and lists give on text that was written, and how much of it they leave.
The window is spoken of by the characters that are still to be read; most of them are single bytes.
-/

set_option autoImplicit false

namespace FiberVm.Json

variable {α β : Type}

/-- From every window that satisfies `P` the reader gives `x` and leaves a window that satisfies `Q`. -/
def Takes (P : Window → Prop) (r : Reader α) (x : α) (Q : Window → Prop) : Prop :=
  ∀ w, P w → ∃ w', r w = some (x, w') ∧ Q w'

/-- The characters are still to be read. -/
def On (cs : List Char) : Window → Prop := Window.Shows (Text.bytesOf cs)

/-- The characters are still to be read, and the first of them is in view. -/
def At (cs : List Char) : Window → Prop := Window.Faces (Text.bytesOf cs)

namespace Takes

variable {P P' Q Q' R : Window → Prop} {r : Reader α} {x : α}

theorem bind {f : α → Reader β} {y : β} (first : Takes P r x Q) (second : Takes Q (f x) y R) :
    Takes P (r >>= f) y R := by
  intro w before
  obtain ⟨w', read, between⟩ := first w before
  obtain ⟨w'', rest, after⟩ := second w' between
  refine ⟨w'', ?_, after⟩
  change (r w >>= fun p => f p.1 p.2) = _
  rw [read]
  exact rest

theorem pure (x : α) : Takes P (Pure.pure x) x P := fun w before => ⟨w, rfl, before⟩

theorem imp (takes : Takes P r x Q) (weaker : ∀ w, P' w → P w) (stronger : ∀ w, Q w → Q' w) :
    Takes P' r x Q' := by
  intro w before
  obtain ⟨w', read, after⟩ := takes w (weaker w before)
  exact ⟨w', read, stronger w' after⟩

theorem modify {f : Window → Window} (moves : ∀ w, P w → Q (f w)) : Takes P (modify f) () Q :=
  fun w before => ⟨f w, rfl, moves w before⟩

theorem get {f : Window → Reader α} (takes : ∀ w, P w → Takes P (f w) x Q) :
    Takes P (MonadState.get >>= f) x Q := by
  intro w before
  obtain ⟨w', read, after⟩ := takes w before w before
  exact ⟨w', read, after⟩

end Takes

section Tokens

variable {c : Char} {cs : List Char} {w : Window}

theorem At.on (at_ : At cs w) : On cs w := Window.Faces.shows at_

theorem On.budget (on : On cs w) : cs.length < w.budget := by
  obtain ⟨front, gap, views⟩ := on
  have := views.budget
  have := Text.length_le_bytesOf cs
  omega

theorem takes_peek_byte (b : UInt8) (bs : List UInt8) :
    Takes (Window.Shows (b :: bs)) peek (Char.ofUInt8 b) (Window.Faces (b :: bs)) := by
  intro w shows
  refine ⟨w.settle, ?_, shows.settle⟩
  change some (Char.ofUInt8 w.settle.byte, w.settle) = _
  rw [shows.settle.byte]

theorem takes_peek (small : c.toNat < 0x80) : Takes (On (c :: cs)) peek c (At (c :: cs)) := by
  obtain ⟨b, written, back⟩ := Text.utf8EncodeChar_small small
  unfold On At
  rw [Text.bytesOf_cons, written]
  exact back ▸ takes_peek_byte b _

theorem takes_pass (small : c.toNat < 0x80) : Takes (At (c :: cs)) pass () (On cs) := by
  obtain ⟨b, written, -⟩ := Text.utf8EncodeChar_small small
  apply Takes.modify
  intro w at_
  unfold At at at_
  rw [Text.bytesOf_cons, written] at at_
  exact at_.advance

theorem takes_release : Takes (On cs) release () (On cs) :=
  Takes.modify fun _ on => on.release

theorem isBlank_iff {c : Char} : isBlank c = true ↔ c = ' ' ∨ c = '\t' ∨ c = '\n' ∨ c = '\r' := by
  simp only [isBlank, Bool.or_eq_true, beq_iff_eq, or_assoc]

theorem takes_skipBlank (small : c.toNat < 0x80) (solid : isBlank c = false) {blanks : List Char}
    (blank : ∀ b ∈ blanks, isBlank b = true) {fuel : Nat} (enough : blanks.length < fuel) :
    Takes (On (blanks ++ c :: cs)) (skipBlank fuel) c (At (c :: cs)) := by
  induction fuel generalizing blanks with
  | zero => omega
  | succ fuel ih =>
    cases blanks with
    | nil =>
      apply (takes_peek small).bind
      simpa [solid] using Takes.pure c
    | cons b blanks =>
      have here : isBlank b = true := blank b List.mem_cons_self
      have narrow : b.toNat < 0x80 := by
        rcases isBlank_iff.1 here with rfl | rfl | rfl | rfl <;> decide
      apply (takes_peek narrow).bind
      rw [if_pos here]
      apply (takes_pass narrow).bind
      exact ih (fun d mem => blank d (List.mem_cons_of_mem b mem)) (by simpa using enough)

theorem takes_next (small : c.toNat < 0x80) (solid : isBlank c = false) {blanks : List Char}
    (blank : ∀ b ∈ blanks, isBlank b = true) : Takes (On (blanks ++ c :: cs)) next c (At (c :: cs)) := by
  apply Takes.get
  intro w on
  apply takes_skipBlank small solid blank
  have := on.budget
  simp only [List.length_append, List.length_cons] at this
  omega

theorem takes_here (small : c.toNat < 0x80) (solid : isBlank c = false) : Takes (On (c :: cs)) next c (At (c :: cs)) :=
  @takes_next c cs small solid [] nofun

theorem takes_runFrom {p : Char → Bool} (small : c.toNat < 0x80) (other : p c = false) {ds : List Char}
    (each : ∀ d ∈ ds, p d = true ∧ d.toNat < 0x80) {fuel : Nat} (enough : ds.length < fuel) (seen : List Char) :
    Takes (On (ds ++ c :: cs)) (runFrom p fuel seen) (seen.reverse ++ ds) (At (c :: cs)) := by
  induction fuel generalizing ds seen with
  | zero => omega
  | succ fuel ih =>
    cases ds with
    | nil =>
      apply (takes_peek small).bind
      simpa [other] using Takes.pure seen.reverse
    | cons d ds =>
      obtain ⟨here, narrow⟩ := each d List.mem_cons_self
      apply (takes_peek narrow).bind
      rw [if_pos here]
      apply (takes_pass narrow).bind
      have rest := ih (fun e mem => each e (List.mem_cons_of_mem d mem)) (by simpa using enough) (d :: seen)
      simpa using rest

theorem takes_run {p : Char → Bool} (small : c.toNat < 0x80) (other : p c = false) {ds : List Char}
    (each : ∀ d ∈ ds, p d = true ∧ d.toNat < 0x80) : Takes (On (ds ++ c :: cs)) (run p) ds (At (c :: cs)) := by
  apply Takes.get
  intro w on
  have := on.budget
  simp only [List.length_append, List.length_cons] at this
  simpa using takes_runFrom small other each (by omega) []

theorem takes_letter {a : Char} (first : a.toNat < 0x80) (small : c.toNat < 0x80) :
    Takes (At (a :: c :: cs)) (letter c) () (At (c :: cs)) := by
  apply (takes_pass first).bind
  obtain ⟨b, written, back⟩ := Text.utf8EncodeChar_small small
  intro w on
  unfold On at on
  rw [Text.bytesOf_cons, written] at on
  unfold At
  rw [Text.bytesOf_cons, written]
  change ∃ w', (if w.look = c then Pure.pure () else if w.look = '\x00' then more else failure : Reader Unit) w
    = some ((), w') ∧ _
  rcases on.byte_cases with faces | ⟨zero, w', refilled, faces⟩
  · refine ⟨w, ?_, faces⟩
    rw [if_pos (by rw [Window.look, faces.byte, back])]
    rfl
  · refine ⟨w', ?_, faces⟩
    have empty : w.look = '\x00' := by
      rw [Window.look, zero]
      rfl
    have apart : w.look ≠ c := by
      rw [empty, ← back]
      intro same
      apply on.ne_zero
      exact UInt8.toNat_inj.1 (congrArg Char.toNat same).symm
    rw [if_neg apart, if_pos empty]
    simp [more, refilled]

theorem takes_letters {a : Char} {letters : List Char} (small : ∀ b ∈ a :: letters, b.toNat < 0x80) :
    ∃ b, b.toNat < 0x80 ∧ Takes (At (a :: letters ++ cs)) (letters.forM letter) () (At (b :: cs)) := by
  induction letters generalizing a with
  | nil => exact ⟨a, small a List.mem_cons_self, Takes.pure ()⟩
  | cons b letters ih =>
    obtain ⟨last, narrow, rest⟩ := ih fun d mem => small d (List.mem_cons_of_mem a mem)
    refine ⟨last, narrow, ?_⟩
    exact (takes_letter (small a List.mem_cons_self) (small b (by simp))).bind rest

theorem small_of_all {cs : List Char} (all : cs.all (fun c => c.toNat < 0x80) = true) : ∀ c ∈ cs, c.toNat < 0x80 := by
  intro c mem
  exact of_decide_eq_true (List.all_eq_true.1 all c mem)

theorem takes_word {a : Char} {letters : List Char} (small : ∀ b ∈ a :: letters, b.toNat < 0x80) :
    Takes (At (a :: letters ++ cs)) (word letters) () (On cs) := by
  obtain ⟨b, narrow, letters⟩ := takes_letters small
  exact letters.bind (takes_pass narrow)

theorem takes_orNull {r : Reader α} {old x : α} {Q : Window → Prop} (small : c.toNat < 0x80)
    (solid : isBlank c = false) (other : c ≠ 'n') {blanks : List Char} (blank : ∀ b ∈ blanks, isBlank b = true)
    (reads : Takes (At (c :: cs)) r x Q) : Takes (On (blanks ++ c :: cs)) (orNull old r) x Q := by
  apply (takes_next small solid blank).bind
  rw [if_neg other]
  exact reads

end Tokens

section Integers

theorem integerText_eq (n : Int) :
    integerText n = if n < 0 then '-' :: Nat.toDigits 10 n.natAbs else Nat.toDigits 10 n.natAbs := by
  cases n with
  | ofNat m =>
    have sign : ¬ Int.ofNat m < 0 := Int.not_lt.2 (Int.natCast_nonneg m)
    change (Nat.repr m).toList = _
    rw [if_neg sign, Nat.toList_repr]
    rfl
  | negSucc m =>
    change ("-" ++ Nat.repr (m + 1)).toList = _
    rw [if_pos (Int.negSucc_lt_zero m), String.toList_append, Nat.toList_repr]
    rfl

theorem nonzero_toDigits (n : Nat) : '\x00' ∉ Nat.toDigits 10 n := by
  intro mem
  cases Nat.isDigit_of_mem_toDigits (by decide) (le_refl 10) mem

theorem nonzero_integerText (n : Int) : '\x00' ∉ integerText n := by
  rw [integerText_eq]
  split_ifs
  · simpa using nonzero_toDigits n.natAbs
  · exact nonzero_toDigits n.natAbs

theorem not_blank_of_isDigit {c : Char} (digit : c.isDigit = true) : isBlank c = false := by
  apply Bool.eq_false_iff.2
  intro blank
  rcases isBlank_iff.1 blank with rfl | rfl | rfl | rfl <;> cases digit

theorem small_of_isDigit {c : Char} (digit : c.isDigit = true) : c.toNat < 0x80 := by
  simp only [Char.isDigit, Bool.and_eq_true, decide_eq_true_eq, ge_iff_le, UInt32.le_iff_toNat_le] at digit
  exact lt_of_le_of_lt digit.2 (by decide)

theorem isDigit_toDigits {n : Nat} {c : Char} (mem : c ∈ Nat.toDigits 10 n) : c.isDigit = true :=
  Nat.isDigit_of_mem_toDigits (by decide) (le_refl 10) mem

theorem head_integerText (n : Int) : ∃ c cs, integerText n = c :: cs ∧ (c = '-' ∨ c.isDigit = true) := by
  rw [integerText_eq]
  split_ifs
  · exact ⟨'-', _, rfl, .inl rfl⟩
  · obtain ⟨d, ds, written⟩ := List.exists_cons_of_ne_nil (Nat.toDigits_ne_nil (n := n.natAbs) (b := 10))
    exact ⟨d, ds, written, .inr (isDigit_toDigits (written ▸ List.mem_cons_self))⟩

/-- Only zero is written with a zero in front. -/
theorem head_toDigits {n : Nat} (nonzero : n ≠ 0) : ∃ c cs, Nat.toDigits 10 n = c :: cs ∧ c ≠ '0' := by
  induction n using Nat.strongRecOn with
  | ind n ih =>
    by_cases small : n < 10
    · have digits : ∀ n < 10, n ≠ 0 → n.digitChar ≠ '0' := by decide
      exact ⟨_, [], Nat.toDigits_of_lt_base small, digits n small nonzero⟩
    · obtain ⟨c, cs, written, apart⟩ := ih (n / 10) (by omega) (by omega)
      rw [Nat.toDigits_of_base_le (by decide) (by omega), written]
      exact ⟨c, _, rfl, apart⟩

theorem integerOf_toDigits (n : Int64) :
    integerOf (decide (n.toInt < 0)) (Nat.toDigits 10 n.toInt.natAbs) = some n.toInt := by
  have low := n.le_toInt
  have high := n.toInt_lt
  have length : (Nat.toDigits 10 n.toInt.natAbs).length ≤ maxDigits := by
    rw [Nat.length_toDigits_le_iff (by decide) (by decide), maxDigits]
    omega
  have sign : (if decide (n.toInt < 0) = true then -(n.toInt.natAbs : Int) else n.toInt.natAbs) = n.toInt := by
    by_cases negative : n.toInt < 0
    · rw [if_pos (decide_eq_true negative)]
      omega
    · rw [if_neg (by simpa only [decide_eq_true_eq] using negative)]
      omega
  simp only [integerOf, Nat.ofDigitChars_ten_toDigits, sign, Int64.ofInt_toInt]
  rw [if_neg]
  simpa [Nat.toDigits_ne_nil] using length

theorem takes_lift {P : Window → Prop} {o : Option α} {x : α} (same : o = some x) :
    Takes P (liftM o : Reader α) x P := by
  subst same
  exact fun w before => ⟨w, rfl, before⟩

theorem takes_digits {c : Char} {cs : List Char} (small : c.toNat < 0x80) (other : c.isDigit = false) (n : Nat) :
    Takes (On (Nat.toDigits 10 n ++ c :: cs)) (run Char.isDigit) (Nat.toDigits 10 n) (At (c :: cs)) :=
  takes_run small other fun _ mem => ⟨isDigit_toDigits mem, small_of_isDigit (isDigit_toDigits mem)⟩

theorem takes_integer (n : Int64) {c : Char} {cs : List Char} (small : c.toNat < 0x80)
    (other : c.isDigit = false) {blanks : List Char} (blank : ∀ b ∈ blanks, isBlank b = true) :
    Takes (On (blanks ++ (integerText n.toInt ++ c :: cs))) integer n.toInt (On (c :: cs)) := by
  have value := integerOf_toDigits n
  have finish : Takes (On (c :: cs)) (release >>= fun _ => Pure.pure n.toInt) n.toInt (On (c :: cs)) :=
    takes_release.bind (Takes.pure _)
  have settled := finish.imp (fun _ => At.on) fun _ => id
  rw [integerText_eq]
  by_cases negative : n.toInt < 0
  · rw [if_pos negative, List.cons_append]
    rw [decide_eq_true negative] at value
    apply (takes_next (by decide) (by decide) blank).bind
    apply (takes_pass (by decide)).bind
    apply (takes_digits small other _).bind
    exact (takes_lift value).bind settled
  · rw [if_neg negative]
    rw [decide_eq_false negative] at value
    by_cases zero : n.toInt = 0
    · rw [zero] at finish ⊢
      apply (takes_next (by decide) (by decide) blank).bind
      apply (takes_pass (by decide)).bind
      exact (Takes.pure 0).bind finish
    · obtain ⟨d, ds, written, nonzero⟩ := head_toDigits (by omega : n.toInt.natAbs ≠ 0)
      have digit := isDigit_toDigits (written ▸ List.mem_cons_self : d ∈ Nat.toDigits 10 n.toInt.natAbs)
      have read : Takes (At (Nat.toDigits 10 n.toInt.natAbs ++ c :: cs)) (run Char.isDigit >>= fun ds =>
          liftM (integerOf false ds) >>= fun n => release >>= fun _ => Pure.pure n) n.toInt (On (c :: cs)) := by
        refine Takes.bind ((takes_digits small other _).imp (fun _ => At.on) fun _ => id) ?_
        exact (takes_lift value).bind settled
      rw [written, List.cons_append] at read ⊢
      apply (takes_next (small_of_isDigit digit) (not_blank_of_isDigit digit) blank).bind
      simp only
      split
      · cases digit
      · exact absurd rfl nonzero
      · exact read

end Integers

section Values

/-- The characters that follow a value. -/
def Delimits (c : Char) : Prop := c = ',' ∨ c = '\n'

theorem Delimits.small {c : Char} (delimits : Delimits c) : c.toNat < 0x80 := by
  rcases delimits with rfl | rfl <;> decide

/-- The reader takes a text for a value, with any blank space in front of it and a delimiter behind. -/
structure Written (read : Reader α) (text : List Char) (x : α) : Prop where
  starts : ∃ c cs, text = c :: cs ∧ c.toNat < 0x80 ∧ isBlank c = false ∧ c ≠ ']' ∧ c ≠ 'n'
  nonzero : '\x00' ∉ text
  reads : ∀ blanks d rest, (∀ b ∈ blanks, isBlank b = true) → Delimits d →
    Takes (On (blanks ++ (text ++ d :: rest))) read x (On (d :: rest))

theorem Written.orNull {read : Reader α} {text : List Char} {x : α} (written : Written read text x) (old : α) :
    Written (orNull old read) text x := by
  refine ⟨written.starts, written.nonzero, ?_⟩
  intro blanks d rest blank delimits
  obtain ⟨c, cs, same, small, solid, -, other⟩ := written.starts
  have inside := written.reads [] d rest (by simp) delimits
  rw [same] at inside ⊢
  exact takes_orNull small solid other blank (inside.imp (fun _ => At.on) fun _ => id)

theorem written_integer (n : Int64) : Written integer (integerText n.toInt) n.toInt := by
  constructor
  · obtain ⟨c, cs, written, start⟩ := head_integerText n.toInt
    refine ⟨c, cs, written, ?_⟩
    rcases start with rfl | digit
    · decide
    · refine ⟨small_of_isDigit digit, not_blank_of_isDigit digit, ?_, ?_⟩ <;> rintro rfl <;> cases digit
  · exact nonzero_integerText n.toInt
  · intro blanks d rest blank delimits
    apply takes_integer n delimits.small ?_ blank
    rcases delimits with rfl | rfl <;> decide

/-- Items on lines of their own, with commas between them, from the first item on. -/
def rows (level : Nat) : List (List Char) → List Char
  | [] => []
  | [item] => item
  | item :: next :: items => item ++ ',' :: (newline level ++ rows level (next :: items))

theorem lines_eq (level : Nat) {items : List (List Char)} (some : items ≠ []) :
    lines level items = newline level ++ rows level items := by
  induction items with
  | nil => exact absurd rfl some
  | cons item items ih =>
    cases items with
    | nil => simp [lines, rows, List.intercalate]
    | cons next items =>
      have rest := ih (by simp)
      simp only [lines, rows, List.intercalate, List.map_cons] at rest ⊢
      simp [rest]

theorem length_le_rows (level : Nat) {items : List (List Char)} (some : ∀ item ∈ items, item ≠ []) :
    items.length ≤ (rows level items).length := by
  fun_induction rows level items with
  | case1 => exact Nat.zero_le _
  | case2 item => simpa [Nat.one_le_iff_ne_zero] using some
  | case3 item next items ih =>
    have rest := ih fun item mem => some item (List.mem_cons_of_mem _ mem)
    simp only [List.length_append, List.length_cons] at rest ⊢
    omega

theorem nonzero_newline (level : Nat) : '\x00' ∉ newline level := by simp [newline]

theorem nonzero_rows (level : Nat) {items : List (List Char)} (each : ∀ item ∈ items, '\x00' ∉ item) :
    '\x00' ∉ rows level items := by
  have line := nonzero_newline level
  fun_induction rows level items with
  | case1 => exact List.not_mem_nil
  | case2 item => exact each item List.mem_cons_self
  | case3 item next items ih =>
    have rest := ih fun item mem => each item (List.mem_cons_of_mem _ mem)
    simpa [each item List.mem_cons_self, line] using rest

theorem isBlank_newline {level : Nat} {c : Char} (mem : c ∈ newline level) : isBlank c = true := by
  simp only [newline, List.mem_cons, List.mem_replicate] at mem
  rcases mem with rfl | ⟨-, rfl⟩ <;> decide

theorem Written.ne_nil {read : Reader α} {text : List Char} {x : α} (written : Written read text x) : text ≠ [] := by
  obtain ⟨c, cs, rfl, -⟩ := written.starts
  exact List.cons_ne_nil c cs

/-- The members of a list on lines of their own, up to the closing bracket. -/
theorem takes_members {read : α → Reader α} {zero : α} {level outer : Nat} {items : List (List Char)} {xs : List α}
    (each : List.Forall₂ (Written (read zero)) items xs) (some : items ≠ []) {cs : List Char} {fuel : Nat}
    (enough : items.length ≤ fuel) (seen : List α) {blanks : List Char} (blank : ∀ b ∈ blanks, isBlank b = true) :
    Takes (On (blanks ++ (rows level items ++ (newline outer ++ ']' :: cs)))) (members read zero fuel [] seen)
      (seen.reverse ++ xs) (On cs) := by
  induction each generalizing fuel seen blanks with
  | nil => exact absurd rfl some
  | @cons item x items xs first rest ih =>
    obtain ⟨fuel, rfl⟩ := Nat.exists_eq_succ_of_ne_zero (by simp at enough; omega : fuel ≠ 0)
    cases rest with
    | nil =>
      refine (first.reads blanks '\n' _ blank (.inr rfl)).bind ?_
      refine (takes_next (by decide) (by decide) (fun b mem => isBlank_newline mem)).bind ?_
      exact (takes_pass (by decide)).bind (by simpa using Takes.pure _)
    | cons second rest =>
      rw [rows, List.append_assoc, List.cons_append]
      refine (first.reads blanks ',' _ blank (.inl rfl)).bind ?_
      refine (takes_here (by decide) (by decide)).bind ?_
      refine (takes_pass (by decide)).bind ?_
      rw [List.append_assoc]
      simpa using ih (by simp) (by simpa using enough) (x :: seen) fun b mem => isBlank_newline mem

theorem exists_written {read : Reader α} {items : List (List Char)} {xs : List α}
    (each : List.Forall₂ (Written read) items xs) : ∀ item ∈ items, ∃ x, Written read item x := by
  induction each with
  | nil => nofun
  | cons first rest ih =>
    intro item mem
    rcases List.mem_cons.1 mem with rfl | mem
    · exact ⟨_, first⟩
    · exact ih item mem

theorem rows_cons (level : Nat) (item : List Char) (items : List (List Char)) :
    ∃ rest, rows level (item :: items) = item ++ rest := by
  cases items with
  | nil => exact ⟨[], by simp [rows]⟩
  | cons next items => exact ⟨_, rfl⟩

theorem written_list {read : α → Reader α} {zero : α} {items : List (List Char)} {xs : List α} (level : Nat)
    (each : List.Forall₂ (Written (read zero)) items xs) :
    Written (list read zero []) (listText level items) xs := by
  apply Written.orNull
  constructor
  · unfold listText
    split_ifs
    · exact ⟨'[', _, rfl, by decide, by decide, by decide, by decide⟩
    · exact ⟨'[', _, rfl, by decide, by decide, by decide, by decide⟩
  · have all := nonzero_rows (level + 1) fun item mem => (exists_written each item mem).choose_spec.nonzero
    unfold listText
    split_ifs with none
    · decide
    · rw [lines_eq _ (by simpa using none)]
      simpa [nonzero_newline] using all
  · intro blanks d rest blank delimits
    cases each with
    | nil =>
      refine (takes_next (by decide) (by decide) blank).bind ?_
      refine (takes_pass (by decide)).bind ?_
      refine (takes_here (by decide) (by decide)).bind ?_
      exact (takes_pass (by decide)).bind (Takes.pure [])
    | @cons item x items xs first others =>
      have each := List.Forall₂.cons first others
      have inside : Takes (On (rows (level + 1) (item :: items) ++ (newline level ++ ']' :: d :: rest)))
          (get >>= fun w => members read zero w.budget [] []) (x :: xs) (On (d :: rest)) := by
        apply Takes.get
        intro w on
        have := on.budget
        have := length_le_rows (level + 1) fun item mem => (exists_written each item mem).choose_spec.ne_nil
        simp only [List.length_append] at *
        exact @takes_members _ read zero _ _ _ _ each (by simp) _ _ (by omega) [] [] nofun
      obtain ⟨c, cs, same, small, solid, closing, -⟩ := first.starts
      obtain ⟨tail, split⟩ := rows_cons (level + 1) item items
      have text : listText level (item :: items) ++ d :: rest = '[' :: (newline (level + 1)
          ++ (rows (level + 1) (item :: items) ++ (newline level ++ ']' :: d :: rest))) := by
        simp [listText, lines_eq]
      rw [split, same] at inside
      rw [text, split, same]
      refine (takes_next (by decide) (by decide) blank).bind ?_
      refine (takes_pass (by decide)).bind ?_
      refine (takes_next small solid fun b mem => isBlank_newline mem).bind ?_
      rw [if_neg closing]
      exact inside.imp (fun _ => At.on) fun _ => id

end Values

end FiberVm.Json
