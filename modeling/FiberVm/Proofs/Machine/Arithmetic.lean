import Mathlib
import FiberVm.Proofs.Machine.Sums

/-!
# What the operators compute

The reference is arithmetic on integers and rationals: a sum, a difference, a product or a quotient rounded down is
known up to multiples of 2^64, and a word of 64 bits is the only one that is congruent to it. The remainder is that of
the division that rounds toward zero. Comparisons are those of the integers. An operator either leaves the boxed result
in place of its operands, or the operand stack is what it was.
-/

set_option autoImplicit false

namespace FiberVm

open Heap (Shows)

/-- `c` is the number `n`, up to multiples of 2^64. -/
def Wraps (c : Int64) (n : Int) : Prop := c.toInt ≡ n [ZMOD 18446744073709551616]

theorem wraps_iff {c : Int64} {n : Int} : Wraps c n ↔ c = Int64.ofInt n := by
  have spread : ∀ k : Int, (k % 18446744073709551616).bmod Int64.size = k.bmod Int64.size :=
    fun k => Int.emod_bmod k Int64.size
  constructor
  · intro wraps
    have same : c.toInt % 18446744073709551616 = n % 18446744073709551616 := wraps
    rw [← Int64.toInt_inj, Int64.toInt_ofInt, ← spread n, ← same, spread]
    exact (Int64.toInt_bmod c).symm
  · rintro rfl
    rw [Wraps, Int64.toInt_ofInt]
    exact Int.bmod_emod

section Quotient

variable {a b z : Int}

theorem floor_of_pos (pos : 0 < b) (low : b * z ≤ a) (high : a < b * z + b) : ⌊(a : ℚ) / b⌋ = z := by
  have pos : (0 : ℚ) < b := by exact_mod_cast pos
  have low : (b * z : ℚ) ≤ a := by exact_mod_cast low
  have high : (a : ℚ) < b * z + b := by exact_mod_cast high
  rw [Int.floor_eq_iff, le_div_iff₀ pos, div_lt_iff₀ pos]
  constructor
  · linarith
  · linarith

theorem floor_of_neg (neg : b < 0) (low : a ≤ b * z) (high : b * z + b < a) : ⌊(a : ℚ) / b⌋ = z := by
  have neg : (b : ℚ) < 0 := by exact_mod_cast neg
  have low : (a : ℚ) ≤ b * z := by exact_mod_cast low
  have high : (b * z + b : ℚ) < a := by exact_mod_cast high
  rw [Int.floor_eq_iff, le_div_iff_of_neg neg, div_lt_iff_of_neg neg]
  constructor
  · linarith
  · linarith

theorem tmod_small (a : Int) (nonzero : b ≠ 0) : (a.tmod b).natAbs < b.natAbs := by
  rw [Int.natAbs_tmod]
  exact Nat.mod_lt _ (Int.natAbs_pos.2 nonzero)

/-- The truncated quotient is one too large where the signs differ and the division leaves a rest. -/
theorem floor_quotient (a : Int) (nonzero : b ≠ 0) : ⌊(a : ℚ) / b⌋ =
    if a.tmod b ≠ 0 ∧ (decide (a < 0) != decide (b < 0)) then a.tdiv b - 1 else a.tdiv b := by
  have whole : b * a.tdiv b + a.tmod b = a := Int.mul_tdiv_add_tmod a b
  have small := tmod_small a nonzero
  have above : 0 ≤ a → 0 ≤ a.tmod b := Int.tmod_nonneg b
  have below : a ≤ 0 → a.tmod b ≤ 0 := by
    intro le
    have flipped := Int.tmod_nonneg b (Int.neg_nonneg_of_nonpos le)
    rw [Int.neg_tmod] at flipped
    omega
  have less : b * (a.tdiv b - 1) = b * a.tdiv b - b := by ring
  generalize a.tdiv b = t at *
  generalize a.tmod b = r at *
  split
  · next differ =>
    obtain ⟨rest, signs⟩ := differ
    simp only [bne_iff_ne, ne_eq, decide_eq_decide] at signs
    rcases lt_or_gt_of_ne nonzero with neg | pos
    · apply floor_of_neg neg <;> omega
    · apply floor_of_pos pos <;> omega
  · next agree =>
    simp only [bne_iff_ne, ne_eq, decide_eq_decide] at agree
    rcases lt_or_gt_of_ne nonzero with neg | pos
    · apply floor_of_neg neg <;> omega
    · apply floor_of_pos pos <;> omega

end Quotient

section Words

variable {a b : Int64}

theorem toInt_ne_zero (nonzero : b ≠ 0) : b.toInt ≠ 0 := fun zero => nonzero (Int64.toInt_inj.1 zero)

theorem floorDiv_eq (a : Int64) (nonzero : b ≠ 0) : floorDiv a b = Int64.ofInt ⌊(a.toInt : ℚ) / b.toInt⌋ := by
  have rest : a % b ≠ 0 ↔ a.toInt.tmod b.toInt ≠ 0 := by
    rw [← Int64.toInt_mod, ne_eq, ne_eq, ← Int64.toInt_inj, Int64.toInt_zero]
  have sign : ∀ x : Int64, decide (x < 0) = decide (x.toInt < 0) := fun x => decide_eq_decide.2 Int64.lt_iff_toInt_lt
  have quotient : a / b = Int64.ofInt (a.toInt.tdiv b.toInt) := by
    rw [← Int64.toInt_inj, Int64.toInt_div, Int64.toInt_ofInt]
  rw [floor_quotient a.toInt (toInt_ne_zero nonzero), floorDiv, if_congr (and_congr rest (by rw [sign, sign])) rfl rfl,
    quotient]
  split
  · rw [Int64.ofInt_sub]
    rfl
  · rfl

end Words

/-- What an operand is to an operator. The booleans are two nodes of their own. -/
inductive Operand
  | int (n : Int64)
  | bool (b : Bool)
  | other

namespace Operand

def ofNode (a : Addr) : Node → Operand
  | .int n => int n
  | _ => if a = Heap.true then bool true else if a = Heap.false then bool false else other

/-- Both are integers or both are booleans. -/
def SameKind : Operand → Operand → Prop
  | int _, int _ | bool _, bool _ => True
  | _, _ => False

/-- The value is at `a`, boxed if it is an integer. -/
def At (words : Array Word) (a : Addr) : Operand → Prop
  | int n => Shows words a (.int n)
  | bool b => a = Heap.ofBool b
  | other => False

end Operand

namespace Operator

/-- The operators whose exact result is that of the integers. -/
def arithmetic : List (Operator × (Int → Int → Int)) := [(add, (· + ·)), (sub, (· - ·)), (mul, (· * ·))]

def comparisons : List (Operator × (Int → Int → Bool)) :=
  [(lt, fun a b => decide (a < b)), (le, fun a b => decide (a ≤ b)), (gt, fun a b => decide (a > b)),
    (ge, fun a b => decide (a ≥ b)), (eq, fun a b => decide (a = b)), (ne, fun a b => decide (a ≠ b))]

def connectives : List (Operator × (Bool → Bool → Bool)) :=
  [(and, (· && ·)), (or, (· || ·)), (eq, (· == ·)), (ne, (· != ·))]

/-- The operators that are defined on two integers. -/
def onNumbers : List Operator := arithmetic.map (·.1) ++ [div, mod] ++ comparisons.map (·.1)

/-- The thirteen operators that take two operands. -/
def binaries : List Operator := onNumbers ++ [and, or]

/-- What two operands of one kind give. -/
inductive Gives (op : Operator) : Operand → Operand → Operand → Prop
  | exact {f : Int → Int → Int} {a b c : Int64} : (op, f) ∈ arithmetic → Wraps c (f a.toInt b.toInt) →
    Gives op (.int a) (.int b) (.int c)
  | quotient {a b c : Int64} : op = div → b ≠ 0 → Wraps c ⌊(a.toInt : ℚ) / b.toInt⌋ → Gives op (.int a) (.int b) (.int c)
  | remainder {a b c : Int64} : op = mod → b ≠ 0 → a.toInt = b.toInt * a.toInt.tdiv b.toInt + c.toInt →
    |c.toInt| < |b.toInt| → Gives op (.int a) (.int b) (.int c)
  | compare {f : Int → Int → Bool} {a b : Int64} : (op, f) ∈ comparisons →
    Gives op (.int a) (.int b) (.bool (f a.toInt b.toInt))
  | connect {f : Bool → Bool → Bool} {a b : Bool} : (op, f) ∈ connectives → Gives op (.bool a) (.bool b) (.bool (f a b))

/-- What one operand gives. -/
inductive GivesOne (op : Operator) : Operand → Operand → Prop
  | negative {a c : Int64} : op = neg → Wraps c (-a.toInt) → GivesOne op (.int a) (.int c)
  | negation {b : Bool} : op = not → GivesOne op (.bool b) (.bool (!b))

/-- The operands are of one kind, and the operator is none of the thirteen. -/
def Unknown (op : Operator) (p q : Operand) : Prop := p.SameKind q ∧ op ∉ binaries

/-- A unary operator on an operand of another kind. -/
def MismatchesOne (op : Operator) (p : Operand) : Prop := op = neg ∧ (∀ n, p ≠ .int n) ∨ op = not ∧ ∀ b, p ≠ .bool b

def Divides (op : Operator) (p q : Operand) : Prop := (op = div ∨ op = mod) ∧ ∃ a, p = .int a ∧ q = .int 0

/-- The operands are of different kinds or of none, or the operator is defined for the other kind only. -/
def Mismatches (op : Operator) (p q : Operand) : Prop := ¬ p.SameKind q ∨
  op ∈ binaries ∧ ((∃ a b, p = .int a ∧ q = .int b ∧ op ∉ onNumbers) ∨
    ∃ a b, p = .bool a ∧ q = .bool b ∧ op ∉ connectives.map (·.1))

end Operator

namespace OpResult

def value? : OpResult → Option Operand
  | int n => some (.int n)
  | bool b => some (.bool b)
  | fault _ => none

def kind? : OpResult → Option Kind
  | fault c => some c.kind
  | _ => none

/-- The result is the one value that is right, or a fault of the kind that says why there is none. -/
structure Meets (r : OpResult) (gives : Operand → Prop) (zero mismatch unknown : Prop) : Prop where
  value : ∀ v, gives v ↔ r.value? = some v
  zero : r.kind? = some .divisionByZero ↔ zero
  mismatch : r.kind? = some .typeMismatch ↔ mismatch
  unknown : r.kind? = some .unknownOperator ↔ unknown
  usual : ∀ k, r.kind? = some k → k = .divisionByZero ∨ k = .typeMismatch ∨ k = .unknownOperator

section

variable {r : OpResult} {gives : Operand → Prop} {zero mismatch unknown : Prop}

theorem Meets.of_value {v : Operand} (value : r.value? = some v) (right : gives v) (only : ∀ v', gives v' → v' = v)
    (zero' : ¬ zero) (mismatch' : ¬ mismatch) (unknown' : ¬ unknown) : r.Meets gives zero mismatch unknown := by
  have none : r.kind? = none := by
    cases r with
    | fault c => cases value
    | _ => rfl
  constructor
  · intro v'
    rw [value, Option.some_inj]
    exact ⟨fun given => (only v' given).symm, fun eq => eq ▸ right⟩
  · exact iff_of_false (by rw [none]; nofun) zero'
  · exact iff_of_false (by rw [none]; nofun) mismatch'
  · exact iff_of_false (by rw [none]; nofun) unknown'
  · intro k is
    rw [none] at is
    cases is

theorem Meets.of_fault {c : Cause} (nothing : ∀ v, ¬ gives v) (zero' : c.kind = .divisionByZero ↔ zero)
    (mismatch' : c.kind = .typeMismatch ↔ mismatch) (unknown' : c.kind = .unknownOperator ↔ unknown)
    (one : zero ∨ mismatch ∨ unknown) : (fault c).Meets gives zero mismatch unknown := by
  constructor
  · intro v
    exact iff_of_false (nothing v) nofun
  · exact Option.some_inj.trans zero'
  · exact Option.some_inj.trans mismatch'
  · exact Option.some_inj.trans unknown'
  · intro k is
    obtain rfl := Option.some.inj is
    exact one.imp zero'.2 (Or.imp mismatch'.2 unknown'.2)

end

end OpResult

namespace Operator

/-- No operator stands in two rows. -/
theorem keys_distinct : (arithmetic.map (·.1)).Nodup ∧ (comparisons.map (·.1)).Nodup ∧ (connectives.map (·.1)).Nodup ∧
    onNumbers.Nodup := by decide

theorem functional {α : Type} {l : List (Operator × α)} {op : Operator} {f g : α} (nodup : (l.map (·.1)).Nodup)
    (mem : (op, f) ∈ l) (mem' : (op, g) ∈ l) : f = g :=
  congrArg Prod.snd (List.inj_on_of_nodup_map nodup mem mem' rfl)

theorem isBinary_iff {op : Operator} : op.isBinary = true ↔ op ∈ binaries := by
  have rows : binaries = binaryTable.map (·.2) := rfl
  rw [rows, isBinary, List.any_eq_true, List.mem_map]
  simp only [beq_iff_eq]

def Right (op : Operator) (p q : Operand) (r : OpResult) : Prop :=
  r.Meets (op.Gives p q) (op.Divides p q) (op.Mismatches p q) (op.Unknown p q)

theorem arithmetic_apart : ∀ op ∈ arithmetic.map (·.1), op ≠ div ∧ op ≠ mod ∧ op ∉ comparisons.map (·.1) := by decide

theorem comparisons_apart : ∀ op ∈ comparisons.map (·.1), op ≠ div ∧ op ≠ mod := by decide

section Numbers

variable {op : Operator} {a b : Int64}

theorem mem_onNumbers : op ∈ onNumbers ↔
    op ∈ arithmetic.map (·.1) ∨ (op = div ∨ op = mod) ∨ op ∈ comparisons.map (·.1) := by
  simp only [onNumbers, List.mem_append, List.mem_cons, List.not_mem_nil, or_false, or_assoc]

theorem not_mismatches (mem : op ∈ onNumbers) : ¬ op.Mismatches (.int a) (.int b) := by
  rintro (differ | ⟨-, ⟨_, _, -, -, not⟩ | ⟨_, _, ⟨⟩, -⟩⟩)
  · exact differ trivial
  · exact not mem

theorem not_unknown (mem : op ∈ onNumbers) : ¬ op.Unknown (.int a) (.int b) :=
  fun unknown => unknown.2 (List.mem_append_left _ mem)

theorem not_divides (nonzero : b ≠ 0) : ¬ op.Divides (.int a) (.int b) := by
  rintro ⟨-, _, -, is⟩
  exact nonzero (Operand.int.inj is)

theorem right_exact {f : Int → Int → Int} (mem : (op, f) ∈ arithmetic) (a b : Int64) :
    op.Right (.int a) (.int b) (.int (Int64.ofInt (f a.toInt b.toInt))) := by
  have key : op ∈ arithmetic.map (·.1) := List.mem_map_of_mem mem
  have number : op ∈ onNumbers := mem_onNumbers.2 (.inl key)
  obtain ⟨notDiv, notMod, notComp⟩ := arithmetic_apart op key
  refine .of_value rfl (.exact mem (wraps_iff.2 rfl)) ?_ ?_ (not_mismatches number) (not_unknown number)
  · intro v gives
    cases gives with
    | exact mem' wraps =>
      obtain rfl := functional keys_distinct.1 mem' mem
      rw [wraps_iff.1 wraps]
    | quotient is => exact absurd is notDiv
    | remainder is => exact absurd is notMod
    | compare mem' => exact absurd (List.mem_map_of_mem mem') notComp
  · rintro ⟨is, -⟩
    exact is.elim notDiv notMod

theorem right_compare {f : Int → Int → Bool} (mem : (op, f) ∈ comparisons) (a b : Int64) :
    op.Right (.int a) (.int b) (.bool (f a.toInt b.toInt)) := by
  have key : op ∈ comparisons.map (·.1) := List.mem_map_of_mem mem
  have number : op ∈ onNumbers := mem_onNumbers.2 (.inr (.inr key))
  obtain ⟨notDiv, notMod⟩ := comparisons_apart op key
  refine .of_value rfl (.compare mem) ?_ ?_ (not_mismatches number) (not_unknown number)
  · intro v gives
    cases gives with
    | exact mem' => exact absurd key (arithmetic_apart op (List.mem_map_of_mem mem')).2.2
    | quotient is => exact absurd is notDiv
    | remainder is => exact absurd is notMod
    | compare mem' => rw [functional keys_distinct.2.1 mem' mem]
  · rintro ⟨is, -⟩
    exact is.elim notDiv notMod

/-- The quotient of the least number and -1 is a number of 65 bits, and wraps. -/
theorem right_quotient (a : Int64) (nonzero : b ≠ 0) : div.Right (.int a) (.int b) (.int (floorDiv a b)) := by
  have number : div ∈ onNumbers := mem_onNumbers.2 (.inr (.inl (.inl rfl)))
  refine .of_value rfl (.quotient rfl nonzero (wraps_iff.2 (floorDiv_eq a nonzero))) ?_ (not_divides nonzero)
    (not_mismatches number) (not_unknown number)
  intro v gives
  cases gives with
  | exact mem => exact absurd rfl (arithmetic_apart div (List.mem_map_of_mem mem)).1
  | quotient _ _ wraps => rw [wraps_iff.1 wraps, floorDiv_eq a nonzero]
  | remainder is => cases is
  | compare mem => exact absurd rfl (comparisons_apart div (List.mem_map_of_mem mem)).1

theorem right_remainder (a : Int64) (nonzero : b ≠ 0) : mod.Right (.int a) (.int b) (.int (a % b)) := by
  have number : mod ∈ onNumbers := mem_onNumbers.2 (.inr (.inl (.inr rfl)))
  have whole : b.toInt * a.toInt.tdiv b.toInt + a.toInt.tmod b.toInt = a.toInt := Int.mul_tdiv_add_tmod _ _
  refine .of_value rfl (.remainder rfl nonzero ?_ ?_) ?_ (not_divides nonzero) (not_mismatches number) (not_unknown number)
  · rw [Int64.toInt_mod, whole]
  · rw [Int64.toInt_mod, Int.abs_eq_natAbs, Int.abs_eq_natAbs]
    exact_mod_cast tmod_small a.toInt (toInt_ne_zero nonzero)
  · intro v gives
    cases gives with
    | exact mem => exact absurd rfl (arithmetic_apart mod (List.mem_map_of_mem mem)).2.1
    | quotient is => cases is
    | @remainder _ _ c _ _ rest =>
      have same : c.toInt = (a % b).toInt := by
        rw [Int64.toInt_mod]
        omega
      rw [Int64.toInt_inj.1 same]
    | compare mem => exact absurd rfl (comparisons_apart mod (List.mem_map_of_mem mem)).2

theorem right_zero (is : op = div ∨ op = mod) {c : Cause} (kind : c.kind = .divisionByZero) (a : Int64) :
    op.Right (.int a) (.int 0) (.fault c) := by
  have number : op ∈ onNumbers := mem_onNumbers.2 (.inr (.inl is))
  have divides : op.Divides (.int a) (.int 0) := ⟨is, a, rfl, rfl⟩
  refine .of_fault ?_ (iff_of_true kind divides) (iff_of_false (by rw [kind]; nofun) (not_mismatches number))
    (iff_of_false (by rw [kind]; nofun) (not_unknown number)) (.inl divides)
  intro v gives
  cases gives with
  | exact mem =>
    obtain ⟨notDiv, notMod, -⟩ := arithmetic_apart op (List.mem_map_of_mem mem)
    exact is.elim notDiv notMod
  | quotient _ nonzero => exact nonzero rfl
  | remainder _ nonzero => exact nonzero rfl
  | compare mem =>
    obtain ⟨notDiv, notMod⟩ := comparisons_apart op (List.mem_map_of_mem mem)
    exact is.elim notDiv notMod

end Numbers

/-- An operator that is not defined on the operands, which are of one kind. -/
theorem right_refusal {op : Operator} {p q : Operand} (kind : p.SameKind q) (none : ∀ v, ¬ op.Gives p q v)
    (divides : ¬ op.Divides p q) (undefined : op ∈ binaries → op.Mismatches p q) (tag : Tag) :
    op.Right p q (op.refusal tag) := by
  rw [refusal]
  by_cases binary : op ∈ binaries
  · have mismatch := undefined binary
    rw [if_pos (isBinary_iff.2 binary)]
    exact .of_fault none (iff_of_false nofun divides) (iff_of_true rfl mismatch)
      (iff_of_false nofun fun unknown => unknown.2 binary) (.inr (.inl mismatch))
  · have unknown : op.Unknown p q := ⟨kind, binary⟩
    rw [if_neg (fun is => binary (isBinary_iff.1 is))]
    refine .of_fault none (iff_of_false nofun divides) (iff_of_false nofun ?_) (iff_of_true rfl unknown)
      (.inr (.inr unknown))
    rintro (differ | ⟨mem, -⟩)
    · exact differ kind
    · exact binary mem

section Rows

variable {op : Operator} {i : Nat} {a b : Int64}

/-- An operator in row `i`, on words and not on the integers that they stand for. -/
theorem right_sum {f : Int → Int → Int} {c : Int64} (row : arithmetic[i]? = some (op, f))
    (same : Int64.ofInt (f a.toInt b.toInt) = c) : op.Right (.int a) (.int b) (.int c) :=
  same ▸ right_exact (List.mem_of_getElem? row) a b

theorem right_order {f : Int → Int → Bool} {r : Bool} (row : comparisons[i]? = some (op, f))
    (same : f a.toInt b.toInt = r) : op.Right (.int a) (.int b) (.bool r) :=
  same ▸ right_compare (List.mem_of_getElem? row) a b

end Rows

theorem onInts_refusal {op : Operator} (undefined : op ∉ onNumbers) (a b : Int64) : op.onInts a b = op.refusal .int := by
  simp only [onNumbers, arithmetic, comparisons, List.map_cons, List.map_nil, List.cons_append, List.nil_append,
    List.mem_cons, List.not_mem_nil, or_false, not_or] at undefined
  simp only [onInts, undefined, if_false]

theorem onInts_right (op : Operator) (a b : Int64) : op.Right (.int a) (.int b) (op.onInts a b) := by
  by_cases number : op ∈ onNumbers
  · simp only [onNumbers, arithmetic, comparisons, List.map_cons, List.map_nil, List.cons_append, List.nil_append,
      List.mem_cons, List.not_mem_nil, or_false] at number
    rcases number with rfl | rfl | rfl | rfl | rfl | rfl | rfl | rfl | rfl | rfl | rfl
    · exact right_sum (i := 0) rfl (by simp only [Int64.ofInt_add, Int64.ofInt_toInt])
    · exact right_sum (i := 1) rfl (by simp only [Int64.ofInt_sub, Int64.ofInt_toInt])
    · exact right_sum (i := 2) rfl (by simp only [Int64.ofInt_mul, Int64.ofInt_toInt])
    · change div.Right _ _ (if b = 0 then _ else _)
      split
      · next zero => exact zero ▸ right_zero (.inl rfl) rfl a
      · next nonzero => exact right_quotient a nonzero
    · change mod.Right _ _ (if b = 0 then _ else _)
      split
      · next zero => exact zero ▸ right_zero (.inr rfl) rfl a
      · next nonzero => exact right_remainder a nonzero
    · exact right_order (i := 0) rfl (decide_eq_decide.2 Int64.lt_iff_toInt_lt.symm)
    · exact right_order (i := 1) rfl (decide_eq_decide.2 Int64.le_iff_toInt_le.symm)
    · exact right_order (i := 2) rfl (decide_eq_decide.2 Int64.lt_iff_toInt_lt.symm)
    · exact right_order (i := 3) rfl (decide_eq_decide.2 Int64.le_iff_toInt_le.symm)
    · exact right_order (i := 4) rfl (decide_eq_decide.2 Int64.toInt_inj)
    · refine right_order (i := 5) rfl ?_
      simp only [ne_eq, Int64.toInt_inj, decide_not]
      rfl
  · rw [onInts_refusal number]
    refine right_refusal (p := .int a) (q := .int b) trivial ?_ ?_ ?_ .int
    · intro v gives
      refine number (mem_onNumbers.2 ?_)
      cases gives with
      | exact mem => exact .inl (List.mem_map_of_mem mem)
      | quotient is => exact .inr (.inl (.inl is))
      | remainder is => exact .inr (.inl (.inr is))
      | compare mem => exact .inr (.inr (List.mem_map_of_mem mem))
    · rintro ⟨is, -⟩
      exact number (mem_onNumbers.2 (.inr (.inl is)))
    · intro mem
      exact .inr ⟨mem, .inl ⟨a, b, rfl, rfl, number⟩⟩

theorem right_connect {f : Bool → Bool → Bool} {op : Operator} (mem : (op, f) ∈ connectives) (a b : Bool) :
    op.Right (.bool a) (.bool b) (.bool (f a b)) := by
  have key : op ∈ connectives.map (·.1) := List.mem_map_of_mem mem
  refine .of_value rfl (.connect mem) ?_ ?_ ?_ ?_
  · intro v gives
    cases gives with
    | connect mem' => rw [functional keys_distinct.2.2.1 mem' mem]
  · rintro ⟨-, _, ⟨⟩, -⟩
  · rintro (differ | ⟨-, ⟨_, _, ⟨⟩, -⟩ | ⟨_, _, -, -, not⟩⟩)
    · exact differ trivial
    · exact not key
  · intro unknown
    have all : ∀ op ∈ connectives.map (·.1), op ∈ binaries := by decide
    exact unknown.2 (all op key)

theorem onBools_right (op : Operator) (a b : Bool) (tag : Tag) : op.Right (.bool a) (.bool b) (op.onBools a b tag) := by
  by_cases defined : op ∈ connectives.map (·.1)
  · simp only [connectives, List.map_cons, List.map_nil, List.mem_cons, List.not_mem_nil, or_false] at defined
    rcases defined with rfl | rfl | rfl | rfl
    · exact right_connect (List.mem_of_getElem? (i := 0) rfl) a b
    · exact right_connect (List.mem_of_getElem? (i := 1) rfl) a b
    · exact right_connect (List.mem_of_getElem? (i := 2) rfl) a b
    · exact right_connect (List.mem_of_getElem? (i := 3) rfl) a b
  · have refused : op.onBools a b tag = op.refusal tag := by
      simp only [connectives, List.map_cons, List.map_nil, List.mem_cons, List.not_mem_nil, or_false, not_or] at defined
      simp only [onBools, defined, if_false]
    rw [refused]
    refine right_refusal (p := .bool a) (q := .bool b) trivial ?_ ?_ ?_ tag
    · intro v gives
      cases gives with
      | connect mem => exact defined (List.mem_map_of_mem mem)
    · rintro ⟨-, _, ⟨⟩, -⟩
    · intro mem
      exact .inr ⟨mem, .inr ⟨a, b, rfl, rfl, defined⟩⟩

/-- Operands of two kinds, or of no kind that has operators. -/
theorem right_apart {op : Operator} {p q : Operand} (differ : ¬ p.SameKind q) {c : Cause} (kind : c.kind = .typeMismatch) :
    op.Right p q (.fault c) := by
  have mismatch : op.Mismatches p q := .inl differ
  refine .of_fault ?_ (iff_of_false (by rw [kind]; nofun) ?_) (iff_of_true kind mismatch)
    (iff_of_false (by rw [kind]; nofun) fun unknown => differ unknown.1) (.inr (.inl mismatch))
  · intro v gives
    cases gives <;> exact differ trivial
  · rintro ⟨-, a, rfl, rfl⟩
    exact differ trivial

def RightOne (op : Operator) (p : Operand) (r : OpResult) : Prop :=
  r.Meets (op.GivesOne p) False (op.MismatchesOne p) (op ≠ neg ∧ op ≠ not)

theorem right_negative (n : Int64) : neg.RightOne (.int n) (.int (-n)) := by
  have word : Int64.ofInt (-n.toInt) = -n := by rw [Int64.ofInt_neg, Int64.ofInt_toInt]
  refine .of_value rfl (.negative rfl (wraps_iff.2 word.symm)) ?_ id ?_ fun unknown => unknown.1 rfl
  · intro v gives
    cases gives with
    | negative _ wraps => rw [wraps_iff.1 wraps, word]
  · rintro (⟨-, not⟩ | ⟨⟨⟩, -⟩)
    exact not n rfl

theorem right_negation (b : Bool) : not.RightOne (.bool b) (.bool (!b)) := by
  refine .of_value rfl (.negation rfl) ?_ id ?_ fun unknown => unknown.2 rfl
  · intro v gives
    cases gives with
    | negation => rfl
  · rintro (⟨⟨⟩, -⟩ | ⟨-, not⟩)
    exact not b rfl

theorem right_mismatch {op : Operator} {p : Operand} (mismatch : op.MismatchesOne p) {c : Cause}
    (kind : c.kind = .typeMismatch) : op.RightOne p (.fault c) := by
  refine .of_fault ?_ (iff_of_false (by rw [kind]; nofun) id) (iff_of_true kind mismatch)
    (iff_of_false (by rw [kind]; nofun) ?_) (.inr (.inl mismatch))
  · intro v gives
    cases gives with
    | negative is =>
      rcases mismatch with ⟨-, not⟩ | ⟨is', -⟩
      · exact not _ rfl
      · cases is.symm.trans is'
    | negation is =>
      rcases mismatch with ⟨is', -⟩ | ⟨-, not⟩
      · cases is.symm.trans is'
      · exact not _ rfl
  · intro unknown
    exact mismatch.elim (fun is => unknown.1 is.1) fun is => unknown.2 is.1

theorem right_unknown {op : Operator} (unknown : op ≠ neg ∧ op ≠ not) (p : Operand) {c : Cause}
    (kind : c.kind = .unknownOperator) : op.RightOne p (.fault c) := by
  refine .of_fault ?_ (iff_of_false (by rw [kind]; nofun) id) (iff_of_false (by rw [kind]; nofun) ?_)
    (iff_of_true kind unknown) (.inr (.inr unknown))
  · intro v gives
    cases gives with
    | negative is => exact unknown.1 is
    | negation is => exact unknown.2 is
  · intro mismatch
    exact mismatch.elim (fun is => unknown.1 is.1) fun is => unknown.2 is.1

end Operator

/-- The boolean literals are where they belong. -/
def Heap.Truths (words : Array Word) : Prop := ∀ b, Shows words (Heap.ofBool b) (.literal (if b then .true else .false))

instance (words : Array Word) : Decidable (Heap.Truths words) := inferInstanceAs (Decidable (∀ _, _))

section Operands

variable {words : Array Word} {a : Addr} {n : Node}

theorem Operand.ofNode_of_tag (other : n.tag ≠ .int) : ofNode a n =
    if a = Heap.true then bool true else if a = Heap.false then bool false else .other := by
  cases n with
  | int k => exact absurd rfl other
  | _ => rfl

/-- A node is an integer or one of the two booleans, or it is no operand at all. -/
theorem Operand.ofNode_cases (truths : Heap.Truths words) (s : Shows words a n) :
    (∃ k, n = .int k ∧ Heap.isBool a = false) ∨
      n.tag ≠ .int ∧ ((∃ b, a = Heap.ofBool b ∧ ofNode a n = bool b) ∨ Heap.isBool a = false ∧ ofNode a n = .other) := by
  by_cases int : n.tag = .int
  · obtain ⟨k, rfl⟩ := s.int_of_tag int
    refine .inl ⟨k, rfl, Bool.eq_false_iff.2 fun is => ?_⟩
    obtain ⟨b, rfl⟩ : ∃ b, a = Heap.ofBool b := by
      rcases Bool.or_eq_true_iff.1 is with is | is
      · exact ⟨true, beq_iff_eq.1 is⟩
      · exact ⟨false, beq_iff_eq.1 is⟩
    have tags := s.tagAt.symm.trans (truths b).tagAt
    cases b <;> cases tags
  · refine .inr ⟨int, ?_⟩
    rw [ofNode_of_tag int]
    by_cases isTrue : a = Heap.true
    · exact .inl ⟨true, isTrue, if_pos isTrue⟩
    rw [if_neg isTrue]
    by_cases isFalse : a = Heap.false
    · exact .inl ⟨false, isFalse, if_pos isFalse⟩
    rw [if_neg isFalse]
    exact .inr ⟨Bool.or_eq_false_iff.2 ⟨beq_eq_false_iff_ne.2 isTrue, beq_eq_false_iff_ne.2 isFalse⟩, rfl⟩

theorem Heap.isBool_ofBool (b : Bool) : Heap.isBool (Heap.ofBool b) = Bool.true := by
  cases b <;> rfl

theorem Heap.ofBool_beq_true (b : Bool) : (Heap.ofBool b == Heap.true) = b := by
  cases b <;> rfl

theorem Heap.ofBool_beq_false (b : Bool) : (Heap.ofBool b == Heap.false) = !b := by
  cases b <;> rfl

end Operands

section Machines

variable {m : Machine} {x y : Addr} {n n' : Node}

theorem Exec.tagOf_of_shows (s : Shows m.heap.words x n) : Exec.tagOf x m = .ok n.tag m := onHeap_ok (Heap.tagOf_shows s)

/-- What is boxed is the result that is right for the two nodes. -/
theorem Exec.binary_right (op : Operator) (truths : Heap.Truths m.heap.words) (sx : Shows m.heap.words x n)
    (sy : Shows m.heap.words y n') :
    ∃ r, Exec.binary op x y m = Exec.boxResult r m ∧ op.Right (.ofNode x n) (.ofNode y n') r := by
  unfold Exec.binary
  rw [bind_of_ok (Exec.tagOf_of_shows sx), bind_of_ok (Exec.tagOf_of_shows sy)]
  have intValue : ∀ {a k}, Shows m.heap.words a (.int k) → Exec.onHeap (Heap.intValue a) m = .ok k m :=
    fun s => onHeap_ok (Heap.intValue_shows s)
  rcases Operand.ofNode_cases truths sx with ⟨k, rfl, notBool⟩ | ⟨notInt, ⟨b, rfl, is⟩ | ⟨notBool, is⟩⟩
  · rcases Operand.ofNode_cases truths sy with ⟨k', rfl, notBool'⟩ | ⟨notInt', is'⟩
    · rw [if_pos ⟨rfl, rfl⟩, bind_of_ok (intValue sx), bind_of_ok (intValue sy)]
      exact ⟨_, rfl, op.onInts_right k k'⟩
    · rw [if_neg fun both => notInt' both.2, if_neg (by rw [notBool]; nofun)]
      refine ⟨.fault _, rfl, Operator.right_apart ?_ rfl⟩
      rcases is' with ⟨b, -, is'⟩ | ⟨-, is'⟩ <;> rw [is'] <;> exact id
  · rw [if_neg fun both => notInt both.1, is]
    rcases Operand.ofNode_cases truths sy with ⟨k', rfl, notBool'⟩ | ⟨-, ⟨b', rfl, is'⟩ | ⟨notBool', is'⟩⟩
    · rw [if_neg (by rw [notBool']; rintro ⟨-, ⟨⟩⟩)]
      exact ⟨.fault _, rfl, Operator.right_apart id rfl⟩
    · rw [if_pos ⟨Heap.isBool_ofBool b, Heap.isBool_ofBool b'⟩, Heap.ofBool_beq_true, Heap.ofBool_beq_true, is']
      exact ⟨_, rfl, op.onBools_right b b' n.tag⟩
    · rw [if_neg (by rw [notBool']; rintro ⟨-, ⟨⟩⟩), is']
      exact ⟨.fault _, rfl, Operator.right_apart id rfl⟩
  · rw [if_neg fun both => notInt both.1, if_neg (by rw [notBool]; nofun), is]
    exact ⟨.fault _, rfl, Operator.right_apart id rfl⟩

theorem Exec.unary_right (op : Operator) (truths : Heap.Truths m.heap.words) (sx : Shows m.heap.words x n) :
    ∃ r, Exec.unary op x m = Exec.boxResult r m ∧ op.RightOne (.ofNode x n) r := by
  have tag := Exec.tagOf_of_shows sx
  unfold Exec.unary
  split
  · next is =>
    subst is
    rw [bind_of_ok tag]
    rcases Operand.ofNode_cases truths sx with ⟨k, rfl, notBool⟩ | ⟨notInt, is⟩
    · have value : Exec.onHeap (Heap.intValue x) m = .ok k m := onHeap_ok (Heap.intValue_shows sx)
      rw [if_pos (show (Node.int k).tag = .int from rfl), bind_of_ok value]
      exact ⟨_, rfl, Operator.right_negative k⟩
    · rw [if_neg notInt]
      refine ⟨.fault _, rfl, Operator.right_mismatch (.inl ⟨rfl, fun k eq => ?_⟩) rfl⟩
      rcases is with ⟨b, -, is⟩ | ⟨-, is⟩ <;> cases is.symm.trans eq
  split
  · next is =>
    subst is
    rcases Operand.ofNode_cases truths sx with ⟨k, rfl, notBool⟩ | ⟨-, ⟨b, rfl, is⟩ | ⟨notBool, is⟩⟩
    · rw [if_neg (by rw [notBool]; nofun), bind_of_ok tag]
      exact ⟨.fault _, rfl, Operator.right_mismatch (.inr ⟨rfl, fun b eq => by cases eq⟩) rfl⟩
    · rw [if_pos (Heap.isBool_ofBool b), Heap.ofBool_beq_false, is]
      exact ⟨.bool (!b), rfl, Operator.right_negation b⟩
    · rw [if_neg (by rw [notBool]; nofun), bind_of_ok tag, is]
      exact ⟨.fault _, rfl, Operator.right_mismatch (.inr ⟨rfl, fun b eq => by cases eq⟩) rfl⟩
  · next notNeg notNot => exact ⟨.fault _, rfl, Operator.right_unknown ⟨notNeg, notNot⟩ _ rfl⟩

/-- How an operator ends that finds its operands in front of `rest`: with the one right value in their place, if there is
memory for it, or with a fault that says why there is none. -/
structure Machine.Computes (m : Machine) (rest : List Addr) (gives : Operand → Prop) (zero mismatch unknown : Prop)
    (r : EStateM.Result Failure Machine Unit) : Prop where
  value : ¬ zero → ¬ mismatch → ¬ unknown → ∃ v, (∀ v', gives v' ↔ v' = v) ∧ (FaultsWith r .outOfMemory ∨
    ∃ a m', r = .ok () m' ∧ v.At m'.heap.words a ∧
      m'.current = { m.current with operands := a :: rest, spare := m'.current.spare })
  zero : FaultsWith r .divisionByZero ↔ zero
  mismatch : FaultsWith r .typeMismatch ↔ mismatch
  unknown : FaultsWith r .unknownOperator ↔ unknown
  /-- A fault leaves all registers of the machine as they were. -/
  refused : ∀ e m', r = .error e m' → (∃ c, e = .fault c) ∧ m'.control = m.control

section Pushing

variable {rest taken : List Addr} {r : OpResult} {gives : Operand → Prop} {zero mismatch unknown : Prop}

theorem Exec.boxResult_int (sound : m.heap.Sound) (traceable : Heap.Traceable m.heap.words m.held) (n : Int64) :
    (∃ a h, Exec.boxResult (.int n) m = .ok a { m with heap := h } ∧ Shows h.words a (.int n)) ∨
      ∃ k h, Exec.boxResult (.int n) m = .error (.fault (.outOfMemory k)) { m with heap := h } := by
  have held : Heap.Traceable m.heap.words (m.rootThunk.get ++ m.heap.pinned) := traceable
  have alloc := Heap.newInt_allocates sound held n
  have box : Exec.boxResult (.int n) = Exec.allocating fun roots => Heap.newInt roots n := rfl
  rw [box]
  rcases alloc with ⟨a, h, run, -, shows⟩ | ⟨k, h, run, -⟩
  · exact .inl ⟨a, h, allocating_ok run, shows⟩
  · exact .inr ⟨k, h, allocating_error run⟩

theorem Exec.replace_ok (stack : m.current.operands = taken ++ rest) (h : Heap) (a : Addr) :
    ∃ m', (do Exec.drop taken.length; Exec.push a : Exec Unit) { m with heap := h } = .ok () m' ∧ m'.heap = h ∧
      m'.current = { m.current with operands := a :: rest, spare := m'.current.spare } := by
  have enough : taken.length ≤ (Machine.mk h m.control).control.sched.current.operands.length := by
    change taken.length ≤ m.current.operands.length
    rw [stack, List.length_append]
    omega
  have left : m.control.sched.current.operands.drop taken.length = rest := by
    change m.current.operands.drop taken.length = rest
    rw [stack, List.drop_left]
  refine ⟨_, (bind_of_ok (Exec.drop_ok enough)).trans (Exec.push_eq _ a), rfl, ?_⟩
  rw [← left]
  rfl

theorem Machine.Computes.of_value {v : Operand} {res : EStateM.Result Failure Machine Unit}
    (meets : r.Meets gives zero mismatch unknown) (is : r.value? = some v)
    (ends : (∃ k h, res = .error (.fault (.outOfMemory k)) { m with heap := h }) ∨
      ∃ a m', res = .ok () m' ∧ v.At m'.heap.words a ∧
        m'.current = { m.current with operands := a :: rest, spare := m'.current.spare }) :
    m.Computes rest gives zero mismatch unknown res := by
  have none : r.kind? = none := by
    cases r with
    | fault c => cases is
    | _ => rfl
  have spared : ∀ k, k ≠ .outOfMemory → ¬ FaultsWith res k := by
    intro k other fails
    rcases ends with ⟨n, h, rfl⟩ | ⟨a, m', rfl, -⟩
    · exact other (faultsWith_fault.1 fails).symm
    · exact not_faultsWith_ok fails
  have never : ∀ {k p}, (r.kind? = some k ↔ p) → ¬ p := by
    intro k p iff holds
    cases none.symm.trans (iff.2 holds)
  refine ⟨fun _ _ _ => ⟨v, fun v' => ?_, ?_⟩, ?_, ?_, ?_, ?_⟩
  · rw [meets.value, is, Option.some_inj]
    exact eq_comm
  · exact ends.imp_left fun ⟨k, h, run⟩ => ⟨_, _, run, rfl⟩
  · exact iff_of_false (spared _ nofun) (never meets.zero)
  · exact iff_of_false (spared _ nofun) (never meets.mismatch)
  · exact iff_of_false (spared _ nofun) (never meets.unknown)
  · rintro e m' run
    rcases ends with ⟨n, h, rfl⟩ | ⟨a, m', rfl, -⟩
    · cases run
      exact ⟨⟨_, rfl⟩, rfl⟩
    · cases run

/-- Whatever the operator is, what follows its result is the same. -/
theorem Machine.Computes.of_meets (sound : m.heap.Sound) (traceable : Heap.Traceable m.heap.words m.held)
    (taken : List Addr) (stack : m.current.operands = taken ++ rest) (meets : r.Meets gives zero mismatch unknown) :
    m.Computes rest gives zero mismatch unknown
      ((Exec.boxResult r >>= fun a => do Exec.drop taken.length; Exec.push a) m) := by
  cases r with
  | int n =>
    refine .of_value meets rfl ?_
    rcases Exec.boxResult_int sound traceable n with ⟨a, h, run, shows⟩ | ⟨k, h, run⟩
    · obtain ⟨m', replaced, heap, registers⟩ := Exec.replace_ok stack h a
      exact .inr ⟨a, m', by rw [bind_of_ok run, replaced], heap ▸ shows, registers⟩
    · exact .inl ⟨k, h, bind_of_error run⟩
  | bool b =>
    obtain ⟨m', replaced, -, registers⟩ := Exec.replace_ok stack m.heap (Heap.ofBool b)
    exact .of_value meets rfl (.inr ⟨Heap.ofBool b, m', replaced, rfl, registers⟩)
  | fault c =>
    have ends : (Exec.boxResult (.fault c) >>= fun a => do Exec.drop taken.length; Exec.push a) m =
      .error (.fault c) m := rfl
    rw [ends]
    have kind : ∀ k, FaultsWith (.error (.fault c) m) k ↔ (OpResult.fault c).kind? = some k :=
      fun k => faultsWith_fault.trans Option.some_inj.symm
    refine ⟨fun notZero notMismatch notUnknown => ?_, (kind _).trans meets.zero, (kind _).trans meets.mismatch,
      (kind _).trans meets.unknown, ?_⟩
    · rcases meets.usual c.kind rfl with is | is | is
      · exact absurd (meets.zero.1 (congrArg some is)) notZero
      · exact absurd (meets.mismatch.1 (congrArg some is)) notMismatch
      · exact absurd (meets.unknown.1 (congrArg some is)) notUnknown
    · rintro e m' ⟨⟩
      exact ⟨⟨c, rfl⟩, rfl⟩

end Pushing

/-- What follows does not depend on how the result was found. -/
theorem Exec.bind_of_eq {α β : Type} {f g : Exec α} (same : f m = g m) (k : α → Exec β) : (f >>= k) m = (g >>= k) m := by
  change EStateM.bind f k m = EStateM.bind g k m
  rw [EStateM.bind, EStateM.bind, same]

/-- Operators on operands of any kind give what the reference gives, or a fault that tells why there is nothing. -/
theorem Machine.operators_exact (sound : m.heap.Sound) (traceable : Heap.Traceable m.heap.words m.held)
    (truths : Heap.Truths m.heap.words) (sx : Shows m.heap.words x n) :
    (∀ (op : Operator) (y : Addr) (n' : Node) (rest : List Addr), m.current.operands = y :: x :: rest →
      Shows m.heap.words y n' → m.Computes rest (op.Gives (.ofNode x n) (.ofNode y n'))
        (op.Divides (.ofNode x n) (.ofNode y n')) (op.Mismatches (.ofNode x n) (.ofNode y n'))
        (op.Unknown (.ofNode x n) (.ofNode y n')) (Exec.instr (.binary op) m)) ∧
    ∀ (op : Operator) (rest : List Addr), m.current.operands = x :: rest →
      m.Computes rest (op.GivesOne (.ofNode x n)) False (op.MismatchesOne (.ofNode x n)) (op ≠ .neg ∧ op ≠ .not)
        (Exec.instr (.unary op) m) := by
  constructor
  · intro op y n' rest stack sy
    obtain ⟨r, run, right⟩ := Exec.binary_right op truths sx sy
    have top : Exec.peek 0 m = .ok y m := Exec.peek_of_getElem? (by rw [← Machine.current, stack]; rfl)
    have next : Exec.peek 1 m = .ok x m := Exec.peek_of_getElem? (by rw [← Machine.current, stack]; rfl)
    have eq : Exec.instr (.binary op) m = (Exec.boxResult r >>= fun a => do Exec.drop 2; Exec.push a) m :=
      (bind_of_ok top).trans ((bind_of_ok next).trans (Exec.bind_of_eq run _))
    rw [eq]
    exact Machine.Computes.of_meets sound traceable [y, x] stack right
  · intro op rest stack
    obtain ⟨r, run, right⟩ := Exec.unary_right op truths sx
    have top : Exec.peek 0 m = .ok x m := Exec.peek_of_getElem? (by rw [← Machine.current, stack]; rfl)
    have eq : Exec.instr (.unary op) m = (Exec.boxResult r >>= fun a => do Exec.drop 1; Exec.push a) m :=
      (bind_of_ok top).trans (Exec.bind_of_eq run _)
    rw [eq]
    exact Machine.Computes.of_meets sound traceable [x] stack right

/-- Divides the least number by -1. -/
def quotientInstrs : List Instr :=
  [.loadConst (.int .int64 (-9223372036854775808)), .loadConst (.int .int64 (-1)), .binary .div, .done]

/-- The quotient has 65 bits, and is the dividend again. -/
theorem Machine.operators_exact_least : ∃ m₀ m : Machine, Machine.create 304 (Code.ofInstrs quotientInstrs) {} = .ok m₀ ∧
    m₀.play (List.replicate 2 (.step false)) = m ∧ m.current.operands = [272, 256] ∧
    Shows m.heap.words 272 (.int (-1)) ∧ Shows m.heap.words 256 (.int (-9223372036854775808)) ∧
    ∃ a m', Exec.instr (.binary .div) m = .ok () m' ∧
      Shows m'.heap.words a (.int (-9223372036854775808)) ∧ m'.current.operands = [a] := by
  obtain ⟨m₀, made, stack, sy, sx, truths, room⟩ : ∃ m₀ : Machine,
      Machine.create 304 (Code.ofInstrs quotientInstrs) {} = .ok m₀ ∧
      (m₀.play (List.replicate 2 (.step false))).current.operands = [272, 256] ∧
      Shows (m₀.play (List.replicate 2 (.step false))).heap.words 272 (.int (-1)) ∧
      Shows (m₀.play (List.replicate 2 (.step false))).heap.words 256 (.int (-9223372036854775808)) ∧
      Heap.Truths (m₀.play (List.replicate 2 (.step false))).heap.words ∧
      (Exec.instr (.binary .div)).run' (m₀.play (List.replicate 2 (.step false))) = some () :=
    ⟨_, Machine.create_listed rfl, by decide +kernel⟩
  have plain : (Code.ofInstrs quotientInstrs).Plain := by
    intro entry mem
    obtain ⟨i, inside, rfl⟩ := List.mem_map.1 (by simpa [Code.ofInstrs] using mem)
    refine ⟨i, rfl, fun a eq => ?_⟩
    subst eq
    simp [quotientInstrs] at inside
  have start := Machine.create_paired plain made made False
  have inner : (Code.ofInstrs quotientInstrs).Inner := Code.inner_ofInstrs (by simp [quotientInstrs])
  have safe := start.throughout inner id (List.replicate 2 (.step false))
  obtain ⟨w, paired⟩ := start.play _ safe (Machine.throughout_imp False.elim)
  generalize played : m₀.play (List.replicate 2 (.step false)) = m at *
  have traceable := paired.alike.heap.traceable₁ paired.alike.knows_held
  have computes := (operators_exact paired.alike.heap.sound₁ traceable truths sx).1 .div 272 _ [] stack sy
  have zero : ¬ Operator.Divides .div (.ofNode 256 (.int (-9223372036854775808))) (.ofNode 272 (.int (-1))) :=
    Operator.not_divides (by decide)
  have defined : Operator.div ∈ Operator.onNumbers := by decide
  obtain ⟨v, right, ends⟩ := computes.value zero (Operator.not_mismatches defined) (Operator.not_unknown defined)
  have wraps : Wraps (-9223372036854775808) ⌊((-9223372036854775808 : Int64).toInt : ℚ) / (-1 : Int64).toInt⌋ := by
    rw [wraps_iff, ← floorDiv_eq _ (by decide)]
    decide
  obtain rfl := (right _).1 (.quotient rfl (by decide) wraps)
  rcases ends with ⟨c, m', fails, -⟩ | ⟨a, m', run, boxed, registers⟩
  · rw [EStateM.run', EStateM.run, fails] at room
    cases room
  · exact ⟨m₀, m, made, played, stack, sy, sx, a, m', run, boxed, by rw [registers]⟩

end Machines

end FiberVm
