import FiberVm.Heap.Collect

/-!
# Fields of a word, read back

Every field is pinned down by the bits it holds. From that, reading a field after writing one is the
value written if the two are the same field, and what was there before if they are not. Marks touch
byte 2 only.
-/

set_option autoImplicit false

namespace FiberVm

namespace Word

theorem getLsbD_byte (w : Word) {i k : Nat} (hi : i < 8) (hk : k < 8) :
    (w.byte i).toBitVec.getLsbD k = w.toBitVec.getLsbD (8 * i + k) := by
  have hs : (8 * i) % 18446744073709551616 % 64 = 8 * i := by omega
  simp [byte, hk, hs, BitVec.getLsbD_ushiftRight]

theorem byteMask (k : Nat) (hk : k < 64) : (255#64)[k] = decide (k < 8) := by
  rw [← BitVec.getLsbD_eq_getElem]
  revert k
  decide

theorem getLsbD_setByte (w : Word) (v : UInt8) {i k : Nat} (hi : i < 8) (hk : k < 64) :
    (w.setByte i v).toBitVec.getLsbD k =
      if 8 * i ≤ k ∧ k < 8 * i + 8 then v.toBitVec.getLsbD (k - 8 * i)
      else w.toBitVec.getLsbD k := by
  have hs : (8 * i) % 18446744073709551616 % 64 = 8 * i := by omega
  simp only [setByte, UInt64.toBitVec_or, UInt64.toBitVec_and, UInt64.toBitVec_not,
    UInt64.toBitVec_shiftLeft, Nat.toUInt64_eq, UInt64.toBitVec_ofNat]
  by_cases lt : k < 8 * i
  · have out : ¬ (8 * i ≤ k ∧ k < 8 * i + 8) := by omega
    simp [hk, hs, lt, out]
  · by_cases inside : k < 8 * i + 8
    · have here : 8 * i ≤ k ∧ k < 8 * i + 8 := by omega
      have small : k - 8 * i < 8 := by omega
      simp [hk, hs, lt, here, byteMask, small]
    · have out : ¬ (8 * i ≤ k ∧ k < 8 * i + 8) := by omega
      have big : ¬ k - 8 * i < 8 := by omega
      simp [hk, hs, lt, out, byteMask, big, BitVec.getLsbD_of_ge v.toBitVec (k - 8 * i) (by omega)]

theorem getLsbD_high (w : Word) {k : Nat} (hk : k < 32) :
    w.high.toBitVec.getLsbD k = w.toBitVec.getLsbD (32 + k) := by
  simp [high, hk]

theorem getLsbD_low (w : Word) {k : Nat} (hk : k < 32) :
    w.low.toBitVec.getLsbD k = w.toBitVec.getLsbD k := by
  simp [low, hk]

theorem getLsbD_setHigh (w : Word) (v : UInt32) {k : Nat} (hk : k < 64) :
    (w.setHigh v).toBitVec.getLsbD k =
      if k < 32 then w.toBitVec.getLsbD k else v.toBitVec.getLsbD (k - 32) := by
  have mask : ∀ j < 64, (4294967295#64).getLsbD j = decide (j < 32) := by clear hk; decide
  have m := mask k hk
  rw [BitVec.getLsbD_eq_getElem hk] at m
  by_cases low : k < 32 <;> simp [setHigh, hk, m, low]

theorem getLsbD_pack (hi lo : UInt32) {k : Nat} (hk : k < 64) :
    (pack hi lo).toBitVec.getLsbD k =
      if k < 32 then lo.toBitVec.getLsbD k else hi.toBitVec.getLsbD (k - 32) := by
  by_cases low : k < 32
  · simp [pack, hk, low]
  · simp [pack, hk, low, BitVec.getLsbD_of_ge lo.toBitVec k (by omega)]

theorem getLsbD_mark (w : Word) {k : Nat} (hk : k < 64) :
    w.mark.toBitVec.getLsbD k = (w.toBitVec.getLsbD k || decide (k = 16)) := by
  have mask : ∀ j < 64, (65536#64).getLsbD j = decide (j = 16) := by clear hk; decide
  have m := mask k hk
  rw [BitVec.getLsbD_eq_getElem hk] at m
  simp [mark, hk, m]

theorem getLsbD_unmark (w : Word) {k : Nat} (hk : k < 64) :
    w.unmark.toBitVec.getLsbD k = (w.toBitVec.getLsbD k && !decide (16 ≤ k ∧ k < 24)) := by
  have mask : ∀ j < 64, (18446744073692839935#64).getLsbD j = !decide (16 ≤ j ∧ j < 24) := by
    clear hk; decide
  have m := mask k hk
  rw [BitVec.getLsbD_eq_getElem hk] at m
  simp [unmark, hk, m]

theorem getLsbD_freshHeader (tag : Tag) {size : Nat} (hs : size < 256) {k : Nat} (hk : k < 64) :
    (Heap.freshHeader tag size).toBitVec.getLsbD k =
      if k < 8 then tag.number.toBitVec.getLsbD k else size.toUInt8.toBitVec.getLsbD (k - 8) := by
  have same : (UInt64.ofNat size).toBitVec.getLsbD (k - 8) =
      (UInt8.ofNat size).toBitVec.getLsbD (k - 8) := by
    rw [UInt64.toBitVec_ofNat', UInt8.toBitVec_ofNat', BitVec.getLsbD_ofNat, BitVec.getLsbD_ofNat]
    by_cases b : k - 8 < 8
    · simp [b, show k - 8 < 64 by omega]
    · have zero : size.testBit (k - 8) = false := Nat.testBit_lt_two_pow
        (calc size < 2 ^ 8 := hs
          _ ≤ 2 ^ (k - 8) := Nat.pow_le_pow_right (by omega) (by omega))
      simp [zero]
  rw [BitVec.getLsbD_eq_getElem (by omega)] at same
  by_cases low : k < 8
  · simp [Heap.freshHeader, hk, low]
  · simp [Heap.freshHeader, hk, low, BitVec.getLsbD_of_ge tag.number.toBitVec k (by omega), same]

theorem byte_ext {a b : UInt8} (h : ∀ k, k < 8 → a.toBitVec.getLsbD k = b.toBitVec.getLsbD k) :
    a = b :=
  UInt8.toBitVec_inj.1 (BitVec.eq_of_getLsbD_eq h)

theorem half_ext {a b : UInt32} (h : ∀ k, k < 32 → a.toBitVec.getLsbD k = b.toBitVec.getLsbD k) :
    a = b :=
  UInt32.toBitVec_inj.1 (BitVec.eq_of_getLsbD_eq h)

theorem word_ext {a b : Word} (h : ∀ k, k < 64 → a.toBitVec.getLsbD k = b.toBitVec.getLsbD k) :
    a = b :=
  UInt64.toBitVec_inj.1 (BitVec.eq_of_getLsbD_eq h)

theorem byte_setByte_self (w : Word) (v : UInt8) {i : Nat} (hi : i < 8) :
    (w.setByte i v).byte i = v := by
  apply byte_ext
  intro k hk
  rw [getLsbD_byte _ hi hk, getLsbD_setByte _ _ hi (by omega), if_pos (by omega)]
  congr 1
  omega

theorem byte_setByte_of_ne (w : Word) (v : UInt8) {i j : Nat} (hi : i < 8) (hj : j < 8)
    (hij : i ≠ j) : (w.setByte i v).byte j = w.byte j := by
  apply byte_ext
  intro k hk
  rw [getLsbD_byte _ hj hk, getLsbD_setByte _ _ hi (by omega), if_neg (by omega),
    getLsbD_byte _ hj hk]

@[simp] theorem byte_setByte (w : Word) (v : UInt8) {i j : Nat} (hi : i < 8) (hj : j < 8) :
    (w.setByte i v).byte j = if i = j then v else w.byte j := by
  split
  · next h => rw [← h, byte_setByte_self w v hi]
  · next h => exact byte_setByte_of_ne w v hi hj h

@[simp] theorem high_setByte (w : Word) (v : UInt8) {i : Nat} (hi : i < 4) :
    (w.setByte i v).high = w.high := by
  apply half_ext
  intro k hk
  rw [getLsbD_high _ hk, getLsbD_setByte _ _ (by omega) (by omega), if_neg (by omega),
    getLsbD_high _ hk]

@[simp] theorem byte_setHigh (w : Word) (v : UInt32) {i : Nat} (hi : i < 4) :
    (w.setHigh v).byte i = w.byte i := by
  apply byte_ext
  intro k hk
  rw [getLsbD_byte _ (by omega) hk, getLsbD_setHigh _ _ (by omega), if_pos (by omega),
    getLsbD_byte _ (by omega) hk]

@[simp] theorem high_setHigh (w : Word) (v : UInt32) : (w.setHigh v).high = v := by
  apply half_ext
  intro k hk
  rw [getLsbD_high _ hk, getLsbD_setHigh _ _ (by omega), if_neg (by omega)]
  congr 1
  omega

@[simp] theorem high_pack (hi lo : UInt32) : (pack hi lo).high = hi := by
  apply half_ext
  intro k hk
  rw [getLsbD_high _ hk, getLsbD_pack _ _ (by omega), if_neg (by omega)]
  congr 1
  omega

@[simp] theorem low_pack (hi lo : UInt32) : (pack hi lo).low = lo := by
  apply half_ext
  intro k hk
  rw [getLsbD_low _ hk, getLsbD_pack _ _ (by omega), if_pos hk]

/-- The low four bytes of a packed word come from its lower half. -/
theorem byte_pack (hi : UInt32) {i : Nat} (hb : i < 4) : (pack hi 0).byte i = 0 := by
  apply byte_ext
  intro k hk
  rw [getLsbD_byte _ (by omega) hk, getLsbD_pack _ _ (by omega), if_pos (by omega)]
  simp

@[simp] theorem low_toUInt64 (a : Addr) : Word.low a.toUInt64 = a := by
  simp [low]

theorem byte_mark_of_ne (w : Word) {i : Nat} (hi : i < 8) (h2 : i ≠ 2) :
    w.mark.byte i = w.byte i := by
  apply byte_ext
  intro k hk
  rw [getLsbD_byte _ hi hk, getLsbD_mark _ (by omega), getLsbD_byte _ hi hk]
  simp only [Bool.or_eq_left_iff_imp, decide_eq_true_eq]
  omega

theorem unmark_mark {w : Word} (clear : ¬ w.isMarked = true) : w.mark.unmark = w := by
  have zero : w.byte 2 = 0 := by simpa [isMarked] using clear
  apply word_ext
  intro k hk
  rw [getLsbD_unmark _ hk, getLsbD_mark _ hk]
  by_cases inside : 16 ≤ k ∧ k < 24
  · have bit := getLsbD_byte w (show 2 < 8 by omega) (show k - 16 < 8 by omega)
    rw [zero, show 8 * 2 + (k - 16) = k by omega] at bit
    simp [inside, ← bit]
  · have off : k ≠ 16 := by omega
    simp [inside, off]

theorem isMarked_eq_false_iff (w : Word) : w.isMarked = false ↔ w.byte 2 = 0 := by
  simp [isMarked]

end Word

namespace Heap

open Word

/-- A fresh header has a tag and a size, and its other fields are zero. -/
theorem byte_freshHeader (tag : Tag) {size i : Nat} (hs : size < 256) (hi : i < 8) :
    (freshHeader tag size).byte i =
      if i = 0 then tag.number else if i = 1 then size.toUInt8 else 0 := by
  apply byte_ext
  intro k hk
  rw [getLsbD_byte _ hi hk, getLsbD_freshHeader _ hs (by omega)]
  by_cases zero : i = 0
  · rw [if_pos (by omega), if_pos zero, zero, Nat.mul_zero, Nat.zero_add]
  · rw [if_neg (by omega), if_neg zero]
    by_cases one : i = 1
    · rw [if_pos one]
      congr 1
      omega
    · rw [if_neg one, BitVec.getLsbD_of_ge _ _ (by omega)]
      simp

@[simp] theorem high_freshHeader (tag : Tag) {size : Nat} (hs : size < 256) :
    (freshHeader tag size).high = 0 := by
  apply half_ext
  intro k hk
  rw [getLsbD_high _ hk, getLsbD_freshHeader _ hs (by omega), if_neg (by omega),
    BitVec.getLsbD_of_ge _ _ (by omega)]
  simp

theorem byte_freeWord (next : Option Addr) {i : Nat} (hi : i < 4) : (freeWord next).byte i = 0 := by
  cases next with
  | none => exact byte_pack _ hi
  | some a => exact byte_pack _ hi

theorem isMarked_freeWord (next : Option Addr) : (freeWord next).isMarked = Bool.false := by
  rw [isMarked_eq_false_iff, byte_freeWord next (by decide)]

/-- A link is read back unless it is the address that stands for none. -/
theorem nextFree_freeWord {next : Option Addr} (h : next ≠ some noAddr) :
    nextFree (freeWord next) = next := by
  cases next with
  | none => simp [nextFree, freeWord]
  | some a =>
    have ne : a ≠ noAddr := fun e => h (by rw [e])
    simp [nextFree, freeWord, ne]

end Heap

end FiberVm
