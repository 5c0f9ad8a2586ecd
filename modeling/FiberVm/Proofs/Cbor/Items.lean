import Mathlib.Tactic.Ring
import Mathlib.Tactic.SplitIfs
import FiberVm.Cbor.Reader

/-!
# Reading written items

An item that is written and read comes back, whatever follows it. The lemmas go by the shape of the item:
each asks for no more levels of nesting and no more fuel than the item is deep.
-/

set_option autoImplicit false

namespace FiberVm.Cbor

section Heads

theorem length_bigEndian (width n : Nat) : (bigEndian width n).length = width := by
  induction width with
  | zero => rfl
  | succ width ih => simp [bigEndian, ih]

theorem foldl_bigEndian (width n acc : Nat) :
    (bigEndian width n).foldl (fun n b => n * 256 + b.toNat) acc = acc * 256 ^ width + n % 256 ^ width := by
  induction width generalizing acc with
  | zero => simp [bigEndian, Nat.mod_one]
  | succ width ih =>
    rw [bigEndian, List.foldl_cons, ih, pow_succ, Nat.mod_mul]
    simp only [Nat.pow_eq, Nat.toUInt8_eq, UInt8.toNat_ofNat']
    ring

theorem ofBigEndian_bigEndian {width n : Nat} (small : n < 256 ^ width) : ofBigEndian (bigEndian width n) = n := by
  rw [ofBigEndian, foldl_bigEndian, Nat.mod_eq_of_lt small]
  simp

theorem take_append {front : List UInt8} {n : Nat} (size : front.length = n) (rest : List UInt8) :
    take n (front ++ rest) = some (front, rest) := by
  subst size
  simp [take]

theorem readHead_wide {major info n : Nat} (small : major < 8) (wide : 24 ≤ info ∧ info < 28)
    (fits : n < 256 ^ 2 ^ (info - 24)) (rest : List UInt8) :
    readHead ((major * 32 + info).toUInt8 :: bigEndian (2 ^ (info - 24)) n ++ rest)
      = some (⟨major, info, n⟩, rest) := by
  have byte : (major * 32 + info) % 256 = major * 32 + info := by omega
  have first : (major * 32 + info) / 32 = major := by omega
  have second : (major * 32 + info) % 32 = info := by omega
  have narrow : ¬ info < 24 := by omega
  simp [readHead, byte, first, second, narrow, wide.2, take_append (length_bigEndian _ n),
    ofBigEndian_bigEndian fits]

/-- A written head is read as such, and its argument is never taken for an unknown length. -/
theorem readHead_head {major n : Nat} (small : major < 8) (fits : n < 2 ^ 64) (rest : List UInt8) :
    ∃ info, info ≠ 31 ∧ (n < 24 → info = n) ∧ readHead (head major n ++ rest) = some (⟨major, info, n⟩, rest) := by
  simp only [head]
  split_ifs with h24 h8 h16 h32
  · have byte : (major * 32 + n) % 256 = major * 32 + n := by omega
    have first : (major * 32 + n) / 32 = major := by omega
    have second : (major * 32 + n) % 32 = n := by omega
    refine ⟨n, by omega, fun _ => rfl, ?_⟩
    simp [readHead, byte, first, second, h24]
  · exact ⟨24, by omega, fun h => absurd h h24, readHead_wide small (by omega) (by simpa using h8) rest⟩
  · exact ⟨25, by omega, fun h => absurd h h24, readHead_wide small (by omega) (by simpa using h16) rest⟩
  · exact ⟨26, by omega, fun h => absurd h h24, readHead_wide small (by omega) (by simpa using h32) rest⟩
  · exact ⟨27, by omega, fun h => absurd h h24, readHead_wide small (by omega) (by simpa using fits) rest⟩

theorem length_head_pos (major n : Nat) : 0 < (head major n).length := by
  simp only [head]
  split_ifs <;> simp

end Heads

namespace Item

/-- The item is nested at most `depth` levels deep and comes back when its written form is read. -/
def Readable (depth : Nat) (x : Item) : Prop :=
  ∀ fuel room rest, depth < fuel → depth ≤ room → item fuel room false (x.encode ++ rest) = some (x, rest)

variable {depth : Nat}

theorem Readable.mono {x : Item} {deeper : Nat} (readable : Readable depth x) (le : depth ≤ deeper) :
    Readable deeper x := by
  intro fuel room rest enough levels
  exact readable fuel room rest (by omega) (by omega)

theorem readable_unsigned (n : UInt64) : Readable 0 (.unsigned n) := by
  intro fuel room rest enough levels
  obtain ⟨fuel, rfl⟩ := Nat.exists_eq_succ_of_ne_zero (by omega : fuel ≠ 0)
  obtain ⟨info, known, -, read⟩ := readHead_head (by decide : 0 < 8) n.toNat_lt rest
  simp [item, encode, read, known]

theorem readable_negative (n : UInt64) : Readable 0 (.negative n) := by
  intro fuel room rest enough levels
  obtain ⟨fuel, rfl⟩ := Nat.exists_eq_succ_of_ne_zero (by omega : fuel ≠ 0)
  obtain ⟨info, known, -, read⟩ := readHead_head (by decide : 1 < 8) n.toNat_lt rest
  simp [item, encode, read, known]

theorem readable_simple {n : UInt8} (small : n.toNat < 24) : Readable 0 (.simple n) := by
  intro fuel room rest enough levels
  obtain ⟨fuel, rfl⟩ := Nat.exists_eq_succ_of_ne_zero (by omega : fuel ≠ 0)
  obtain ⟨info, -, same, read⟩ := readHead_head (by decide : 7 < 8) (by omega : n.toNat < 2 ^ 64) rest
  obtain rfl := same small
  simp [item, encode, read, primitive, small]

theorem readable_text {bs : List UInt8} (fits : bs.length < 2 ^ 64) : Readable 0 (.text [bs]) := by
  intro fuel room rest enough levels
  obtain ⟨fuel, rfl⟩ := Nat.exists_eq_succ_of_ne_zero (by omega : fuel ≠ 0)
  obtain ⟨info, known, -, read⟩ := readHead_head (by decide : 3 < 8) fits (bs ++ rest)
  simp [item, encode, stringBytes, read, chunks, known, take_append]

theorem many_append {read : Reader Item} {xs : List Item}
    (each : ∀ x ∈ xs, ∀ rest, read (x.encode ++ rest) = some (x, rest)) (rest : List UInt8) :
    many read xs.length (encodeAll xs ++ rest) = some (xs, rest) := by
  induction xs with
  | nil => rfl
  | cons x xs ih =>
    have first := each x List.mem_cons_self (encodeAll xs ++ rest)
    have others := ih fun y mem => each y (List.mem_cons_of_mem x mem)
    simp [encodeAll, many, first, others]

theorem many_pair_append {read : Reader Item} {entries : List (Item × Item)}
    (each : ∀ e ∈ entries, ∀ rest,
      read (e.1.encode ++ rest) = some (e.1, rest) ∧ read (e.2.encode ++ rest) = some (e.2, rest))
    (rest : List UInt8) :
    many (pair read) entries.length (encodeEntries entries ++ rest) = some (entries, rest) := by
  induction entries with
  | nil => rfl
  | cons e entries ih =>
    have key := (each e List.mem_cons_self (e.2.encode ++ (encodeEntries entries ++ rest))).1
    have value := (each e List.mem_cons_self (encodeEntries entries ++ rest)).2
    have others := ih fun f mem => each f (List.mem_cons_of_mem e mem)
    simp [encodeEntries, many, pair, key, value, others]

theorem readable_array {xs : List Item} (each : ∀ x ∈ xs, Readable depth x) (few : xs.length ≤ maxMembers) :
    Readable (depth + 1) (.array xs) := by
  intro fuel room rest enough levels
  obtain ⟨fuel, rfl⟩ := Nat.exists_eq_succ_of_ne_zero (by omega : fuel ≠ 0)
  have size : xs.length < 2 ^ 64 := lt_of_le_of_lt few (by decide)
  obtain ⟨info, known, -, read⟩ := readHead_head (by decide : 4 < 8) size (encodeAll xs ++ rest)
  have members : many (item fuel (room - 1) false) xs.length (encodeAll xs ++ rest) = some (xs, rest) := by
    apply many_append
    intro x mem rest
    exact each x mem fuel (room - 1) rest (by omega) (by omega)
  have inside : room ≠ 0 := by omega
  simp [item, encode, read, inside, membersOf, known, Nat.not_lt.2 few, members]

theorem readable_map {entries : List (Item × Item)}
    (each : ∀ e ∈ entries, Readable depth e.1 ∧ Readable depth e.2) (few : entries.length ≤ maxMembers) :
    Readable (depth + 1) (.map entries) := by
  intro fuel room rest enough levels
  obtain ⟨fuel, rfl⟩ := Nat.exists_eq_succ_of_ne_zero (by omega : fuel ≠ 0)
  have size : entries.length < 2 ^ 64 := lt_of_le_of_lt few (by decide)
  obtain ⟨info, known, -, read⟩ := readHead_head (by decide : 5 < 8) size (encodeEntries entries ++ rest)
  have members : many (pair (item fuel (room - 1) false)) entries.length (encodeEntries entries ++ rest)
      = some (entries, rest) := by
    apply many_pair_append
    intro e mem rest
    exact ⟨(each e mem).1 fuel (room - 1) rest (by omega) (by omega),
      (each e mem).2 fuel (room - 1) rest (by omega) (by omega)⟩
  have inside : room ≠ 0 := by omega
  simp [item, encode, read, inside, membersOf, known, Nat.not_lt.2 few, members]

theorem decode?_encode {x : Item} (readable : Readable depth x) (levels : depth ≤ maxDepth)
    (long : depth ≤ x.encode.length) : decode? x.encode = some x := by
  have read := readable (x.encode.length + 1) maxDepth [] (by omega) levels
  rw [List.append_nil] at read
  rw [decode?, read]

end Item

end FiberVm.Cbor
