import FiberVm.Proofs.Heap.Mirror

/-!
# New heaps

A new heap is sound, and any two new heaps mirror each other over their reserved nodes.
-/

set_option autoImplicit false

namespace FiberVm

namespace Heap

/-- The words of a new heap. -/
structure Initial (size : Nat) (words : Array Word) : Prop where
  sized : Sized words
  size_eq : words.size = size
  word : ∀ i < size, words.getD i 0 = initialWord size i

theorem create_initial {size : Int} {h : Heap} (made : create size = .ok h) :
    Initial size.toNat h.words ∧ h.freeHead = some bottom ∧ h.pinned = [] := by
  unfold create at made
  split at made
  · cases made
  · next multiple =>
    split at made
    · cases made
    · next small =>
      split at made
      · cases made
      · next room =>
        obtain rfl := Except.ok.inj made
        have length : (Array.ofFn fun i : Fin size.toNat => initialWord size.toNat i).size = size.toNat :=
          Array.size_ofFn
        refine ⟨⟨?_, length, fun i lt => ?_⟩, rfl, rfl⟩
        · constructor
          all_goals
            rw [length]
            simp only [nodeSize, reservedNodes, maxWords, bottom_toNat] at *
            omega
        · simp [Array.getD_eq_getD_getElem?, lt]

section

variable {size : Nat} {words : Array Word} {a : Addr}

/-- The words of a new heap, one after the other. This is quick to evaluate. -/
def listed (size : Nat) : Array Word := ((List.range size).map (initialWord size)).toArray

theorem Initial.eq_listed (init : Initial size words) : words = listed size := by
  have length : (listed size).size = size := by simp [listed]
  refine Array.ext (init.size_eq.trans length.symm) fun i lt lt' => ?_
  have word := init.word i (length ▸ lt')
  rw [Array.getD_eq_getD_getElem?, Array.getElem?_eq_getElem lt, Option.getD_some] at word
  simp [word, listed]

theorem Initial.cell_eq (init : Initial size words) (ha : NodeIn words a) {i : Nat} (hi : i < nodeSize) :
    cell words a i = initialWord size (a.toNat + i) := by
  refine init.word _ ?_
  have := ha.2
  have := init.size_eq
  omega

theorem Initial.reserved (init : Initial size words) (ha : NodeIn words a) (low : a < bottom) {i : Nat}
    (hi : i < nodeSize) : cell words a i = reservedWord (a.toNat + i) := by
  rw [init.cell_eq ha hi, initialWord, if_pos]
  have := ha.1
  rw [UInt32.lt_iff_toNat_lt, bottom_toNat] at low
  rw [bottom_toNat]
  unfold nodeSize at *
  omega

theorem Initial.header (init : Initial size words) (ha : NodeIn words a) (high : bottom ≤ a) :
    cell words a 0 =
      freeWord (if a.toNat + nodeSize < size then some (a.toNat + nodeSize).toUInt32 else none) := by
  have le := bottom_le_iff.1 high
  rw [init.cell_eq ha (by decide), initialWord, if_neg (by rw [bottom_toNat]; omega), Nat.add_zero,
    if_pos ha.1]

/-- Node number `k` from the first collectable one. -/
def nodeAt (k : Nat) : Addr := (256 + 16 * k).toUInt32

theorem toNat_nodeAt {k : Nat} (lt : 256 + 16 * k < 4294967296) : (nodeAt k).toNat = 256 + 16 * k :=
  UInt32.toNat_ofNat_of_lt lt

theorem Initial.inside (init : Initial size words) {k : Nat} (lt : 256 + 16 * k < size) :
    (nodeAt k).toNat = 256 + 16 * k ∧ NodeIn words (nodeAt k) ∧ bottom ≤ nodeAt k := by
  have small := init.sized.small
  have aligned := init.sized.aligned
  rw [init.size_eq] at small aligned
  unfold maxWords at small
  have back := toNat_nodeAt (k := k) (by omega)
  refine ⟨back, ?_, bottom_le_iff.2 (by omega)⟩
  rw [NodeIn, back, init.size_eq]
  unfold nodeSize at *
  omega

/-- The last `r` nodes hang together. -/
theorem Initial.freeList_last (init : Initial size words) {m : Nat} (total : size = 256 + 16 * m)
    (r : Nat) (le : r ≤ m) :
    FreeList words (if r = 0 then none else some (nodeAt (m - r)))
      ((List.range' (m - r) r).map nodeAt) := by
  induction r with
  | zero => exact .nil
  | succ r ih =>
    obtain ⟨back, ha, high⟩ := init.inside (k := m - (r + 1)) (by omega)
    rw [if_neg (Nat.succ_ne_zero r), List.range'_succ, List.map_cons]
    rw [show m - (r + 1) + 1 = m - r by omega]
    refine .cons ?_ (ih (by omega))
    rw [init.header ha high, back, total]
    congr 1
    unfold nodeSize
    by_cases last : r = 0
    · rw [if_neg (by omega), if_pos last]
    · rw [if_pos (by omega), if_neg last, nodeAt]
      congr 2
      omega

theorem Initial.unmarked (init : Initial size words) : Unmarked words := by
  intro a ha
  rw [Marked, Bool.not_eq_true]
  by_cases high : bottom ≤ a
  · rw [init.header ha high, isMarked_freeWord]
  · have low := UInt32.not_le.1 high
    have all : ∀ k < 16, (reservedWord (16 * k)).isMarked = Bool.false := by decide +kernel
    have aligned := ha.1
    rw [init.reserved ha low (by decide)]
    rw [UInt32.lt_iff_toNat_lt, bottom_toNat] at low
    unfold nodeSize at aligned
    have here := all (a.toNat / 16) (by omega)
    rwa [show 16 * (a.toNat / 16) = a.toNat + 0 by omega] at here

end

/-- The collectable node addresses of a heap with `words` words, ascending. -/
def ascending (words : Nat) : List Addr := (List.range (words / nodeSize - reservedNodes)).map nodeAt

section

variable {size : Nat} {words : Array Word}

theorem Initial.total (init : Initial size words) :
    size = 256 + 16 * (size / nodeSize - reservedNodes) ∧ 0 < size / nodeSize - reservedNodes := by
  have aligned := init.sized.aligned
  have room := init.sized.room
  rw [init.size_eq] at aligned room
  rw [bottom_toNat] at room
  unfold nodeSize reservedNodes at *
  omega

theorem Initial.mem_ascending (init : Initial size words) {a : Addr} :
    a ∈ ascending size ↔ NodeIn words a ∧ bottom ≤ a := by
  have total := init.total.1
  constructor
  · intro mem
    obtain ⟨k, inside, rfl⟩ := List.mem_map.1 mem
    have := List.mem_range.1 inside
    exact (init.inside (k := k) (by omega)).2
  · rintro ⟨ha, high⟩
    have le := bottom_le_iff.1 high
    have aligned := ha.1
    have inside := ha.2
    rw [init.size_eq] at inside
    unfold nodeSize at aligned inside
    refine List.mem_map.2 ⟨(a.toNat - 256) / 16, List.mem_range.2 (by omega), ?_⟩
    rw [← UInt32.toNat_inj, (init.inside (k := (a.toNat - 256) / 16) (by omega)).1]
    omega

theorem Initial.nodup_ascending (init : Initial size words) : (ascending size).Nodup := by
  have total := init.total.1
  rw [List.Nodup, ascending, List.pairwise_map]
  refine List.Pairwise.imp_of_mem (fun {i j} hi hj ne eq => ne ?_) List.nodup_range
  have := List.mem_range.1 hi
  have := List.mem_range.1 hj
  have left := (init.inside (k := i) (by omega)).1
  have right := (init.inside (k := j) (by omega)).1
  rw [eq] at left
  omega

/-- All collectable nodes are free and linked upward. -/
theorem Initial.freeList (init : Initial size words) : FreeList words (some bottom) (ascending size) := by
  obtain ⟨total, pos⟩ := init.total
  have list := init.freeList_last total _ (Nat.le_refl _)
  rwa [if_neg (by omega), Nat.sub_self, ← List.range_eq_range'] at list

end

theorem create_sound {size : Int} {h : Heap} (made : create size = .ok h) : Sound h := by
  obtain ⟨init, head, -⟩ := create_initial made
  exact ⟨init.sized, init.unmarked, _, head ▸ init.freeList, init.nodup_ascending,
    fun a mem => init.mem_ascending.1 mem⟩

/-- What reserved node number `k` stands for, as long as it is a value. -/
def reservedValue (k : Nat) : Node :=
  if k < 4 then .literal ⟨(k + 1).toUInt8⟩
  else .builtin ⟨(k - 4).toUInt8⟩ ((Builtin.table[k - 4]?.map (·.2)).getD 0)

/-- The slots of the frame of builtins. -/
def builtinSlots : List Addr := (List.range Builtin.count).map fun k => (64 + 16 * k).toUInt32

/-- The slots are the builtins, which come right before the frame. -/
theorem mem_builtinSlots {x : Addr} (mem : x ∈ builtinSlots) : x.toNat % 16 = 0 ∧ x < builtinsFrame := by
  obtain ⟨k, inside, rfl⟩ := List.mem_map.1 mem
  have lt : k < 10 := List.mem_range.1 inside
  have value : (64 + 16 * k).toUInt32.toNat = 64 + 16 * k := Nat.mod_eq_of_lt (by omega)
  rw [UInt32.lt_iff_toNat_lt, value, show builtinsFrame.toNat = 224 from rfl]
  omega

section

variable {size : Nat} {words : Array Word}

theorem Initial.shows_value (init : Initial size words) {a : Addr} (aligned : a.toNat % 16 = 0)
    (low : a < builtinsFrame) : Shows words a (reservedValue (a.toNat / 16)) := by
  have below : a < bottom := UInt32.lt_trans low (by decide)
  have ha := init.sized.nodeIn_low aligned below
  rw [UInt32.lt_iff_toNat_lt, show builtinsFrame.toNat = 224 from rfl] at low
  have facts : ∀ k < 14, (reservedWord (16 * k)).byte 0 = (reservedValue k).tag.number ∧
      ((reservedWord (16 * k)).byte 1).toNat = (reservedValue k).size ∧
      (reservedWord (16 * k)).byte 2 = 0 := by decide +kernel
  have zero : cell words a 0 = reservedWord (16 * (a.toNat / 16)) := by
    rw [init.reserved ha below (by decide), show 16 * (a.toNat / 16) = a.toNat + 0 by omega]
  obtain ⟨tag, size, mark⟩ := facts (a.toNat / 16) (by omega)
  refine ⟨ha, by rw [zero, tag], by rw [zero, size], by rw [zero, mark], ?_⟩
  by_cases literal : a.toNat / 16 < 4
  · have tags : ∀ k < 4, (⟨(k + 1).toUInt8⟩ : Tag) = .nil ∨ (⟨(k + 1).toUInt8⟩ : Tag) = .unassigned ∨
        (⟨(k + 1).toUInt8⟩ : Tag) = .true ∨ (⟨(k + 1).toUInt8⟩ : Tag) = .false := by decide
    rw [reservedValue, if_pos literal]
    exact tags _ literal
  · have fields : ∀ k < 14, 4 ≤ k → (reservedWord (16 * k)).byte 3 = (k - 4).toUInt8 ∧
        ((reservedWord (16 * k)).byte 4).toNat = (Builtin.table[k - 4]?.map (·.2)).getD 0 := by
      decide +kernel
    rw [reservedValue, if_neg literal, Body, zero]
    exact fields _ (by omega) (by omega)

theorem Initial.shows_frame (init : Initial size words) :
    Shows words builtinsFrame (.frame builtinSlots) := by
  have ha := init.sized.nodeIn_low (a := builtinsFrame) (by decide) (by decide)
  have word : ∀ i < 16, cell words builtinsFrame i = reservedWord (224 + i) := fun i hi =>
    init.reserved ha (by decide) hi
  refine ⟨ha, ?_, ?_, ?_, by decide, ?_⟩
  · rw [word 0 (by decide)]
    decide +kernel
  · rw [word 0 (by decide)]
    decide +kernel
  · rw [word 0 (by decide)]
    decide +kernel
  · have slots : ∀ i < 10, (reservedWord (224 + (1 + i))).low = (64 + 16 * i).toUInt32 := by
      decide +kernel
    intro i x get
    have lt : i < 10 := by simpa [builtinSlots, Builtin.count] using (List.getElem?_eq_some_iff.1 get).1
    rw [word (1 + i) (by omega), slots i lt]
    simpa [builtinSlots, Builtin.count, lt] using get

theorem Initial.shows_env (init : Initial size words) :
    Shows words globalEnv (.environment [builtinsFrame]) := by
  have ha := init.sized.nodeIn_low (a := globalEnv) (by decide) (by decide)
  have word : ∀ i < 16, cell words globalEnv i = reservedWord (240 + i) := fun i hi =>
    init.reserved ha (by decide) hi
  refine ⟨ha, ?_, ?_, ?_, by decide, ?_⟩
  · rw [word 0 (by decide)]
    decide +kernel
  · rw [word 0 (by decide)]
    decide +kernel
  · rw [word 0 (by decide)]
    decide +kernel
  · intro i x get
    have lt : i < 1 := (List.getElem?_eq_some_iff.1 get).1
    obtain rfl : i = 0 := by omega
    obtain rfl := Option.some.inj get
    rw [word (1 + 0) (by decide)]
    decide +kernel

end

end Heap

open Heap

theorem reservedValue_fits {D : Typing} {k : Nat} (small : k < 14) : (reservedValue k).Fits D .value := by
  rw [reservedValue]
  split
  · trivial
  · have rows : ∀ k < 14, 4 ≤ k → Builtin.table[(k - 4).toUInt8.toNat]?.map (·.2) =
        some ((Builtin.table[k - 4]?.map (·.2)).getD 0) := by decide
    exact rows _ small (by omega)

theorem reservedValue_reserved (k : Nat) : (reservedValue k).IsReserved ∧ ∀ c, c ∉ (reservedValue k).references := by
  rw [reservedValue]
  split
  · exact ⟨trivial, fun c mem => nomatch mem⟩
  · exact ⟨trivial, fun c mem => nomatch mem⟩

theorem Reserved.unique {a : Addr} {r s : Role} (first : Reserved a r) (second : Reserved a s) : r = s := by
  -- The values stand below the frame of the builtins, and that stands below the environment.
  cases r <;> cases s <;> first | rfl | exact first.elim | exact second.elim | skip
  · exact absurd (show a = builtinsFrame from second) (UInt32.ne_of_lt first.2)
  · obtain rfl := second
    exact absurd first.2 (by decide)
  · exact absurd (show a = builtinsFrame from first) (UInt32.ne_of_lt second.2)
  · exact absurd (first.symm.trans second) (by decide)
  · obtain rfl := first
    exact absurd second.2 (by decide)
  · exact absurd (first.symm.trans second) (by decide)

/-- Two new heaps, of whatever sizes, mirror each other. -/
theorem create_mirror {size₁ size₂ : Int} {h₁ h₂ : Heap} (made₁ : Heap.create size₁ = .ok h₁)
    (made₂ : Heap.create size₂ = .ok h₂) : Mirror ⟨Reserved, id, fun _ => False⟩ h₁ h₂ := by
  obtain ⟨init₁, -⟩ := create_initial made₁
  obtain ⟨init₂, -⟩ := create_initial made₂
  exact {
    sound₁ := create_sound made₁
    sound₂ := create_sound made₂
    nodes := by
      intro a r res
      rw [show World.image ⟨Reserved, id, fun _ => False⟩ = id from rfl]
      simp only [Node.map_id, id]
      cases r with
      | value =>
        obtain ⟨aligned, low⟩ := res
        refine ⟨_, init₁.shows_value aligned low, ⟨reservedValue_fits ?_, fun _ => ?_, fun _ _ _ => id⟩,
          init₂.shows_value aligned low⟩
        · rw [UInt32.lt_iff_toNat_lt, show builtinsFrame.toNat = 224 from rfl] at low
          omega
        · exact ⟨(reservedValue_reserved _).1, fun c mem => absurd mem ((reservedValue_reserved _).2 c)⟩
      | frame =>
        obtain rfl := res
        have slots : ∀ x ∈ builtinSlots, x.toNat % 16 = 0 ∧ x < builtinsFrame := fun _ => mem_builtinSlots
        refine ⟨_, init₁.shows_frame, ⟨fun x mem => .inr (slots x mem),
          fun _ => ⟨trivial, fun c mem => ?_⟩, fun _ _ _ => id⟩, init₂.shows_frame⟩
        exact UInt32.lt_trans (slots c mem).2 (by decide)
      | environment =>
        obtain rfl := res
        refine ⟨_, init₁.shows_env, ⟨⟨[], rfl, rfl, by simp⟩, fun _ => ⟨trivial, fun c mem => ?_⟩, fun _ _ _ => id⟩,
          init₂.shows_env⟩
        rw [List.mem_singleton.1 mem]
        decide
      | _ => exact res.elim
    unique := fun _ _ _ => Reserved.unique
    injective := fun _ _ _ _ _ _ e => e
    low := fun _ _ => rfl
    high := fun _ _ _ le => le
    none := rfl
    reserved := fun _ _ res => res
    recent := fun _ recent => recent.elim }

end FiberVm
