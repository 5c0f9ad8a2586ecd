import FiberVm.Proofs.Heap.Mark

/-!
# What a node stands for

A node in use stands for a literal, a number, a scope, a channel and so on. `Shows` ties the sixteen
cells of a node to what it stands for; nothing about the unused cells, or about the upper halves of
references, enters it. Rings are the only layout with more than one form: where a ring begins is left
open, its items in order are not.
-/

set_option autoImplicit false

namespace FiberVm

/-- What a node in use stands for. -/
inductive Node
  | literal (tag : Tag)
  | int (n : Int64)
  | builtin (b : Builtin) (arity : Nat)
  | frame (slots : List Addr)
  | environment (frames : List Addr)
  | callframe (pc : Nat) (env : Addr)
  | blockframe (env : Addr)
  | closure (arity pc : Nat) (env : Addr)
  | channel (capacity : Nat) (closed : Bool) (senders receivers : Addr) (items : List Addr)
  | queue (waiters : List Waiter)
  | group (counter : Int32) (waiters : List Word)

namespace Node

def tag : Node → Tag
  | literal t => t
  | int _ => .int
  | builtin _ _ => .builtin
  | frame _ => .frame
  | environment _ => .environment
  | callframe _ _ => .callframe
  | blockframe _ => .blockframe
  | closure _ _ _ => .closure
  | channel _ _ _ _ _ => .intChannel
  | queue _ => .waitQueue
  | group _ _ => .waitGroup

def size : Node → Nat
  | literal _ | builtin _ _ => 1
  | int _ | callframe _ _ | blockframe _ | closure _ _ _ => 2
  | frame xs | environment xs => xs.length + 1
  | channel capacity _ _ _ _ => 3 + capacity
  | queue _ | group _ _ => 16

/-- The addresses that the node keeps alive. -/
def references : Node → List Addr
  | frame xs | environment xs => xs
  | callframe _ e | blockframe e | closure _ _ e => [e]
  | channel _ _ s r items => s :: r :: items
  | queue ws => (ws.map Waiter.value).filter (· != noAddr)
  | literal _ | int _ | builtin _ _ | group _ _ => []

def map (ρ : Addr → Addr) : Node → Node
  | frame xs => frame (xs.map ρ)
  | environment xs => environment (xs.map ρ)
  | callframe pc e => callframe pc (ρ e)
  | blockframe e => blockframe (ρ e)
  | closure k pc e => closure k pc (ρ e)
  | channel cap closed s r items => channel cap closed (ρ s) (ρ r) (items.map ρ)
  | queue ws => queue (ws.map fun w => { w with value := ρ w.value })
  | literal t => literal t
  | int n => int n
  | builtin b k => builtin b k
  | group n ws => group n ws

@[simp] theorem tag_map (ρ : Addr → Addr) (n : Node) : (n.map ρ).tag = n.tag := by
  cases n <;> rfl

@[simp] theorem map_id (n : Node) : n.map id = n := by
  cases n <;> simp [map]

end Node

namespace Heap

/-- Cells `start`, `start + 1`, … read through `f` are `xs`. -/
def Slots {α : Type} (f : Word → α) (N : Nat → Word) (start : Nat) (xs : List α) : Prop :=
  ∀ i x, xs[i]? = some x → f (N (start + i)) = x

/-- The ring of `ring` cells from `start` on holds `xs`, oldest first; `first` is where the oldest
stands and `next` is where one more would go. -/
structure Ring {α : Type} (f : Word → α) (N : Nat → Word) (start ring first next count : Nat)
    (xs : List α) : Prop where
  count : count = xs.length
  room : xs.length ≤ ring
  first_lt : 0 < ring → first < ring
  next_eq : 0 < ring → next = (first + xs.length) % ring
  items : ∀ i x, xs[i]? = some x → f (N (start + (first + i) % ring)) = x

/-- The fields and the payload that belong to the tag. -/
def Body (N : Nat → Word) : Node → Prop
  | .literal t => t = .nil ∨ t = .unassigned ∨ t = .true ∨ t = .false
  | .int n => (N 1).toInt64 = n
  | .builtin b k => (N 0).byte 3 = b.number ∧ ((N 0).byte 4).toNat = k
  | .frame xs | .environment xs => xs.length ≤ 15 ∧ Slots Word.low N 1 xs
  | .callframe pc e => (N 0).high.toNat = pc ∧ (N 1).low = e
  | .blockframe e => (N 1).low = e
  | .closure k pc e => ((N 0).byte 3).toNat = k ∧ (N 0).high.toNat = pc ∧ (N 1).low = e
  | .channel cap closed s r items =>
    cap ≤ 13 ∧ ((N 0).byte 7).toNat = cap ∧ ((N 0).byte 5 != 0) = closed ∧
      (N 1).low = s ∧ (N 2).low = r ∧
      Ring Word.low N 3 cap ((N 0).byte 4).toNat ((N 0).byte 3).toNat ((N 0).byte 6).toNat items
  | .queue ws =>
    Ring Waiter.ofWord N 1 15 ((N 0).byte 3).toNat ((N 0).byte 4).toNat ((N 0).byte 5).toNat ws
  | .group n ids =>
    (N 0).high.toInt32 = n ∧ ids.length ≤ 15 ∧ ((N 0).byte 3).toNat = ids.length ∧ Slots id N 1 ids

/-- The node at `a` stands for `n`. -/
structure Shows (words : Array Word) (a : Addr) (n : Node) : Prop where
  node : NodeIn words a
  tag : (cell words a 0).byte 0 = n.tag.number
  size : ((cell words a 0).byte 1).toNat = n.size
  unmarked : (cell words a 0).byte 2 = 0
  body : Body (cell words a) n

section Deciding

variable {α : Type} (f : Word → α) (N : Nat → Word) (start ring first next count : Nat) (xs : List α)

instance (words : Array Word) (a : Addr) : Decidable (NodeIn words a) := inferInstanceAs (Decidable (_ ∧ _))

theorem forall_fin_iff (q : Nat → α → Prop) : (∀ i : Fin xs.length, q i xs[i]) ↔ ∀ i x, xs[i]? = some x → q i x := by
  refine ⟨fun all i x get => ?_, fun all i => all i _ (List.getElem?_eq_getElem i.isLt)⟩
  obtain ⟨lt, rfl⟩ := List.getElem?_eq_some_iff.1 get
  exact all ⟨i, lt⟩

theorem ring_iff : Ring f N start ring first next count xs ↔ count = xs.length ∧ xs.length ≤ ring ∧
    (0 < ring → first < ring) ∧ (0 < ring → next = (first + xs.length) % ring) ∧
    ∀ i : Fin xs.length, f (N (start + (first + i) % ring)) = xs[i] := by
  have items := forall_fin_iff xs fun i x => f (N (start + (first + i) % ring)) = x
  exact ⟨fun r => ⟨r.count, r.room, r.first_lt, r.next_eq, items.2 r.items⟩,
    fun ⟨count, room, first_lt, next_eq, all⟩ => ⟨count, room, first_lt, next_eq, items.1 all⟩⟩

variable [DecidableEq α]

instance : Decidable (Slots f N start xs) := decidable_of_iff _ (forall_fin_iff xs fun i x => f (N (start + i)) = x)

instance : Decidable (Ring f N start ring first next count xs) := decidable_of_iff' _ (ring_iff ..)

instance : (n : Node) → Decidable (Body N n)
  | .literal _ => inferInstanceAs (Decidable (_ ∨ _))
  | .int _ => inferInstanceAs (Decidable (_ = _))
  | .builtin _ _ | .frame _ | .environment _ | .callframe _ _ | .closure _ _ _ | .channel _ _ _ _ _ | .group _ _ =>
    inferInstanceAs (Decidable (_ ∧ _))
  | .blockframe _ => inferInstanceAs (Decidable (_ = _))
  | .queue _ => inferInstanceAs (Decidable (Ring ..))

theorem shows_iff {words : Array Word} {a : Addr} {n : Node} : Shows words a n ↔ NodeIn words a ∧
    (cell words a 0).byte 0 = n.tag.number ∧ ((cell words a 0).byte 1).toNat = n.size ∧
    (cell words a 0).byte 2 = 0 ∧ Body (cell words a) n :=
  ⟨fun s => ⟨s.node, s.tag, s.size, s.unmarked, s.body⟩,
    fun ⟨node, tag, size, unmarked, body⟩ => ⟨node, tag, size, unmarked, body⟩⟩

instance (words : Array Word) (a : Addr) (n : Node) : Decidable (Shows words a n) := decidable_of_iff' _ shows_iff

end Deciding

section Lists

variable {α : Type} {f : Word → α} {N N' : Nat → Word} {start ring first next count : Nat}
  {xs : List α}

theorem Slots.map_range (slots : Slots f N start xs) :
    (List.range xs.length).map (fun i => f (N (start + i))) = xs := by
  apply List.ext_getElem?
  intro i
  by_cases lt : i < xs.length
  · rw [List.getElem?_map, List.getElem?_range lt, List.getElem?_eq_getElem lt]
    exact congrArg some (slots i _ (List.getElem?_eq_getElem lt))
  · simp [lt]

theorem Slots.congr (slots : Slots f N start xs)
    (same : ∀ i < xs.length, N' (start + i) = N (start + i)) : Slots f N' start xs := by
  intro i x get
  rw [same i (List.getElem?_eq_some_iff.1 get).1]
  exact slots i x get

theorem Ring.map_range (r : Ring f N start ring first next count xs) :
    (List.range xs.length).map (fun i => f (N (start + (first + i) % ring))) = xs := by
  apply List.ext_getElem?
  intro i
  by_cases lt : i < xs.length
  · rw [List.getElem?_map, List.getElem?_range lt, List.getElem?_eq_getElem lt]
    exact congrArg some (r.items i _ (List.getElem?_eq_getElem lt))
  · simp [lt]

theorem Ring.congr (r : Ring f N start ring first next count xs)
    (same : ∀ i < ring, N' (start + i) = N (start + i)) :
    Ring f N' start ring first next count xs := by
  refine ⟨r.count, r.room, r.first_lt, r.next_eq, fun i x get => ?_⟩
  have lt := (List.getElem?_eq_some_iff.1 get).1
  rw [same _ (Nat.mod_lt _ (by have := r.room; omega))]
  exact r.items i x get

theorem ring_index {i : Nat} (lt : first < ring) (hi : i ≤ ring) :
    (first + i) % ring = if first + i < ring then first + i else first + i - ring := by
  split
  · next inside => exact Nat.mod_eq_of_lt inside
  · rw [Nat.mod_eq_sub_mod (by omega), Nat.mod_eq_of_lt (by omega)]

/-- One more item, written where `next` says. -/
theorem Ring.push (r : Ring f N start ring first next count xs) (space : xs.length < ring) {w : Word}
    (put : N' (start + next) = w) (same : ∀ i < ring, i ≠ next → N' (start + i) = N (start + i)) :
    Ring f N' start ring first ((next + 1) % ring) (count + 1) (xs ++ [f w]) := by
  have lt := r.first_lt (by omega)
  have next_eq := r.next_eq (by omega)
  rw [ring_index lt (by omega)] at next_eq
  refine ⟨by simp [r.count], by rw [List.length_append]; exact space, r.first_lt, fun _ => ?_, fun i x get => ?_⟩
  · rw [List.length_append, List.length_singleton, ← Nat.add_assoc, next_eq,
      ← ring_index lt (by omega), Nat.mod_add_mod]
  · rcases Nat.lt_or_ge i xs.length with old | new
    · rw [List.getElem?_append_left old] at get
      have index := ring_index (i := i) lt (by omega)
      rw [same _ (Nat.mod_lt _ (by omega)) (by rw [index, next_eq]; split <;> split <;> omega)]
      exact r.items i x get
    · rw [List.getElem?_append_right new] at get
      obtain ⟨zero, rfl⟩ : i - xs.length = 0 ∧ f w = x := by
        rcases eq : i - xs.length with _ | k
        · rw [eq] at get
          exact ⟨rfl, Option.some.inj get⟩
        · rw [eq] at get
          cases get
      obtain rfl : i = xs.length := by omega
      rw [ring_index lt (by omega), ← next_eq, put]

/-- The oldest item is taken out; its cell no longer counts. -/
theorem Ring.pop {x : α} (r : Ring f N start ring first next count (x :: xs))
    (same : ∀ i < ring, i ≠ first → N' (start + i) = N (start + i)) :
    f (N (start + first)) = x ∧
      Ring f N' start ring ((first + 1) % ring) next (count - 1) xs := by
  have room : xs.length + 1 ≤ ring := r.room
  have lt := r.first_lt (by omega)
  have step : ∀ i, ((first + 1) % ring + i) % ring = (first + (i + 1)) % ring := by
    intro i
    rw [Nat.mod_add_mod]
    congr 1
    omega
  refine ⟨?_, by rw [r.count]; rfl, by omega, fun _ => Nat.mod_lt _ (by omega), fun pos => ?_,
    fun i y get => ?_⟩
  · have oldest := r.items 0 x rfl
    rwa [Nat.add_zero, Nat.mod_eq_of_lt lt] at oldest
  · rw [r.next_eq pos, step]
    rfl
  · have inside := (List.getElem?_eq_some_iff.1 get).1
    have index := ring_index (i := i + 1) lt (by omega)
    rw [step, same _ (Nat.mod_lt _ (by omega)) (by rw [index]; split <;> omega)]
    exact r.items (i + 1) y get

end Lists

section Shows

variable {words words' : Array Word} {a : Addr} {n : Node}

theorem Shows.tagAt (s : Shows words a n) : tagAt words a = n.tag := by
  rw [Heap.tagAt, s.tag]

theorem Shows.not_marked (s : Shows words a n) : ¬ Marked words a := by
  rw [Marked, Bool.not_eq_true, Word.isMarked_eq_false_iff, s.unmarked]

theorem Shows.layout (s : Shows words a n) : Layout words a := by
  have size := s.size
  have body := s.body
  unfold Layout
  rw [s.tagAt]
  cases n with
  | literal t =>
    rcases body with rfl | rfl | rfl | rfl
    all_goals exact size
  | int _ | builtin _ _ | callframe _ _ | blockframe _ | closure _ _ _ | queue _ | group _ _ =>
    exact size
  | frame xs | environment xs =>
    have le : xs.length ≤ 15 := body.1
    exact ⟨by rw [size]; simp [Node.size], by rw [size]; simp only [Node.size, nodeSize]; omega⟩
  | channel cap closed senders receivers items =>
    obtain ⟨le, capacity, -, -, -, ring⟩ := body
    refine ⟨by rw [size, capacity]; rfl, by rw [size]; simp only [Node.size, nodeSize]; omega, ?_⟩
    intro none
    have := ring.count
    have := ring.room
    omega

theorem Shows.refs (s : Shows words a n) : refs words a = n.references := by
  have size := s.size
  have body := s.body
  have tag := s.tagAt
  cases n with
  | literal t =>
    refine refs_of_scalar ?_
    rw [tag]
    rcases body with rfl | rfl | rfl | rfl <;> simp [IsScalar, Node.tag]
  | int _ | builtin _ _ | group _ _ =>
    refine refs_of_scalar ?_
    rw [tag]
    simp [IsScalar, Node.tag]
  | frame xs | environment xs =>
    rw [refs_of_pointers (by rw [tag]; simp [IsPointers, Node.tag]), size]
    exact body.2.map_range
  | callframe pc e =>
    rw [refs_of_pointers (by rw [tag]; simp [IsPointers, Node.tag]), size]
    exact congrArg (· :: []) body.2
  | blockframe e =>
    rw [refs_of_pointers (by rw [tag]; simp [IsPointers, Node.tag]), size]
    exact congrArg (· :: []) body
  | closure k pc e =>
    rw [refs_of_pointers (by rw [tag]; simp [IsPointers, Node.tag]), size]
    exact congrArg (· :: []) body.2.2
  | channel cap closed senders receivers items =>
    obtain ⟨-, capacity, -, sendq, recvq, ring⟩ := body
    rw [refs_of_channel tag, sendq, recvq, capacity, ringCells, List.map_map, ring.count]
    exact congrArg (fun l => senders :: receivers :: l) ring.map_range
  | queue ws =>
    have ring : Ring _ _ _ _ _ _ _ ws := body
    have values : (ringCells words a 1 ((cell words a 0).byte 3).toNat
        ((cell words a 0).byte 5).toNat maxChildren).map Word.low = ws.map Waiter.value := by
      rw [ringCells, List.map_map, ring.count]
      conv => rhs; rw [← ring.map_range, List.map_map]
      rfl
    rw [refs_of_queue tag, values]
    rfl

theorem Body.congr {N N' : Nat → Word} (body : Body N n) (same : ∀ i < nodeSize, N' i = N i)
    (size : n.size ≤ nodeSize) : Body N' n := by
  have zero := same 0 (by decide)
  have one := same 1 (by decide)
  have two := same 2 (by decide)
  unfold nodeSize at same size
  cases n with
  | literal _ => exact body
  | int _ | builtin _ _ | callframe _ _ | blockframe _ | closure _ _ _ =>
    simpa only [Body, zero, one] using body
  | frame xs | environment xs =>
    exact ⟨body.1, body.2.congr fun i lt => same (1 + i) (by have := body.1; omega)⟩
  | channel cap closed senders receivers items =>
    obtain ⟨le, capacity, flag, sendq, recvq, ring⟩ := body
    simp only [Body, zero, one, two]
    exact ⟨le, capacity, flag, sendq, recvq, ring.congr fun i lt => same (3 + i) (by omega)⟩
  | queue ws =>
    have ring : Ring _ _ _ _ _ _ _ ws := body
    simp only [Body, zero]
    exact ring.congr fun i lt => same (1 + i) (by omega)
  | group k ids =>
    obtain ⟨counter, le, count, slots⟩ := body
    simp only [Body, zero]
    exact ⟨counter, le, count, slots.congr fun i lt => same (1 + i) (by omega)⟩

theorem Shows.size_le (s : Shows words a n) : n.size ≤ nodeSize := by
  cases n with
  | frame xs | environment xs =>
    have := s.body.1
    simp only [Node.size, nodeSize]
    omega
  | channel cap closed senders receivers items =>
    have := s.body.1
    simp only [Node.size, nodeSize]
    omega
  | _ => simp only [Node.size, nodeSize]; omega

theorem Shows.of_same (s : Shows words a n) (same : SameNode words words' a)
    (size : words'.size = words.size) : Shows words' a n := by
  have zero := same 0 (by decide)
  refine ⟨(nodeIn_congr size).2 s.node, ?_, ?_, ?_, s.body.congr same s.size_le⟩
  · rw [zero, s.tag]
  · rw [zero, s.size]
  · rw [zero, s.unmarked]

/-- The tag tells what a node is; the four literals share one form. -/
theorem Shows.tag_cases (s : Shows words a n) {t : Tag} (tag : n.tag = t) :
    (t = .int → ∃ k, n = .int k) ∧ (t = .builtin → ∃ b k, n = .builtin b k) ∧
      (t = .callframe → ∃ pc e, n = .callframe pc e) ∧ (t = .blockframe → ∃ e, n = .blockframe e) ∧
      (t = .closure → ∃ k pc e, n = .closure k pc e) ∧
      (t = .intChannel → ∃ cap closed s r items, n = .channel cap closed s r items) ∧
      (t = .waitGroup → ∃ k ids, n = .group k ids) := by
  subst tag
  cases n with
  | literal t =>
    have literal : t = .nil ∨ t = .unassigned ∨ t = .true ∨ t = .false := s.body
    rcases literal with rfl | rfl | rfl | rfl
    all_goals exact ⟨nofun, nofun, nofun, nofun, nofun, nofun, nofun⟩
  | int k => exact ⟨fun _ => ⟨k, rfl⟩, nofun, nofun, nofun, nofun, nofun, nofun⟩
  | builtin b k => exact ⟨nofun, fun _ => ⟨b, k, rfl⟩, nofun, nofun, nofun, nofun, nofun⟩
  | callframe pc e => exact ⟨nofun, nofun, fun _ => ⟨pc, e, rfl⟩, nofun, nofun, nofun, nofun⟩
  | blockframe e => exact ⟨nofun, nofun, nofun, fun _ => ⟨e, rfl⟩, nofun, nofun, nofun⟩
  | closure k pc e => exact ⟨nofun, nofun, nofun, nofun, fun _ => ⟨k, pc, e, rfl⟩, nofun, nofun⟩
  | channel cap closed senders receivers items =>
    exact ⟨nofun, nofun, nofun, nofun, nofun, fun _ => ⟨cap, closed, senders, receivers, items, rfl⟩, nofun⟩
  | group k ids => exact ⟨nofun, nofun, nofun, nofun, nofun, nofun, fun _ => ⟨k, ids, rfl⟩⟩
  | frame _ | environment _ | queue _ => exact ⟨nofun, nofun, nofun, nofun, nofun, nofun, nofun⟩

theorem Shows.int_of_tag (s : Shows words a n) (tag : n.tag = .int) : ∃ k, n = .int k :=
  (s.tag_cases tag).1 rfl

theorem Shows.builtin_of_tag (s : Shows words a n) (tag : n.tag = .builtin) : ∃ b k, n = .builtin b k :=
  (s.tag_cases tag).2.1 rfl

theorem Shows.callframe_of_tag (s : Shows words a n) (tag : n.tag = .callframe) :
    ∃ pc e, n = .callframe pc e :=
  (s.tag_cases tag).2.2.1 rfl

theorem Shows.blockframe_of_tag (s : Shows words a n) (tag : n.tag = .blockframe) :
    ∃ e, n = .blockframe e :=
  (s.tag_cases tag).2.2.2.1 rfl

theorem Shows.closure_of_tag (s : Shows words a n) (tag : n.tag = .closure) :
    ∃ k pc e, n = .closure k pc e :=
  (s.tag_cases tag).2.2.2.2.1 rfl

theorem Shows.channel_of_tag (s : Shows words a n) (tag : n.tag = .intChannel) :
    ∃ cap closed s r items, n = .channel cap closed s r items :=
  (s.tag_cases tag).2.2.2.2.2.1 rfl

theorem Shows.group_of_tag (s : Shows words a n) (tag : n.tag = .waitGroup) : ∃ k ids, n = .group k ids :=
  (s.tag_cases tag).2.2.2.2.2.2 rfl

end Shows

end Heap

end FiberVm
