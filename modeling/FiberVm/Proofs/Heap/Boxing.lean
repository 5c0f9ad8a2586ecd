import FiberVm.Proofs.Heap.Constructors
import FiberVm.Proofs.Heap.FreeStack

/-!
# Values go on the heap and come back

Only integers take a node, one each, and a collection may come first. So it has to be said what boxing leaves alone:
all that the roots and the pins lead to, in a collection as well as in the node that is taken. Reading a value back,
or printing it, looks at one node only, and comes to the same in any two heaps that agree on that node.
-/

set_option autoImplicit false

namespace FiberVm

/-- What the constant is read back as, if it can be put on the heap. -/
def Constant.value? : Constant → Option Value
  | nil => some .nil
  | undefined => some .undefined
  | bool b => some (.bool b)
  | int _ n => some (.int n)
  | ref a => some (.ref a)
  | uint64 _ | float64 _ | string _ => none

/-- The value as a constant. -/
def Value.constant : Value → Constant
  | nil => .nil
  | undefined => .undefined
  | bool b => .bool b
  | int n => .int .int64 n
  | ref a => .ref a

theorem Value.value?_constant (x : Value) : x.constant.value? = some x := by
  cases x <;> rfl

namespace Heap

/-- The constant cannot be put on the heap: it is of another type, or leads to no channel or wait group. -/
def Unsupported (h : Heap) : Constant → Prop
  | .uint64 _ | .float64 _ | .string _ => True
  | .ref a => ¬ (a.toNat % nodeSize = 0 ∧ a.toNat < h.words.size ∧
      (tagAt h.words a = .intChannel ∨ tagAt h.words a = .waitGroup))
  | .nil | .undefined | .bool _ | .int _ _ => False

/-- No node is reclaimable: what is live leads to all of them. -/
def Full (h : Heap) (live : List Addr) : Prop := ∀ a, NodeIn h.words a → bottom ≤ a → Closure h.words live a

/-- The heaps that the allocator keeps, with the literals in their places and nothing live free. -/
structure Furnished (h : Heap) (free live : List Addr) : Prop extends WellFormed h free where
  nil : tagAt h.words nil = .nil
  unassigned : tagAt h.words unassigned = .unassigned
  true : tagAt h.words true = .true
  false : tagAt h.words false = .false
  valid : Valid h.words live

/-- Of the heap `h` exactly the node at `a`, a free one, has been taken for an integer. -/
structure TakesInt (h h' : Heap) (a : Addr) (n : Int64) : Prop where
  high : bottom ≤ a
  free : tagAt h.words a = .free
  shows : Shows h'.words a (.int n)
  size : h'.words.size = h.words.size
  pinned : h'.pinned = h.pinned
  others : ∀ b, NodeIn h.words b → b ≠ a → SameNode h.words h'.words b
  stats : h'.stats = { h.stats with
    allocations := h.stats.allocations + 1, freeNodes := h.stats.freeNodes - 1 }

/-- The heap that a node is taken from: as it was, or after a collection if none was free. -/
def Supplies (roots free : List Addr) (h h₁ : Heap) : Prop :=
  free ≠ [] ∧ h₁ = h ∨ free = [] ∧ ∃ k, collect roots h = .ok k h₁

/-- How boxing ends. -/
inductive Boxes (roots free : List Addr) (h : Heap) : Constant → EStateM.Result Failure Heap Addr → Prop
  /-- Literals and references are there already. -/
  | there {c : Constant} {a : Addr} {x : Value} : (∀ t n, c ≠ .int t n) → ¬ Unsupported h c → c.value? = some x →
    unbox a h = .ok x h → (∀ r, c = .ref r → a = r) → Boxes roots free h c (.ok a h)
  | refused {c : Constant} {cause : Cause} : Unsupported h c → cause.kind = .unsupportedTag →
    Boxes roots free h c (.error (.fault cause) h)
  /-- An integer takes a node. -/
  | taken {t : IntType} {n : Int64} {a : Addr} {h₁ h' : Heap} : ¬ Full h (roots ++ h.pinned) →
    Supplies roots free h h₁ → TakesInt h₁ h' a n → unbox a h' = .ok (.int n) h' → Boxes roots free h (.int t n) (.ok a h')
  | exhausted {t : IntType} {n : Int64} {h₁ : Heap} : Full h (roots ++ h.pinned) → Supplies roots free h h₁ →
    h₁.stats.allocations = h.stats.allocations →
    Boxes roots free h (.int t n) (.error (.fault (.outOfMemory h.stats.nodes)) h₁)

/-- The heap that an operation leaves, however it ends. -/
def left {α : Type} : EStateM.Result Failure Heap α → Heap
  | .ok _ h => h
  | .error _ h => h

section Reading

variable {h h' : Heap} {b : Addr} {α β : Type}

theorem reads_bind {x : HeapM α} {k : α → HeapM β} (still : Still x) (first : Commutes (fun _ => h') x h)
    (rest : ∀ a, Commutes (fun _ => h') (k a) h) : Commutes (fun _ => h') (x >>= k) h :=
  first.bind fun a _ run => still.ok run ▸ rest a

/-- Two heaps that agree on a node. -/
structure SameAt (h h' : Heap) (b : Addr) : Prop where
  node : NodeIn h.words b
  size : h'.words.size = h.words.size
  same : SameNode h.words h'.words b

namespace SameAt

theorem node' (s : SameAt h h' b) : NodeIn h'.words b := by
  exact (nodeIn_congr s.size).2 s.node

theorem header (s : SameAt h h' b) : Commutes (fun _ => h') (header b) h := by
  rw [Commutes, header_ok s.node, header_ok s.node', s.same 0 (by decide)]
  rfl

theorem tagOf (s : SameAt h h' b) : Commutes (fun _ => h') (tagOf b) h :=
  reads_bind (still_header b) s.header fun _ => rfl

theorem field (s : SameAt h h' b) (k : Nat) : Commutes (fun _ => h') (field b k) h :=
  reads_bind (still_header b) s.header fun _ => rfl

theorem wideField (s : SameAt h h' b) : Commutes (fun _ => h') (wideField b) h :=
  reads_bind (still_header b) s.header fun _ => rfl

theorem intValue (s : SameAt h h' b) : Commutes (fun _ => h') (intValue b) h := by
  refine reads_bind (still_payload b 0) ?_ fun _ => rfl
  rw [Commutes, payload_ok s.node (k := 0) (i := 0) rfl (by decide),
    payload_ok s.node' (k := 0) (i := 0) rfl (by decide),
    s.same (0 + 1) (by decide)]
  rfl

theorem builtinAt (s : SameAt h h' b) : Commutes (fun _ => h') (builtinAt b) h :=
  reads_bind (still_field b 3) (s.field 3) fun _ => reads_bind (still_field b 4) (s.field 4) fun _ => rfl

theorem closurePc (s : SameAt h h' b) : Commutes (fun _ => h') (closurePc b) h :=
  reads_bind (still_wideField b) s.wideField fun _ => rfl

theorem unbox (s : SameAt h h' b) : Commutes (fun _ => h') (unbox b) h := by
  refine reads_bind (still_tagOf b) s.tagOf fun tag => ?_
  split
  any_goals rfl
  exact reads_bind (still_intValue b) s.intValue fun _ => rfl

theorem format (s : SameAt h h' b) : Commutes (fun _ => h') (format b) h := by
  refine reads_bind (still_tagOf b) s.tagOf fun tag => ?_
  split
  any_goals rfl
  · exact reads_bind (still_intValue b) s.intValue fun _ => rfl
  · exact reads_bind (still_builtinAt b) s.builtinAt fun _ => rfl
  · exact reads_bind (still_closurePc b) s.closurePc fun _ => rfl

end SameAt

theorem unbox_noAddr (sized : Sized h.words) : unbox noAddr h = .error (.crash .outOfRange) h :=
  bind_of_error (tagOf_noAddr sized)

theorem format_noAddr (sized : Sized h.words) : format noAddr h = .error (.crash .outOfRange) h :=
  bind_of_error (tagOf_noAddr sized)

end Reading

section Boxing

open Making (Spared)

variable {h h₀ h₁ h' : Heap} {thunk : Roots} {free roots live : List Addr} {a b : Addr} {c : Constant} {n : Int64}

theorem TakesInt.unbox (takes : TakesInt h h' a n) : unbox a h' = .ok (.int n) h' :=
  (bind_of_ok (tagOf_shows takes.shows)).trans (bind_of_ok (intValue_shows takes.shows))

theorem newInt_of_take (sound : Sound h₀) (head : h₀.freeHead = some a)
    (allocates : allocate thunk .int 2 h = take .int 2 a h₀) (n : Int64) :
    ∃ h', newInt thunk n h = .ok a h' ∧ TakesInt h₀ h' a n := by
  obtain ⟨h₁, run, popped⟩ := take_popped sound head .int (show 2 ≤ nodeSize by decide)
  obtain ⟨h', fill, updates⟩ := fill_int popped.edited n
  refine ⟨h', (bind_of_ok (allocates.trans run)).trans fill, popped.high, popped.free, updates.shows,
    updates.size.trans popped.room, updates.pinned.trans popped.pinned, ?_, updates.stats.trans (take_stats run)⟩
  intro b node apart
  refine (popped.others b node apart).trans (updates.others b ?_ apart)
  exact (nodeIn_congr popped.room).2 node

theorem Furnished.not_full (f : h.Furnished free live) (mem : a ∈ free) : ¬ Full h live := by
  intro full
  obtain ⟨node, high⟩ := f.free_in a mem
  rcases f.valid a (full a node high) with none | ⟨-, low | used⟩
  · exact not_nodeIn_noAddr f.sized.small (none ▸ node)
  · exact UInt32.not_lt.2 high low
  · exact used (f.list.tagAt mem)

theorem Furnished.full_iff (f : h.Furnished free (roots ++ h.pinned)) (c : Collected h roots live h₁) :
    Full h (roots ++ h.pinned) ↔ live = [] := by
  have reaches : ∀ a, NodeIn h.words a → bottom ≤ a →
      (Closure h.words (roots ++ h.pinned) a ↔ Reaches h.words (roots ++ h.pinned) a) := fun a =>
    f.closure_iff f.valid
  constructor
  · intro full
    refine List.eq_nil_iff_forall_not_mem.2 fun a mem => ?_
    obtain ⟨node, high, dead⟩ := (c.mem_iff a).1 mem
    exact dead ((reaches a node high).1 (full a node high))
  · rintro rfl a node high
    refine (reaches a node high).2 (Classical.byContradiction fun dead => ?_)
    exact List.not_mem_nil ((c.mem_iff a).2 ⟨node, high, dead⟩)

theorem newInt_boxes (f : h.Furnished free (thunk.get ++ h.pinned)) (t : IntType) (n : Int64) :
    Boxes thunk.get free h (.int t n) (newInt thunk n h) := by
  have within : ¬ ((2 : Int) < 1 ∨ (nodeSize : Int) < 2) := by decide
  cases free with
  | cons a rest =>
    have head : h.freeHead = some a := f.list.uncons.1
    have allocates : allocate thunk .int 2 h = take .int 2 a h := by rw [allocate, if_neg within, head]; rfl
    obtain ⟨h', run, takes⟩ := newInt_of_take f.sound head allocates n
    rw [run]
    exact .taken (f.not_full List.mem_cons_self) (.inl ⟨List.cons_ne_nil a rest, rfl⟩) takes takes.unbox
  | nil =>
    -- No node is free, so a collection comes first, and it tells whether a node was reclaimable.
    have head : h.freeHead = none := f.list.empty
    have traceable := f.traceable f.valid
    obtain ⟨l, h₁, collects, c⟩ := collect_collected f.sized f.unmarked traceable
    have visits := (collect_visit thunk h.stats.collections f.sized f.unmarked traceable.traced).trans collects
    have supplies : Supplies thunk.get [] h h₁ := .inr ⟨rfl, _, collects⟩
    cases l with
    | nil =>
      have head₁ : h₁.freeHead = none := c.list.empty
      have allocates : allocate thunk .int 2 h = .error (.fault (.outOfMemory h.stats.nodes)) h₁ := by
        rw [allocate, if_neg within, head]
        simp only [visits, head₁, c.stats]
      rw [show newInt thunk n h = _ from bind_of_error allocates]
      exact .exhausted ((f.full_iff c).2 rfl) supplies (by rw [c.stats])
    | cons a rest =>
      have head₁ : h₁.freeHead = some a := c.list.uncons.1
      have allocates : allocate thunk .int 2 h = take .int 2 a h₁ := by
        rw [allocate, if_neg within, head]
        simp only [visits, head₁]
        rfl
      obtain ⟨h', run, takes⟩ := newInt_of_take (c.sound f.sized) head₁ allocates n
      rw [run]
      exact .taken (mt (f.full_iff c).1 (List.cons_ne_nil a rest)) supplies takes takes.unbox

theorem unbox_ref (node : NodeIn h.words a) (tag : tagAt h.words a = .intChannel ∨ tagAt h.words a = .waitGroup) :
    unbox a h = .ok (.ref a) h := by
  refine (bind_of_ok (tagOf_ok node)).trans ?_
  rcases tag with tag | tag
  all_goals
    rw [show (⟨(cell h.words a 0).byte 0⟩ : Tag) = _ from tag]
    rfl

theorem box_ref (f : h.Furnished free (thunk.get ++ h.pinned)) (a : Addr) :
    Boxes thunk.get free h (.ref a) (box thunk (.ref a) h) := by
  have unfolded : box thunk (.ref a) h = (if h.isNode a then (do
      let tag ← tagOf a
      if tag = .intChannel ∨ tag = .waitGroup then return a else fault (.refTo tag))
    else fault (.danglingRef a) : HeapM Addr) h := rfl
  have inside : h.isNode a ↔ a.toNat < h.words.size ∧ a.toNat % nodeSize = 0 := by
    simp only [isNode, Bool.and_eq_true, decide_eq_true_eq, beq_iff_eq]
  rw [unfolded]
  by_cases is : h.isNode a
  · obtain ⟨lt, aligned⟩ := inside.1 is
    have node : NodeIn h.words a := by
      have room := f.sized.aligned
      unfold NodeIn nodeSize at *
      omega
    rw [if_pos is, bind_of_ok (tagOf_ok node)]
    by_cases tag : tagAt h.words a = .intChannel ∨ tagAt h.words a = .waitGroup
    · rw [if_pos tag]
      exact .there (by simp) (not_not_intro ⟨aligned, lt, tag⟩) rfl (unbox_ref node tag) fun r same => (Constant.ref.inj same)
    · rw [if_neg tag]
      exact .refused (fun reference => tag reference.2.2) rfl
  · rw [if_neg is]
    exact .refused (fun reference => is (inside.2 ⟨reference.2.1, reference.1⟩)) rfl

theorem unbox_literal {x : Value} (f : h.Furnished free live) (aligned : a.toNat % nodeSize = 0) (low : a < bottom)
    {tag : Tag} (has : tagAt h.words a = tag) (reads : tag = .nil ∧ x = .nil ∨ tag = .unassigned ∧ x = .undefined ∨
      tag = .true ∧ x = .bool Bool.true ∨ tag = .false ∧ x = .bool Bool.false) : unbox a h = .ok x h := by
  refine (bind_of_ok (tagOf_ok (f.sized.nodeIn_low aligned low))).trans ?_
  rw [show (⟨(cell h.words a 0).byte 0⟩ : Tag) = _ from has]
  rcases reads with ⟨rfl, rfl⟩ | ⟨rfl, rfl⟩ | ⟨rfl, rfl⟩ | ⟨rfl, rfl⟩
  all_goals rfl

theorem box_boxes (f : h.Furnished free (thunk.get ++ h.pinned)) (c : Constant) :
    Boxes thunk.get free h c (box thunk c h) := by
  cases c with
  | nil => exact .there nofun id rfl (unbox_literal f rfl (by decide) f.nil (by simp)) nofun
  | undefined => exact .there nofun id rfl (unbox_literal f rfl (by decide) f.unassigned (by simp)) nofun
  | bool b =>
    cases b with
    | true => exact .there nofun id rfl (unbox_literal f rfl (by decide) f.true (by simp)) nofun
    | false => exact .there nofun id rfl (unbox_literal f rfl (by decide) f.false (by simp)) nofun
  | int t n => exact newInt_boxes f t n
  | ref a => exact box_ref f a
  | uint64 _ => exact .refused trivial rfl
  | float64 _ => exact .refused trivial rfl
  | string _ => exact .refused trivial rfl

/-- Reserved and live nodes are what they were when the node is taken, also after a collection. -/
theorem Supplies.same (f : h.Furnished free (roots ++ h.pinned)) (supplies : Supplies roots free h h₁)
    (node : NodeIn h.words b) (held : b < bottom ∨ Closure h.words (roots ++ h.pinned) b) : SameAt h h₁ b := by
  rcases supplies with ⟨-, rfl⟩ | ⟨-, k, collects⟩
  · exact ⟨node, rfl, fun _ _ => rfl⟩
  · obtain ⟨l, h₂, run, c⟩ := collect_collected f.sized f.unmarked (f.traceable f.valid)
    cases collects.symm.trans run
    have spared := Spared.of_kept f.toWellFormed f.valid (c.kept f.sized)
    exact ⟨node, c.size, spared.same b node held⟩

variable {r : EStateM.Result Failure Heap Addr}

/-- Boxing leaves alone what is reserved or live. -/
theorem Boxes.same (f : h.Furnished free (roots ++ h.pinned)) (boxes : Boxes roots free h c r) (node : NodeIn h.words b)
    (held : b < bottom ∨ Closure h.words (roots ++ h.pinned) b) : SameAt h (left r) b := by
  cases boxes with
  | there => exact ⟨node, rfl, fun _ _ => rfl⟩
  | refused => exact ⟨node, rfl, fun _ _ => rfl⟩
  | exhausted _ supplies => exact supplies.same f node held
  | @taken _ _ a h₁ h' _ supplies takes =>
    have before := supplies.same f node held
    -- The node that is taken was free, also after a collection, and what is reserved or live is not.
    have apart : b ≠ a := by
      rintro rfl
      have low : ¬ b < bottom := UInt32.not_lt.2 takes.high
      rcases f.valid b (held.resolve_left low) with none | ⟨-, used⟩
      · exact not_nodeIn_noAddr f.sized.small (none ▸ node)
      · exact used.resolve_left low (before.same.sameBody.tagAt.symm.trans takes.free)
    exact ⟨node, takes.size.trans before.size, before.same.trans (takes.others b before.node' apart)⟩

/-- Values that are live are read back and printed as before. -/
theorem Boxes.readings (f : h.Furnished free (roots ++ h.pinned)) (boxes : Boxes roots free h c r)
    (closure : Closure h.words (roots ++ h.pinned) b) :
    Commutes (fun _ => left r) (unbox b) h ∧ Commutes (fun _ => left r) (format b) h := by
  rcases f.valid b closure with rfl | ⟨node, -⟩
  · -- A place without a value is no node, and reading it crashes in any heap.
    have size := (boxes.same f (f.sized.nodeIn_low (a := Heap.nil) rfl (by decide)) (.inl (by decide))).size
    have sized : Sized (left r).words := f.sized.congr size
    unfold Commutes
    rw [unbox_noAddr sized, unbox_noAddr f.sized, format_noAddr sized, format_noAddr f.sized]
    exact ⟨rfl, rfl⟩
  · have same := boxes.same f node (.inr closure)
    exact ⟨same.unbox, same.format⟩

theorem Boxes.unboxes (boxes : Boxes roots free h c (.ok a h')) : ∃ x, c.value? = some x ∧ unbox a h' = .ok x h' := by
  cases boxes with
  | there _ _ value reads => exact ⟨_, value, reads⟩
  | taken _ _ _ reads => exact ⟨_, rfl, reads⟩

theorem Boxes.unsupported_iff (boxes : Boxes roots free h c r) :
    (∃ cause h', r = .error (.fault cause) h' ∧ cause.kind = .unsupportedTag) ↔ Unsupported h c := by
  cases boxes with
  | there _ supported =>
    constructor
    · rintro ⟨_, _, error, -⟩
      cases error
    · exact fun no => absurd no supported
  | refused no kind => exact ⟨fun _ => no, fun _ => ⟨_, _, rfl, kind⟩⟩
  | taken =>
    constructor
    · rintro ⟨_, _, error, -⟩
      cases error
    · exact False.elim
  | exhausted =>
    constructor
    · rintro ⟨_, _, error, kind⟩
      cases error
      cases kind
    · exact False.elim

theorem Boxes.exhausted_iff (boxes : Boxes roots free h c r) :
    (∃ cause h', r = .error (.fault cause) h' ∧ cause.kind = .outOfMemory) ↔
      (∃ t n, c = .int t n) ∧ Full h (roots ++ h.pinned) := by
  cases boxes with
  | there other =>
    constructor
    · rintro ⟨_, _, error, -⟩
      cases error
    · rintro ⟨⟨t, n, rfl⟩, -⟩
      exact absurd rfl (other t n)
  | refused no kind =>
    constructor
    · rintro ⟨_, _, error, kind'⟩
      cases error
      cases kind.symm.trans kind'
    · rintro ⟨⟨t, n, rfl⟩, -⟩
      exact no.elim
  | taken room =>
    constructor
    · rintro ⟨_, _, error, -⟩
      cases error
    · exact fun full => absurd full.2 room
  | exhausted full => exact ⟨fun _ => ⟨⟨_, _, rfl⟩, full⟩, fun _ => ⟨_, _, rfl, rfl⟩⟩

/-- A node that is read back as a reference is a channel or a wait group, and the one referred to. -/
theorem ref_of_unbox (node : NodeIn h.words b) (reads : unbox b h = .ok (.ref a) h) :
    a = b ∧ (tagAt h.words b = .intChannel ∨ tagAt h.words b = .waitGroup) := by
  have first (k : Tag → HeapM Value) : (tagOf b >>= k).run h = (k (tagAt h.words b)).run h :=
    bind_of_ok (tagOf_ok node)
  have int (k : Int64 → HeapM Value) : ∃ n, (intValue b >>= k).run h = (k n).run h :=
    ⟨_, bind_of_ok (bind_of_ok (payload_ok node (k := 0) (i := 0) rfl (by decide)))⟩
  have reads : (Heap.unbox b).run h = .ok (.ref a) h := reads
  rw [Heap.unbox, first] at reads
  generalize tagged : tagAt h.words b = tag at reads
  split at reads
  case h_5 =>
    obtain ⟨n, run⟩ := int fun n => return .int n
    cases run.symm.trans reads
  case h_6 =>
    cases reads
    exact ⟨rfl, .inl rfl⟩
  case h_7 =>
    cases reads
    exact ⟨rfl, .inr rfl⟩
  all_goals cases reads

theorem supported_of_unbox {x : Value} (node : NodeIn h.words b) (reads : Heap.unbox b h = .ok x h) :
    ¬ Unsupported h x.constant := by
  cases x with
  | ref a =>
    obtain ⟨rfl, tag⟩ := ref_of_unbox node reads
    have inside := node.2
    unfold nodeSize at inside
    exact not_not_intro ⟨node.1, by omega, tag⟩
  | _ => exact id

/-- What has been read back from a node may be boxed again. -/
theorem Boxes.again {x : Value} (node : NodeIn h.words b) (reads : unbox b h = .ok x h)
    (boxes : Boxes roots free h x.constant r) :
    (∃ h', r = .error (.fault (.outOfMemory h.stats.nodes)) h') ∨ ∃ a h', r = .ok a h' ∧ unbox a h' = .ok x h' := by
  have supported := supported_of_unbox node reads
  generalize same : x.constant = c at boxes supported
  have value : c.value? = some x := same ▸ x.value?_constant
  cases boxes with
  | there _ _ value' reads' =>
    cases value'.symm.trans value
    exact .inr ⟨_, _, rfl, reads'⟩
  | refused no _ => exact absurd no supported
  | taken _ _ _ reads' =>
    cases value
    exact .inr ⟨_, _, rfl, reads'⟩
  | exhausted => exact .inl ⟨_, rfl⟩

/-- **Boxing and unboxing are inverse.** Take any heap that the allocator keeps, with any roots. Boxing a constant does
not crash. An address that it returns is read back as the constant, with integers of every type widened. It is refused
exactly if the constant is of another type or leads to no channel or wait group, and short of memory exactly if it is an
integer and no node is reclaimable. Nothing but an integer changes the heap, and that takes one node. However it ends,
all values that the roots and the pins lead to are read back and printed as before. And what any node is read back as
can be boxed, unless memory is short, and is read back the same. -/
theorem box_unbox (f : h.Furnished free (thunk.get ++ h.pinned)) :
    (∀ c, Boxes thunk.get free h c (box thunk c h) ∧
      (∀ a h', box thunk c h = .ok a h' → ∃ x, c.value? = some x ∧ unbox a h' = .ok x h') ∧
      ((∃ cause h', box thunk c h = .error (.fault cause) h' ∧ cause.kind = .unsupportedTag) ↔ Unsupported h c) ∧
      ((∃ cause h', box thunk c h = .error (.fault cause) h' ∧ cause.kind = .outOfMemory) ↔
        (∃ t n, c = .int t n) ∧ Full h (thunk.get ++ h.pinned)) ∧
      ∀ b, Closure h.words (thunk.get ++ h.pinned) b →
        unbox b (left (box thunk c h)) = after (fun _ => left (box thunk c h)) (unbox b h) ∧
        format b (left (box thunk c h)) = after (fun _ => left (box thunk c h)) (format b h)) ∧
    ∀ b x, NodeIn h.words b → unbox b h = .ok x h →
      (∃ h', box thunk x.constant h = .error (.fault (.outOfMemory h.stats.nodes)) h') ∨
      ∃ a h', box thunk x.constant h = .ok a h' ∧ unbox a h' = .ok x h' := by
  refine ⟨fun c => ?_, fun b x node reads => (box_boxes f x.constant).again node reads⟩
  have boxes := box_boxes f c
  refine ⟨boxes, ?_, boxes.unsupported_iff, boxes.exhausted_iff, fun b closure => boxes.readings f closure⟩
  intro a h' run
  exact (run ▸ boxes).unboxes

end Boxing

/-- The heap of the frame that holds itself, its last node taken by an integer that nothing leads to. -/
def crowded : Heap :=
  { ouroboros with
    words := (ouroboros.words.setIfInBounds 272 (freshHeader .int 2)).setIfInBounds 273 3
    freeHead := none
    stats := { ouroboros.stats with freeNodes := 0, allocations := 18 } }

theorem size_crowded : crowded.words.size = 288 := by
  simp only [crowded, Array.size_setIfInBounds, size_ouroboros]

theorem household_crowded :
    household.all fun x => ((references crowded.words x).toOption.getD []).all household.contains := by
  decide +kernel

theorem furnished_crowded : crowded.Furnished [] ([globalEnv, 256] ++ crowded.pinned) := by
  have frame : Shows crowded.words 256 (.frame [256]) := by decide +kernel
  have int : Shows crowded.words 272 (.int 3) := by decide +kernel
  have wf : crowded.WellFormed [] := wellFormed_small size_crowded (by decide +kernel) (by decide +kernel) .nil .nil
    nofun (.inr ⟨_, frame⟩) (.inr ⟨_, int⟩)
  have valid : Valid crowded.words [globalEnv, 256] := valid_household household_crowded (by decide +kernel)
  exact ⟨wf, by decide +kernel, by decide +kernel, by decide +kernel, by decide +kernel, valid⟩

theorem closure_crowded : Closure crowded.words ([globalEnv, 256] ++ crowded.pinned) 256 := .root (by simp)

theorem not_full_crowded : ¬ Full crowded ([globalEnv, 256] ++ crowded.pinned) := by
  intro full
  have node : NodeIn crowded.words 272 := by decide +kernel
  have mem := (full 272 node (by decide)).mem_of_closed roots_household household_crowded
  exact absurd mem (by decide)

/-- Of the two nodes that are not reserved the frame is live, and so the other one is taken, after a collection. -/
theorem taken_crowded {h₁ h' : Heap} {a : Addr} {n : Int64} (supplies : Supplies [globalEnv, 256] [] crowded h₁)
    (takes : TakesInt h₁ h' a n) : a = 272 ∧ h'.stats.collections = 1 := by
  have frame := supplies.same furnished_crowded (by decide +kernel) (.inr closure_crowded)
  have node : NodeIn crowded.words a := (nodeIn_congr (takes.size.trans frame.size)).1 takes.shows.node
  constructor
  · refine (high_small size_crowded node takes.high).resolve_left ?_
    rintro rfl
    have used : tagAt crowded.words 256 ≠ .free := by decide +kernel
    exact used (frame.same.sameBody.tagAt.symm.trans takes.free)
  · rcases supplies with ⟨some, -⟩ | ⟨-, k, collects⟩
    · exact absurd rfl some
    · obtain ⟨l, h₂, run, c⟩ := collect_collected furnished_crowded.sized furnished_crowded.unmarked
        (furnished_crowded.traceable furnished_crowded.valid)
      cases collects.symm.trans run
      rw [takes.stats, c.stats]
      rfl

/-- No node is free, so an integer is boxed after a collection, in the node of the integer that was there. The frame
that holds itself is printed as before, and false is boxed again. -/
theorem box_unbox_crowded : crowded.freeHead = none ∧ (unbox 272).run' crowded = some (.int 3) ∧
    ∃ h', box (.pure [globalEnv, 256]) (.int .uint8 7) crowded = .ok 272 h' ∧ h'.stats.collections = 1 ∧
      unbox 272 h' = .ok (.int 7) h' ∧ format 256 h' = after (fun _ => h') (format 256 crowded) ∧
      ∃ a h'', box (.pure [globalEnv, 256]) (.bool Bool.false) crowded = .ok a h'' ∧
        unbox a h'' = .ok (.bool Bool.false) h'' := by
  obtain ⟨boxed, again⟩ := box_unbox
    (show crowded.Furnished [] ((Roots.pure [globalEnv, 256]).get ++ crowded.pinned) from furnished_crowded)
  obtain ⟨boxes, unboxes, -, -, live⟩ := boxed (.int .uint8 7)
  have printed := (live 256 closure_crowded).2
  have literal : NodeIn crowded.words Heap.false := by decide +kernel
  have reads : unbox Heap.false crowded = .ok (.bool Bool.false) crowded :=
    unbox_literal furnished_crowded rfl (by decide) furnished_crowded.false (by simp)
  have again := (again _ _ literal reads).resolve_left (by rintro ⟨_, error⟩; cases error)
  generalize box (Roots.pure [globalEnv, 256]) (.int .uint8 7) crowded = r at boxes unboxes printed
  cases boxes with
  | there other => exact absurd rfl (other _ _)
  | refused no => exact no.elim
  | exhausted full => exact absurd full not_full_crowded
  | taken _ supplies takes =>
    obtain ⟨rfl, collected⟩ := taken_crowded supplies takes
    obtain ⟨x, value, reads⟩ := unboxes _ _ rfl
    cases value
    exact ⟨rfl, by decide +kernel, _, rfl, collected, reads, printed, again⟩

end Heap

end FiberVm
