import FiberVm.Proofs.Heap.Node
import FiberVm.Heap.Value

/-!
# What the accessors do to what a node stands for

Each accessor has one lemma: on a node that stands for the right kind of thing it succeeds, and what it
returns and leaves is said in terms of that thing. An accessor that writes leaves every other node, the
free list, the pins and the counters alone.
-/

set_option autoImplicit false

namespace FiberVm

namespace Heap

/-- The heap has been changed at `a` only. -/
structure Only (h h' : Heap) (a : Addr) : Prop where
  size : h'.words.size = h.words.size
  freeHead : h'.freeHead = h.freeHead
  pinned : h'.pinned = h.pinned
  stats : h'.stats = h.stats
  others : ∀ b, NodeIn h.words b → b ≠ a → SameNode h.words h'.words b

/-- The heap has been changed at `a` only, where the node now stands for `n`. -/
structure Updates (h h' : Heap) (a : Addr) (n : Node) : Prop extends Only h h' a where
  shows : Shows h'.words a n

section Only

variable {h h' h'' : Heap} {a b : Addr} {n n' : Node}

theorem Only.refl (h : Heap) (a : Addr) : Only h h a :=
  ⟨rfl, rfl, rfl, rfl, fun _ _ _ _ _ => rfl⟩

theorem Only.nodeIn (only : Only h h' a) : NodeIn h'.words b ↔ NodeIn h.words b :=
  nodeIn_congr only.size

theorem Only.trans (only : Only h h' a) (only' : Only h' h'' a) : Only h h'' a :=
  ⟨only'.size.trans only.size, only'.freeHead.trans only.freeHead, only'.pinned.trans only.pinned,
    only'.stats.trans only.stats, fun b hb ne =>
      (only.others b hb ne).trans (only'.others b (only.nodeIn.2 hb) ne)⟩

theorem Only.shows (only : Only h h' a) (ne : b ≠ a) (s : Shows h.words b n) :
    Shows h'.words b n :=
  s.of_same (only.others b s.node ne) only.size

theorem Updates.trans (u : Updates h h' a n) (u' : Updates h' h'' a n') : Updates h h'' a n' :=
  ⟨u.toOnly.trans u'.toOnly, u'.shows⟩

end Only

section Reading

variable {h : Heap} {a : Addr}

theorem tagOf_shows {n : Node} (s : Shows h.words a n) : tagOf a h = .ok n.tag h := by
  rw [tagOf_ok s.node, s.tag]

theorem intValue_shows {k : Int64} (s : Shows h.words a (.int k)) : intValue a h = .ok k h := by
  have value : (cell h.words a 1).toInt64 = k := s.body
  rw [intValue, bind_of_ok (payload_ok s.node (k := 0) (i := 0) rfl (by decide)), value]
  rfl

theorem builtinAt_shows {b : Builtin} {k : Nat} (s : Shows h.words a (.builtin b k)) :
    builtinAt a h = .ok (b, k) h := by
  obtain ⟨number, arity⟩ := s.body
  rw [builtinAt, bind_of_ok (field_ok s.node 3), bind_of_ok (field_ok s.node 4), number, arity]
  rfl

theorem childCount_shows {n : Node} (s : Shows h.words a n) :
    childCount a h = .ok ((n.size : Int) - 1) h := by
  rw [childCount_ok s.node, s.size]

/-- The words that the node at `a` uses after its header are the addresses `xs`. -/
structure Lists (words : Array Word) (a : Addr) (xs : List Addr) : Prop where
  node : NodeIn words a
  size : ((cell words a 0).byte 1).toNat = xs.length + 1
  room : xs.length ≤ 15
  slots : Slots Word.low (cell words a) 1 xs

theorem Shows.lists {m : List Addr → Node} (kind : m = .frame ∨ m = .environment) {words : Array Word}
    {xs : List Addr} (s : Shows words a (m xs)) : Lists words a xs := by
  have size := s.size
  have body := s.body
  rcases kind with rfl | rfl <;> exact ⟨s.node, size, body.1, body.2⟩

section Lists

variable {words words' : Array Word} {xs : List Addr}

theorem Lists.of_same (l : Lists words a xs) (same : SameNode words words' a) (size : words'.size = words.size) :
    Lists words' a xs := by
  refine ⟨(nodeIn_congr size).2 l.node, by rw [same 0 (by decide), l.size], l.room, ?_⟩
  exact l.slots.congr fun i lt => same (1 + i) (by have := l.room; unfold nodeSize; omega)

theorem Lists.childCount (l : Lists h.words a xs) : childCount a h = .ok ((xs.length + 1 : Nat) - 1) h := by
  rw [childCount_ok l.node, l.size]

theorem Lists.child (l : Lists h.words a xs) {i : Nat} {x : Addr} {k : Int} (hk : k = i) (get : xs[i]? = some x) :
    child a k h = .ok x h := by
  have lt := (List.getElem?_eq_some_iff.1 get).1
  have room := l.room
  rw [child_ok l.node hk (by unfold nodeSize; omega), Nat.add_comm i 1, l.slots i x get]

end Lists

theorem child_frame {xs : List Addr} (s : Shows h.words a (.frame xs)) {i : Nat} {x : Addr} {k : Int}
    (hk : k = i) (get : xs[i]? = some x) : child a k h = .ok x h := (s.lists (.inl rfl)).child hk get

theorem child_environment {xs : List Addr} (s : Shows h.words a (.environment xs)) {i : Nat}
    {x : Addr} {k : Int} (hk : k = i) (get : xs[i]? = some x) : child a k h = .ok x h :=
  (s.lists (.inr rfl)).child hk get

theorem callframePc_shows {pc : Nat} {e : Addr} (s : Shows h.words a (.callframe pc e)) :
    callframePc a h = .ok pc h := by
  rw [callframePc, bind_of_ok (wideField_ok s.node), s.body.1]
  rfl

theorem callframeEnv_shows {pc : Nat} {e : Addr} (s : Shows h.words a (.callframe pc e)) :
    callframeEnv a h = .ok e h := by
  rw [callframeEnv, child_ok s.node (k := 0) (i := 0) rfl (by decide), s.body.2]

theorem blockframeEnv_shows {e : Addr} (s : Shows h.words a (.blockframe e)) :
    blockframeEnv a h = .ok e h := by
  have env : (cell h.words a 1).low = e := s.body
  rw [blockframeEnv, child_ok s.node (k := 0) (i := 0) rfl (by decide), env]

theorem closureArity_shows {k pc : Nat} {e : Addr} (s : Shows h.words a (.closure k pc e)) :
    closureArity a h = .ok k h := by
  rw [closureArity, bind_of_ok (field_ok s.node 3), s.body.1]
  rfl

theorem closurePc_shows {k pc : Nat} {e : Addr} (s : Shows h.words a (.closure k pc e)) :
    closurePc a h = .ok pc h := by
  rw [closurePc, bind_of_ok (wideField_ok s.node), s.body.2.1]
  rfl

theorem closureEnv_shows {k pc : Nat} {e : Addr} (s : Shows h.words a (.closure k pc e)) :
    closureEnv a h = .ok e h := by
  rw [closureEnv, child_ok s.node (k := 0) (i := 0) rfl (by decide), s.body.2.2]

end Reading

section Scopes

variable {h : Heap} {env f : Addr} {frames slots : List Addr} {i j : Int}

theorem slotFrame_shows (s : Shows h.words env (.environment frames))
    (get : frames[i.toNat]? = some f) (t : Shows h.words f (.frame slots)) (hi : 0 ≤ i)
    (hj : 0 ≤ j ∧ j < slots.length) : slotFrame env i j h = .ok f h := by
  have lt := (List.getElem?_eq_some_iff.1 get).1
  rw [slotFrame, bind_of_ok (childCount_shows s), if_neg (by simp only [Node.size]; omega),
    bind_of_ok (child_environment s (Int.toNat_of_nonneg hi).symm get), bind_of_ok (childCount_shows t),
    if_neg (by simp only [Node.size]; omega)]
  rfl

theorem slotFrame_of_frame (s : Shows h.words env (.environment frames))
    (out : i < 0 ∨ (frames.length : Int) ≤ i) :
    slotFrame env i j h = .error (.fault (.frameIndex i frames.length)) h := by
  rw [slotFrame, bind_of_ok (childCount_shows s), if_pos (by simp only [Node.size]; omega)]
  simp [fault, Node.size]

theorem slotFrame_of_slot (s : Shows h.words env (.environment frames))
    (get : frames[i.toNat]? = some f) (t : Shows h.words f (.frame slots)) (hi : 0 ≤ i)
    (out : j < 0 ∨ (slots.length : Int) ≤ j) :
    slotFrame env i j h = .error (.fault (.slotIndex j slots.length)) h := by
  have lt := (List.getElem?_eq_some_iff.1 get).1
  rw [slotFrame, bind_of_ok (childCount_shows s), if_neg (by simp only [Node.size]; omega),
    bind_of_ok (child_environment s (Int.toNat_of_nonneg hi).symm get), bind_of_ok (childCount_shows t),
    if_pos (by simp only [Node.size]; omega)]
  simp [fault, Node.size]

end Scopes

/-- The cells `N` with cell `i` replaced. -/
def write (N : Nat → Word) (i : Nat) (w : Word) : Nat → Word := fun j => if j = i then w else N j

theorem write_self (N : Nat → Word) (i : Nat) (w : Word) : write N i w i = w := if_pos rfl

theorem write_of_ne (N : Nat → Word) {i j : Nat} (w : Word) (ne : j ≠ i) : write N i w j = N j :=
  if_neg ne

/-- The heap is still `h`, but for the node at `a`, whose cells are now `N`. -/
structure Edited (h h' : Heap) (a : Addr) (N : Nat → Word) : Prop extends Only h h' a where
  node : NodeIn h'.words a
  cells : ∀ i < nodeSize, cell h'.words a i = N i

/-- The tag, the size and the mark stay when a slot and then two other fields of the header are written. -/
theorem byte_write {N : Nat → Word} {p i j k : Nat} {w : Word} {x y : UInt8} (slot : p ≠ 0) (hi : 3 ≤ i ∧ i < 8)
    (hj : 3 ≤ j ∧ j < 8) (lt : k < 3) :
    (write (write (write N p w) 0 ((write N p w 0).setByte i x)) 0
      ((write (write N p w) 0 ((write N p w 0).setByte i x) 0).setByte j y) 0).byte k = (N 0).byte k := by
  rw [write_self, write_self, write_of_ne _ _ (Ne.symm slot),
    Word.byte_setByte_of_ne _ _ hj.2 (by omega) (by omega), Word.byte_setByte_of_ne _ _ hi.2 (by omega) (by omega)]

namespace Edited

variable {h h' : Heap} {a : Addr} {N : Nat → Word}

theorem refl (ha : NodeIn h.words a) : Edited h h a (cell h.words a) :=
  ⟨.refl h a, ha, fun _ _ => rfl⟩

theorem put (e : Edited h h' a N) {i : Nat} (hi : i < nodeSize) (w : Word) :
    Edited h (h'.put a i w) a (write N i w) := by
  refine ⟨e.toOnly.trans ?_, nodeIn_put.2 e.node, fun j hj => ?_⟩
  · exact ⟨put_size, rfl, rfl, rfl, fun _ hb ne => sameNode_put e.node hb hi ne⟩
  · rw [cell_put e.node e.node hi hj, write]
    by_cases same : j = i
    · rw [if_pos ⟨rfl, same.symm⟩, if_pos same]
    · rw [if_neg fun eq => same eq.2.symm, if_neg same, e.cells j hj]

theorem field (e : Edited h h' a N) (k : Nat) : field a k h' = .ok ((N 0).byte k) h' := by
  rw [field_ok e.node, e.cells 0 (by decide)]

theorem payload (e : Edited h h' a N) {i : Nat} {k : Int} (hk : k = i) (hi : i + 1 < nodeSize) :
    payload a k h' = .ok (N (i + 1)) h' := by
  rw [payload_ok e.node hk hi, e.cells _ hi]

theorem child (e : Edited h h' a N) {i : Nat} {k : Int} (hk : k = i) (hi : i + 1 < nodeSize) :
    child a k h' = .ok (N (i + 1)).low h' := by
  rw [child_ok e.node hk hi, e.cells _ hi]

theorem setField (e : Edited h h' a N) (k : Nat) (v : UInt8) :
    ∃ h'', setField a k v h' = .ok () h'' ∧ Edited h h'' a (write N 0 ((N 0).setByte k v)) := by
  refine ⟨_, setField_ok e.node k v, ?_⟩
  rw [e.cells 0 (by decide)]
  exact e.put (by decide) _

theorem setWideField (e : Edited h h' a N) (v : UInt32) :
    ∃ h'', setWideField a v h' = .ok () h'' ∧ Edited h h'' a (write N 0 ((N 0).setHigh v)) := by
  refine ⟨_, setWideField_ok e.node v, ?_⟩
  rw [e.cells 0 (by decide)]
  exact e.put (by decide) _

theorem setPayload (e : Edited h h' a N) {i : Nat} {k : Int} (hk : k = i) (hi : i + 1 < nodeSize)
    (w : Word) : ∃ h'', setPayload a k w h' = .ok () h'' ∧ Edited h h'' a (write N (i + 1) w) :=
  ⟨_, setPayload_ok e.node hk hi, e.put hi w⟩

theorem setChild (e : Edited h h' a N) {i : Nat} {k : Int} (hk : k = i) (hi : i + 1 < nodeSize)
    (c : Addr) :
    ∃ h'', setChild a k c h' = .ok () h'' ∧ Edited h h'' a (write N (i + 1) c.toUInt64) :=
  e.setPayload hk hi c.toUInt64

theorem updates {n n' : Node} (e : Edited h h' a N) (s : Shows h.words a n)
    (tag : n'.tag = n.tag) (size : n'.size = n.size)
    (low : ∀ k < 3, (N 0).byte k = (cell h.words a 0).byte k) (le : n'.size ≤ nodeSize)
    (body : Body N n') : Updates h h' a n' := by
  have zero := e.cells 0 (by decide)
  refine ⟨e.toOnly, e.node, ?_, ?_, ?_, body.congr e.cells le⟩
  · rw [zero, low 0 (by decide), s.tag, tag]
  · rw [zero, low 1 (by decide), s.size, size]
  · rw [zero, low 2 (by decide), s.unmarked]

end Edited

section Writing

variable {h : Heap} {a : Addr}

theorem Slots.set {N : Nat → Word} {xs : List Addr} (slots : Slots Word.low N 1 xs) {i : Nat}
    (lt : i < xs.length) (v : Addr) :
    Slots Word.low (write N (i + 1) v.toUInt64) 1 (xs.set i v) := by
  intro j x get
  by_cases same : i = j
  · subst same
    rw [List.getElem?_set_self lt] at get
    rw [Nat.add_comm 1 i, write_self, Word.low_toUInt64]
    exact Option.some.inj get
  · rw [List.getElem?_set_ne same] at get
    rw [write_of_ne N _ (by omega)]
    exact slots j x get

theorem setChild_slots {m : List Addr → Node} (kind : m = .frame ∨ m = .environment)
    {xs : List Addr} (s : Shows h.words a (m xs)) {i : Nat} {k : Int} (hk : k = i)
    (lt : i < xs.length) (v : Addr) :
    ∃ h', setChild a k v h = .ok () h' ∧ Updates h h' a (m (xs.set i v)) := by
  have body : xs.length ≤ 15 ∧ Slots Word.low (cell h.words a) 1 xs := by
    rcases kind with rfl | rfl <;> exact s.body
  obtain ⟨h', run, e⟩ := (Edited.refl s.node).setChild hk (by unfold nodeSize; omega) v
  refine ⟨h', run, e.updates s ?_ ?_ (fun k _ => by rw [write_of_ne _ _ (by omega)]) ?_ ?_⟩
  · rcases kind with rfl | rfl <;> rfl
  · rcases kind with rfl | rfl <;> simp [Node.size]
  · have := s.size_le
    rcases kind with rfl | rfl <;> simpa [Node.size] using this
  · have slots := body.2.set lt v
    rcases kind with rfl | rfl <;> exact ⟨by simpa using body.1, slots⟩

theorem forM_range_succ (k : Nat) (body : Nat → HeapM Unit) :
    (List.range (k + 1)).forM body = ((List.range k).forM body >>= fun _ => body k) := by
  simp only [List.forM_eq_forM, List.range_succ, List.forM_append, List.forM_cons, List.forM_nil,
    bind_pure_unit]

theorem forM_setChild {m : List Addr → Node} (kind : m = .frame ∨ m = .environment)
    {xs : List Addr} (s : Shows h.words a (m xs)) (body : Nat → HeapM Unit) (g : Nat → Addr) (k : Nat)
    (run : ∀ i < k, ∀ h', Only h h' a → body i h' = setChild a i (g i) h') (le : k ≤ xs.length) :
    ∃ h', (List.range k).forM body h = .ok () h' ∧
      Updates h h' a (m ((List.range k).map g ++ xs.drop k)) := by
  induction k with
  | zero => exact ⟨h, rfl, .refl h a, by simpa using s⟩
  | succ k ih =>
    obtain ⟨h₁, ok₁, u₁⟩ := ih (fun i lt => run i (by omega)) (by omega)
    have lt : k < ((List.range k).map g ++ xs.drop k).length := by simp; omega
    obtain ⟨h₂, ok₂, u₂⟩ := setChild_slots kind u₁.shows rfl lt (g k)
    refine ⟨h₂, ?_, ?_⟩
    · rw [forM_range_succ, bind_of_ok ok₁, run k (by omega) h₁ u₁.toOnly, ok₂]
    · have set : ((List.range k).map g ++ xs.drop k).set k (g k) =
          (List.range (k + 1)).map g ++ xs.drop (k + 1) := by
        rw [List.set_append_right _ _ (by simp), List.range_succ]
        simp only [List.length_map, List.length_range, Nat.sub_self, List.map_append, List.map_cons,
          List.map_nil, List.append_assoc, List.singleton_append]
        rw [List.drop_eq_getElem_cons (by omega), List.set_cons_zero]
      exact set ▸ u₁.trans u₂

/-- Writing a list into the slots behind `done`. -/
theorem forM_zipIdx_setChild (done : List Addr) {rest xs : List Addr} (s : Shows h.words a (.frame (done ++ rest)))
    (length : rest.length = xs.length) :
    ∃ h', (List.forM (xs.zipIdx done.length) fun (x, i) => setChild a i x : HeapM Unit) h = .ok () h' ∧
      Updates h h' a (.frame (done ++ xs)) := by
  induction xs generalizing h done rest with
  | nil =>
    obtain rfl := List.length_eq_zero_iff.1 length
    exact ⟨h, rfl, .refl h a, s⟩
  | cons x xs ih =>
    cases rest with
    | nil => cases length
    | cons y rest =>
      have lt : done.length < (done ++ y :: rest).length := by simp
      obtain ⟨h₁, run₁, u₁⟩ := setChild_slots (.inl rfl) s rfl lt x
      have set : (done ++ y :: rest).set done.length x = (done ++ [x]) ++ rest := by simp
      rw [set] at u₁
      obtain ⟨h₂, run₂, u₂⟩ := ih (done ++ [x]) u₁.shows (Nat.succ.inj length)
      refine ⟨h₂, ?_, ?_⟩
      · rw [List.length_append, List.length_singleton] at run₂
        exact (bind_of_ok run₁).trans run₂
      · rw [List.append_assoc, List.singleton_append] at u₂
        exact u₁.trans u₂

end Writing

end Heap

end FiberVm
