import FiberVm.Proofs.Heap.Pins

/-!
# What becomes of channels, queues and wait groups

Nothing but the operations on them writes to a channel, a wait queue or a wait group. Everything else
takes nodes into use, fills them in and writes variables; along the way a collection may free such a node.
So a node of these kinds that is still in use afterwards is what it was, and so is what it refers to, even
if nothing leads to it any more.
-/

set_option autoImplicit false

namespace FiberVm

section Leaves

variable {σ α β : Type} {s : σ} {R R' : σ → Prop}

/-- The outcome leaves a state in `R`, and if it is a failure it is not for want of a fiber. -/
def Leaves (R : σ → Prop) : EStateM.Result Failure σ α → Prop
  | .ok _ s => R s
  | .error e s => R s ∧ ∀ k, e ≠ .fault (.unknownFiber k)

theorem Leaves.of_ok {r : EStateM.Result Failure σ α} {a : α} (run : r = .ok a s) (holds : R s) : Leaves R r :=
  run ▸ holds

theorem Leaves.imp {r : EStateM.Result Failure σ α} (leaves : Leaves R r) (weaker : ∀ s, R s → R' s) :
    Leaves R' r := by
  cases r with
  | ok a s => exact weaker s leaves
  | error e s => exact ⟨weaker s leaves.1, leaves.2⟩

theorem Leaves.bind {x : EStateM Failure σ α} {k : α → EStateM Failure σ β} (first : Leaves R (x s))
    (rest : ∀ a s', x s = .ok a s' → R s' → Leaves R' (k a s')) (weaker : ∀ s', R s' → R' s') :
    Leaves R' ((x >>= k) s) := by
  cases run : x s with
  | ok a s' =>
    rw [run] at first
    rw [bind_of_ok run]
    exact rest a s' run first
  | error e s' =>
    rw [run] at first
    rw [bind_of_error run]
    exact ⟨weaker s' first.1, first.2⟩

/-- The operation changes nothing. -/
def Still (x : EStateM Failure σ α) : Prop := ∀ s, Leaves (· = s) (x s)

namespace Still

theorem pure (a : α) : Still (Pure.pure a : EStateM Failure σ α) := fun _ => rfl

theorem fault {c : Cause} (known : ∀ k, c ≠ .unknownFiber k) :
    Still (FiberVm.fault c : EStateM Failure σ α) :=
  fun _ => ⟨rfl, fun k same => known k (Failure.fault.inj same)⟩

theorem crash (c : Crash) : Still (FiberVm.crash c : EStateM Failure σ α) := fun _ => ⟨rfl, by simp⟩

theorem bind {x : EStateM Failure σ α} {k : α → EStateM Failure σ β} (first : Still x)
    (rest : ∀ a, Still (k a)) : Still (x >>= k) := by
  intro s
  refine (first s).bind (fun a s' _ same => ?_) fun _ same => same
  rw [same]
  exact rest a s

theorem ite {p : Prop} [Decidable p] {x y : EStateM Failure σ α} (yes : Still x) (no : Still y) :
    Still (if p then x else y) := by
  split
  · exact yes
  · exact no

theorem ok {x : EStateM Failure σ α} (still : Still x) {a : α} {s' : σ} (run : x s = .ok a s') : s' = s := by
  have same := still s
  rwa [run] at same

end Still

end Leaves

namespace Heap

section Accessors

variable (a : Addr) (i : Int)

theorem still_readWord : Still (readWord i) := by
  intro h
  unfold readWord
  split
  · exact ⟨rfl, by simp⟩
  · split
    · exact rfl
    · exact ⟨rfl, by simp⟩

theorem still_header : Still (header a) := still_readWord _

theorem still_tagOf : Still (tagOf a) := (still_header a).bind fun _ => .pure _

theorem still_childCount : Still (childCount a) :=
  ((still_header a).bind fun _ => .pure _).bind fun _ => .pure _

theorem still_field (k : Nat) : Still (field a k) := (still_header a).bind fun _ => .pure _

theorem still_wideField : Still (wideField a) := (still_header a).bind fun _ => .pure _

theorem still_payload : Still (payload a i) := still_readWord _

theorem still_child : Still (child a i) := (still_payload a i).bind fun _ => .pure _

theorem still_intValue : Still (intValue a) := (still_payload a 0).bind fun _ => .pure _

theorem still_builtinAt : Still (builtinAt a) :=
  (still_field a 3).bind fun _ => (still_field a 4).bind fun _ => .pure _

theorem still_closurePc : Still (closurePc a) := (still_wideField a).bind fun _ => .pure _

theorem still_slotFrame (j : Int) : Still (slotFrame a i j) := by
  refine (still_childCount a).bind fun depth => .ite (.fault (by simp)) ?_
  refine (still_child a i).bind fun f => (still_childCount f).bind fun size => .ite (.fault (by simp)) ?_
  exact .pure f

theorem still_lookup (j : Int) : Still (lookup a i j) := (still_slotFrame a i j).bind fun f => still_child f j

theorem still_format : Still (format a) := by
  refine (still_tagOf a).bind fun tag => ?_
  split
  any_goals exact .pure _
  · exact (still_intValue a).bind fun _ => .pure _
  · exact (still_builtinAt a).bind fun _ => .pure _
  · exact (still_closurePc a).bind fun _ => .pure _

end Accessors

/-- The tags of the nodes at which fibers meet. -/
def IsSync (t : Tag) : Prop := t = .intChannel ∨ t = .waitQueue ∨ t = .waitGroup

instance (t : Tag) : Decidable (IsSync t) := inferInstanceAs (Decidable (_ ∨ _ ∨ _))

/-- The tags of what such nodes refer to. -/
def IsLinked (t : Tag) : Prop := t = .int ∨ t = .waitQueue

instance (t : Tag) : Decidable (IsLinked t) := inferInstanceAs (Decidable (_ ∨ _))

/-- Where fibers meet in `h'`, apart from `new`, nothing has changed since `h`. -/
structure Drift (new : List Addr) (h h' : Heap) : Prop where
  size : h'.words.size = h.words.size
  sync : ∀ a, NodeIn h.words a → a ∉ new → IsSync (tagAt h'.words a) → SameNode h.words h'.words a
  linked : ∀ a n c, a ∉ new → bottom ≤ a → IsSync (tagAt h'.words a) → Shows h.words a n →
    c ∈ n.references → NodeIn h.words c → IsLinked (tagAt h.words c) →
      c ∉ new ∧ SameNode h.words h'.words c

theorem SameNode.tagAt {words words' : Array Word} {a : Addr} (same : SameNode words words' a) :
    tagAt words' a = tagAt words a := by
  rw [Heap.tagAt, same 0 (by decide)]

namespace Drift

variable {h h' h'' : Heap} {new new' : List Addr} {a : Addr}

theorem refl (h : Heap) : Drift [] h h :=
  ⟨rfl, fun _ _ _ _ _ _ => rfl, fun _ _ _ _ _ _ _ _ _ _ => ⟨List.not_mem_nil, fun _ _ => rfl⟩⟩

theorem nodeIn (d : Drift new h h') : NodeIn h'.words a ↔ NodeIn h.words a :=
  nodeIn_congr d.size

theorem trans (d : Drift new h h') (d' : Drift new' h' h'') : Drift (new ++ new') h h'' := by
  have apart : ∀ b, b ∉ new ++ new' → b ∉ new ∧ b ∉ new' := fun b => by simp
  have back : ∀ b, NodeIn h.words b → b ∉ new ++ new' → IsSync (tagAt h''.words b) →
      IsSync (tagAt h'.words b) := by
    intro b hb old sync
    rwa [← (d'.sync b (d.nodeIn.2 hb) (apart b old).2 sync).tagAt]
  refine ⟨d'.size.trans d.size, fun b hb old sync => ?_, fun b n c old high sync s mem hc link => ?_⟩
  · exact (d.sync b hb (apart b old).1 (back b hb old sync)).trans
      (d'.sync b (d.nodeIn.2 hb) (apart b old).2 sync)
  · have sync' := back b s.node old sync
    have same := d.sync b s.node (apart b old).1 sync'
    obtain ⟨old₁, same₁⟩ := d.linked b n c (apart b old).1 high sync' s mem hc link
    obtain ⟨old₂, same₂⟩ := d'.linked b n c (apart b old).2 high sync (s.of_same same d.size) mem
      (d.nodeIn.2 hc) (by rwa [same₁.tagAt])
    exact ⟨by simp [old₁, old₂], same₁.trans same₂⟩

theorem only (d : Drift new h h') (only : Only h' h'' a) (mem : a ∈ new) : Drift new h h'' := by
  have same : ∀ b, NodeIn h.words b → b ∉ new → SameNode h'.words h''.words b := by
    intro b hb old
    exact only.others b (d.nodeIn.2 hb) fun eq => old (eq ▸ mem)
  refine ⟨only.size.trans d.size, fun b hb old sync => ?_, fun b n c old high sync s inside hc link => ?_⟩
  · rw [(same b hb old).tagAt] at sync
    exact (d.sync b hb old sync).trans (same b hb old)
  · rw [(same b s.node old).tagAt] at sync
    obtain ⟨old', same'⟩ := d.linked b n c old high sync s inside hc link
    exact ⟨old', same'.trans (same c hc old')⟩

/-- A new node at which nobody meets does not count. -/
theorem forget (d : Drift [a] h h') (plain : ¬ IsSync (tagAt h'.words a)) : Drift [] h h' := by
  have apart : ∀ b, IsSync (tagAt h'.words b) → b ∉ [a] := by
    intro b sync mem
    rw [List.mem_singleton] at mem
    exact plain (mem ▸ sync)
  refine ⟨d.size, fun b hb _ sync => d.sync b hb (apart b sync) sync, ?_⟩
  intro b n c _ high sync s mem hc link
  exact ⟨List.not_mem_nil, (d.linked b n c (apart b sync) high sync s mem hc link).2⟩

end Drift

section Changes

variable {h h' h'' : Heap} {a : Addr} {roots : List Addr}

theorem Only.drift (only : Only h h' a) (plain : ¬ IsSync (tagAt h'.words a))
    (plain' : ¬ IsLinked (tagAt h.words a)) : Drift [] h h' := by
  refine ⟨only.size, fun b hb _ sync => only.others b hb ?_, fun b n c _ _ _ _ _ hc link => ?_⟩
  · rintro rfl
    exact plain sync
  · refine ⟨List.not_mem_nil, only.others c hc ?_⟩
    rintro rfl
    exact plain' link

/-- What a collection leaves in use is what it was. -/
theorem Collected.drift {l : List Addr} (c : Collected h roots l h') : Drift [] h h' := by
  have reached : ∀ b, NodeIn h.words b → bottom ≤ b → IsSync (tagAt h'.words b) →
      Reaches h.words (roots ++ h.pinned) b := by
    intro b hb high sync
    refine Classical.byContradiction fun lost => ?_
    have free := c.list.tagAt ((c.mem_iff b).2 ⟨hb, high, lost⟩)
    rw [free] at sync
    exact absurd sync (by decide)
  refine ⟨c.size, fun b hb _ sync => ?_, fun b n d _ high sync s mem hd _ => ⟨List.not_mem_nil, ?_⟩⟩
  · rcases UInt32.lt_or_le b bottom with low | high
    · exact c.reserved b hb low
    · exact c.live b hb (reached b hb high sync)
  · refine c.live d hd (.step (reached b s.node high sync) high ?_)
    rw [refers_iff s.node s.layout, s.refs]
    exact mem

/-- The node at `a` has been taken into use with the tag given. -/
structure Taken (tag : Tag) (a : Addr) (h h' : Heap) : Prop where
  drift : Drift [a] h h'
  node : NodeIn h'.words a
  tag : tagAt h'.words a = tag

theorem Popped.drift {tag : Tag} {size : Nat} (popped : Popped tag size h h' a) : Drift [a] h h' := by
  refine ⟨popped.room, fun b hb old _ => popped.others b hb (by simpa using old), ?_⟩
  intro b n c _ _ _ _ _ hc link
  have ne : c ≠ a := by
    rintro rfl
    rw [popped.free] at link
    exact absurd link (by decide)
  exact ⟨by simpa using ne, popped.others c hc ne⟩

theorem take_taken (sound : Sound h) (head : h.freeHead = some a) (tag : Tag) {size : Nat}
    (le : size ≤ nodeSize) : ∃ h', take tag size a h = .ok a h' ∧ Taken tag a h h' := by
  obtain ⟨h', run, popped⟩ := take_popped sound head tag le
  exact ⟨h', run, popped.drift, popped.edited.node, tagAt_blank le popped.edited⟩

theorem allocate_taken (thunk : Roots) (sound : Sound h)
    (traceable : Traceable h.words (thunk.get ++ h.pinned)) (tag : Tag) (size : Int) :
    (∃ a h', allocate thunk tag size h = .ok a h' ∧ Taken tag a h h') ∨
      ∃ e h', allocate thunk tag size h = .error e h' ∧ Drift [] h h' ∧ ∀ k, e ≠ .fault (.unknownFiber k) := by
  obtain ⟨l, h', collected, c⟩ := collect_collected sound.sized sound.unmarked traceable
  rw [← collect_visit thunk h.stats.collections sound.sized sound.unmarked traceable.traced] at collected
  have goes := allocate_goes thunk tag size h
  generalize allocate thunk tag size h = r at goes ⊢
  cases goes with
  | refused => exact .inr ⟨_, h, rfl, .refl h, by simp⟩
  | crashed _ _ failed => cases failed.symm.trans collected
  | exhausted _ _ collected' =>
    cases collected'.symm.trans collected
    exact .inr ⟨_, h', rfl, c.drift, by simp⟩
  | taken fits source head =>
    have le : size.toNat ≤ nodeSize := by omega
    obtain rfl | ⟨-, _, collected'⟩ := source
    · obtain ⟨h₂, run, taken⟩ := take_taken sound head tag le
      exact .inl ⟨_, h₂, run, taken⟩
    · cases collected'.symm.trans collected
      obtain ⟨h₂, run, taken⟩ := take_taken (c.sound sound.sized) head tag le
      exact .inl ⟨_, h₂, run, c.drift.trans taken.drift, taken.node, taken.tag⟩

end Changes

/-- The operation writes to the node at `a` only, and not to its tag. -/
def Fills {α : Type} (a : Addr) (x : HeapM α) : Prop :=
  ∀ h, NodeIn h.words a → Leaves (fun h' => Only h h' a ∧ tagAt h'.words a = tagAt h.words a) (x h)

namespace Fills

variable {α β : Type} {a : Addr}

theorem still {x : HeapM α} (still : Still x) : Fills a x := by
  intro h _
  refine (still h).imp ?_
  rintro h' rfl
  exact ⟨.refl h' a, rfl⟩

theorem bind {x : HeapM α} {k : α → HeapM β} (first : Fills a x) (rest : ∀ b, Fills a (k b)) :
    Fills a (x >>= k) := by
  intro h ha
  refine (first h ha).bind (fun b h' _ filled => ?_) fun _ filled => filled
  refine (rest b h' (filled.1.nodeIn.2 ha)).imp fun h'' filled' => ?_
  exact ⟨filled.1.trans filled'.1, filled'.2.trans filled.2⟩

theorem forM {l : List α} {body : α → HeapM Unit} (each : ∀ b ∈ l, Fills a (body b)) :
    Fills a (l.forM body) := by
  induction l with
  | nil => exact .still (.pure ())
  | cons b l ih =>
    exact (each b List.mem_cons_self).bind fun _ => ih fun c mem => each c (List.mem_cons_of_mem b mem)

theorem of_put {x : HeapM Unit} {i : Nat} (hi : i < nodeSize) (w : Heap → Word)
    (run : ∀ h, NodeIn h.words a → x h = .ok () (h.put a i (w h)))
    (tag : i = 0 → ∀ h, (w h).byte 0 = (cell h.words a 0).byte 0) : Fills a x := by
  intro h ha
  rw [run h ha]
  refine ⟨⟨put_size, rfl, rfl, rfl, fun b hb ne => sameNode_put ha hb hi ne⟩, ?_⟩
  rw [Heap.tagAt, cell_put ha ha hi (by decide)]
  by_cases zero : i = 0
  · rw [if_pos ⟨rfl, zero⟩, tag zero h]
  · rw [if_neg fun both => zero both.2]

theorem setField {k : Nat} (hk : k < 8) (pos : 0 < k) (v : UInt8) : Fills a (Heap.setField a k v) := by
  refine of_put (i := 0) (by decide) _ (fun h ha => setField_ok ha k v) fun _ h => ?_
  exact Word.byte_setByte_of_ne _ v hk (by decide) (by omega)

theorem setWideField (v : UInt32) : Fills a (Heap.setWideField a v) := by
  refine of_put (i := 0) (by decide) _ (fun h ha => setWideField_ok ha v) fun _ h => ?_
  exact Word.byte_setHigh _ v (by decide)

theorem setChild {i : Nat} (hi : i < 15) (c : Addr) : Fills a (Heap.setChild a i c) :=
  of_put (i := i + 1) (by unfold nodeSize; omega) (fun _ => c.toUInt64)
    (fun _ ha => setChild_ok ha rfl (by unfold nodeSize; omega) c) nofun

theorem setPayload {i : Nat} (hi : i < 15) (w : Word) : Fills a (Heap.setPayload a i w) :=
  of_put (i := i + 1) (by unfold nodeSize; omega) (fun _ => w)
    (fun _ ha => setPayload_ok ha rfl (by unfold nodeSize; omega)) nofun

end Fills

section Constructors

variable {h h' : Heap} {thunk : Roots} {tag : Tag} {K : List Addr}

/-- Taking a node at which nobody meets, and filling it in. -/
theorem allocate_drifts {α : Type} (sound : Sound h) (traceable : Traceable h.words (thunk.get ++ h.pinned))
    (plain : ¬ IsSync tag) (size : Int) {body : Addr → HeapM α} (fills : ∀ a, Fills a (body a)) :
    Leaves (Drift [] h) ((allocate thunk tag size >>= body) h) := by
  rcases allocate_taken thunk sound traceable tag size with ⟨a, h', run, taken⟩ | ⟨e, h', run, drift, known⟩
  · rw [bind_of_ok run]
    refine (fills a h' taken.node).imp fun h'' filled => ?_
    refine (taken.drift.only filled.1 List.mem_cons_self).forget ?_
    rw [filled.2, taken.tag]
    exact plain
  · rw [bind_of_error run]
    exact ⟨drift, known⟩

theorem withPins_leaves {α : Type} {R : Heap → Prop} {as : List Addr} {op : HeapM α}
    (inner : Leaves (fun h' => R (h'.release h.pinned.length)) (op { h with pinned := h.pinned ++ as })) :
    Leaves R (withPins as op h) := by
  unfold withPins
  cases run : op { h with pinned := h.pinned ++ as } with
  | ok a h' => rwa [run] at inner
  | error e h' => rwa [run] at inner

theorem withPins_drifts {α : Type} {as : List Addr} {op : HeapM α}
    (inner : Leaves (Drift [] { h with pinned := h.pinned ++ as }) (op { h with pinned := h.pinned ++ as })) :
    Leaves (Drift [] h) (withPins as op h) :=
  withPins_leaves (inner.imp fun _ d => ⟨d.size, d.sync, d.linked⟩)

theorem newInt_drifts (sound : Sound h) (traceable : Traceable h.words (thunk.get ++ h.pinned)) (k : Int64) :
    Leaves (Drift [] h) (newInt thunk k h) :=
  allocate_drifts sound traceable (by decide) 2 fun _ =>
    (Fills.setPayload (by decide) _).bind fun _ => .still (.pure _)

theorem newFrame_drifts (sound : Sound h) (traceable : Traceable h.words (thunk.get ++ h.pinned)) (n : Int) :
    Leaves (Drift [] h) (newFrame thunk n h) := by
  unfold newFrame
  split
  · exact ⟨.refl h, by simp⟩
  · rename_i fits
    refine allocate_drifts sound traceable (by decide) _ fun a => Fills.bind (.forM fun i mem => ?_) fun _ =>
      .still (.pure _)
    have lt := List.mem_range.1 mem
    have most : maxChildren = 15 := rfl
    exact .setChild (by omega) _

section Env

variable {env frame : Addr} (sound : Sound h)
  (traceable : Traceable h.words (thunk.get ++ (h.pinned ++ [env])))

include sound traceable

theorem newBlockframe_drifts : Leaves (Drift [] h) (newBlockframe thunk env h) :=
  withPins_drifts (allocate_drifts (h := { h with pinned := h.pinned ++ [env] })
    (sound.pin _) traceable (by decide) 2 fun _ =>
      (Fills.setChild (i := 0) (by decide) env).bind fun _ => .still (.pure _))

theorem newCallframe_drifts (pc : Int) : Leaves (Drift [] h) (newCallframe thunk pc env h) :=
  withPins_drifts (allocate_drifts (h := { h with pinned := h.pinned ++ [env] })
    (sound.pin _) traceable (by decide) 2 fun _ =>
      (Fills.setWideField _).bind fun _ => (Fills.setChild (i := 0) (by decide) env).bind fun _ =>
        .still (.pure _))

theorem newClosure_drifts (arity pc : Int) : Leaves (Drift [] h) (newClosure thunk arity pc env h) := by
  unfold newClosure
  split
  · exact ⟨.refl h, by simp⟩
  · exact withPins_drifts (allocate_drifts (h := { h with pinned := h.pinned ++ [env] })
      (sound.pin _) traceable (by decide) 2 fun _ =>
        (Fills.setField (by decide) (by decide) _).bind fun _ => (Fills.setWideField _).bind fun _ =>
          (Fills.setChild (i := 0) (by decide) env).bind fun _ => .still (.pure _))

end Env

theorem extend_drifts {env frame : Addr} {frames : List Addr} (sound : Sound h)
    (traceable : Traceable h.words (thunk.get ++ (h.pinned ++ [env, frame])))
    (s : Shows h.words env (.environment frames)) : Leaves (Drift [] h) (extend thunk env frame h) := by
  have size : ((Node.environment frames).size : Int) - 1 = frames.length := by simp [Node.size]
  have most : maxChildren = 15 := rfl
  unfold extend
  rw [bind_of_ok (childCount_shows s), size]
  split
  · exact ⟨.refl h, by simp⟩
  · rename_i fits
    refine withPins_drifts (allocate_drifts (h := { h with pinned := h.pinned ++ [env, frame] })
      (sound.pin _) traceable (by decide) _ fun a => ?_)
    refine Fills.bind (.forM fun i mem => ?_) fun _ =>
      (Fills.setChild (i := frames.length) (by omega) frame).bind fun _ => .still (.pure _)
    have lt := List.mem_range.1 mem
    exact (Fills.still (still_child env i)).bind fun c => .setChild (by omega) c

theorem box_drifts (sound : Sound h) (traceable : Traceable h.words (thunk.get ++ h.pinned)) (v : Constant) :
    Leaves (Drift [] h) (box thunk v h) := by
  have still : ∀ {x : HeapM Addr}, Still x → Leaves (Drift [] h) (x h) := by
    intro x still
    refine (still h).imp ?_
    rintro h' rfl
    exact .refl h'
  cases v with
  | nil | undefined | bool => exact still (.pure _)
  | int _ n => exact newInt_drifts sound traceable n
  | ref a =>
    refine still (.bind (fun _ => rfl) fun h => .ite ?_ (.fault (by simp)))
    exact (still_tagOf a).bind fun tag => .ite (.pure a) (.fault (by simp))
  | uint64 | float64 | string => exact still (.fault (by simp))

/-- The operation takes one node into use and gives its address, or takes none. -/
def Grants (x : HeapM Addr) (h : Heap) : Prop :=
  (∃ a h', x h = .ok a h' ∧ NodeIn h'.words a ∧ Drift [a] h h') ∨ ∃ e h', x h = .error e h' ∧ Drift [] h h'

theorem allocate_grants (sound : Sound h) (traceable : Traceable h.words (thunk.get ++ h.pinned)) (tag : Tag)
    (size : Int) : Grants (allocate thunk tag size) h := by
  rcases allocate_taken thunk sound traceable tag size with ⟨a, h', run, taken⟩ | ⟨e, h', run, drift, -⟩
  · exact .inl ⟨a, h', run, taken.node, taken.drift⟩
  · exact .inr ⟨e, h', run, drift⟩

theorem Grants.fill {x : HeapM Addr} {body : Addr → HeapM Addr} (grants : Grants x h)
    (fill : ∀ a h', NodeIn h'.words a → ∃ h'', body a h' = .ok a h'' ∧ Only h' h'' a) :
    Grants (x >>= body) h := by
  rcases grants with ⟨a, h₁, run, node, drift⟩ | ⟨e, h₁, run, drift⟩
  · obtain ⟨h₂, run', only⟩ := fill a h₁ node
    exact .inl ⟨a, h₂, by rw [bind_of_ok run, run'], only.nodeIn.2 node, drift.only only List.mem_cons_self⟩
  · exact .inr ⟨e, h₁, bind_of_error run, drift⟩

/-- What is known of an allocation, taken together. -/
theorem Grants.allocates {x : HeapM Addr} {P : Heap → Addr → Prop} (grants : Grants x h)
    (alloc : Allocates K h P (x h)) :
    (∃ a h', x h = .ok a h' ∧ Fresh K h h' a ∧ Drift [a] h h' ∧ P h' a) ∨
      ∃ k h', x h = .error (.fault (.outOfMemory k)) h' ∧ Kept K h h' ∧ Drift [] h h' := by
  rcases grants with ⟨a, h₁, run, -, drift⟩ | ⟨e, h₁, run, drift⟩
  · rcases alloc with ⟨b, h', run', fresh, holds⟩ | ⟨k, h', run', -⟩
    · obtain ⟨rfl, rfl⟩ := EStateM.Result.ok.inj (run.symm.trans run')
      exact .inl ⟨a, h₁, run, fresh, drift, holds⟩
    · cases run.symm.trans run'
  · rcases alloc with ⟨b, h', run', -⟩ | ⟨k, h', run', kept⟩
    · cases run.symm.trans run'
    · obtain ⟨rfl, rfl⟩ := EStateM.Result.error.inj (run.symm.trans run')
      exact .inr ⟨k, h₁, run, kept, drift⟩

/-- A fresh node may be looked into, if its references could be followed before. -/
theorem Fresh.traceable {n : Node} {a : Addr} (fresh : Fresh K h h' a) (small : h.words.size ≤ maxWords)
    (traceable : Traceable h.words K) (s : Shows h'.words a n)
    (inside : ∀ c ∈ n.references, c < bottom ∨ Reaches h.words K c) : Traceable h'.words (a :: K) := by
  intro b reach
  have cases : b = a ∨ b < bottom ∨ Reaches h'.words K b := by
    refine reach.mem_of_closed (S := fun b => b = a ∨ b < bottom ∨ Reaches h'.words K b) ?_ ?_
    · intro r mem
      rcases List.mem_cons.1 mem with eq | mem
      · exact .inl eq
      · exact .inr (.inr (.root mem))
    · rintro x y (rfl | low | reach) high refers
      · rw [refers_iff s.node s.layout, s.refs] at refers
        exact .inr ((inside y refers).imp_right (fresh.toKept.reaches small traceable).2)
      · exact absurd low (UInt32.not_lt.2 high)
      · exact .inr (.inr (.step reach high refers))
  rcases cases with rfl | low | reach
  · exact .inr ⟨s.node, s.layout⟩
  · exact .inl (.inr low)
  · exact fresh.toKept.traceable small traceable b reach

theorem Traceable.of_subset {words : Array Word} {roots roots' : List Addr} (traceable : Traceable words roots)
    (sub : roots' ⊆ roots) : Traceable words roots' := fun a reach => traceable a (reach.of_subset sub)

theorem newWaitQueue_grants (sound : Sound h) (traceable : Traceable h.words (thunk.get ++ h.pinned)) :
    (∃ a h', newWaitQueue thunk h = .ok a h' ∧ Fresh (thunk.get ++ h.pinned) h h' a ∧ Drift [a] h h' ∧
      Shows h'.words a (.queue [])) ∨
    ∃ k h', newWaitQueue thunk h = .error (.fault (.outOfMemory k)) h' ∧ Kept (thunk.get ++ h.pinned) h h' ∧
      Drift [] h h' :=
  Grants.allocates (allocate_grants sound traceable _ _) (newWaitQueue_allocates sound traceable)

theorem newWaitGroup_grants (sound : Sound h) (traceable : Traceable h.words (thunk.get ++ h.pinned)) :
    (∃ a h', newWaitGroup thunk h = .ok a h' ∧ Fresh (thunk.get ++ h.pinned) h h' a ∧ Drift [a] h h' ∧
      Shows h'.words a (.group 0 [])) ∨
    ∃ k h', newWaitGroup thunk h = .error (.fault (.outOfMemory k)) h' ∧ Kept (thunk.get ++ h.pinned) h h' ∧
      Drift [] h h' :=
  Grants.allocates (allocate_grants sound traceable _ _) (newWaitGroup_allocates sound traceable)

theorem channel_grants (sound : Sound h) (traceable : Traceable h.words (thunk.get ++ h.pinned)) {capacity : Int}
    (fits : 0 ≤ capacity ∧ capacity ≤ 13) (senders receivers : Addr) :
    let make : HeapM Addr := do
      let ch ← allocate thunk .intChannel (3 + capacity)
      setField ch 7 capacity.toNat.toUInt8
      setChild ch 0 senders
      setChild ch 1 receivers
      return ch
    (∃ a h', make h = .ok a h' ∧ Fresh (thunk.get ++ h.pinned) h h' a ∧ Drift [a] h h' ∧
      Shows h'.words a (.channel capacity.toNat Bool.false senders receivers [])) ∨
    ∃ k h', make h = .error (.fault (.outOfMemory k)) h' ∧ Kept (thunk.get ++ h.pinned) h h' ∧
      Drift [] h h' := by
  refine Grants.allocates ((allocate_grants sound traceable _ _).fill fun a h₁ node => ?_)
    (channel_allocates sound traceable fits senders receivers)
  obtain ⟨h₂, run₂, e₂⟩ := (Edited.refl node).setField 7 capacity.toNat.toUInt8
  obtain ⟨h₃, run₃, e₃⟩ := e₂.setChild (i := 0) (k := 0) rfl (by decide) senders
  obtain ⟨h₄, run₄, e₄⟩ := e₃.setChild (i := 1) (k := 1) rfl (by decide) receivers
  exact ⟨h₄, by rw [bind_of_ok run₂, bind_of_ok run₃, bind_of_ok run₄]; rfl, e₄.toOnly⟩

/-- A channel without items has been made, with two empty queues. -/
structure NewChannel (capacity : Nat) (ch s r : Addr) (h h' : Heap) : Prop where
  drift : Drift [s, r, ch] h h'
  channel : Shows h'.words ch (.channel capacity Bool.false s r [])
  senders : Shows h'.words s (.queue [])
  receivers : Shows h'.words r (.queue [])
  apart : s ≠ r
  high : bottom ≤ s ∧ bottom ≤ r ∧ bottom ≤ ch

/-- Nothing but some empty queues has been made. -/
def NewQueues (h h' : Heap) : Prop :=
  ∃ new, Drift new h h' ∧ ∀ a ∈ new, Shows h'.words a (.queue []) ∧ bottom ≤ a

/-- The outcome of making a channel: a failure may leave queues behind. -/
def MakesChannel (capacity : Nat) (h : Heap) : EStateM.Result Failure Heap Addr → Prop
  | .ok ch h' => ∃ s r, NewChannel capacity ch s r h h'
  | .error e h' => (∀ k, e ≠ .fault (.unknownFiber k)) ∧ NewQueues h h'

theorem MakesChannel.withPins {capacity : Nat} {as : List Addr} {op : HeapM Addr}
    (inner : MakesChannel capacity h (op { h' with pinned := h'.pinned ++ as })) :
    MakesChannel capacity h (withPins as op h') := by
  unfold Heap.withPins
  cases run : op { h' with pinned := h'.pinned ++ as } with
  | ok ch h'' =>
    rw [run] at inner
    obtain ⟨s, r, made⟩ := inner
    exact ⟨s, r, ⟨made.drift.size, made.drift.sync, made.drift.linked⟩, made.channel, made.senders,
      made.receivers, made.apart, made.high⟩
  | error e h'' =>
    rw [run] at inner
    obtain ⟨known, new, drift, queues⟩ := inner
    exact ⟨known, new, ⟨drift.size, drift.sync, drift.linked⟩, queues⟩

/-- The queues of a channel that is being made. -/
structure Pending (queues : List Addr) (h h' : Heap) : Prop where
  drift : Drift queues h h'
  sound : Sound h'
  shows : ∀ a ∈ queues, Shows h'.words a (.queue [])
  high : ∀ a ∈ queues, bottom ≤ a

theorem Pending.keep {queues K : List Addr} {h'' : Heap} (p : Pending queues h h') (kept : Kept K h' h'')
    (held : queues ⊆ K) : ∀ a ∈ queues, Shows h''.words a (.queue []) := fun a mem =>
  (p.shows a mem).of_same (kept.same a (p.shows a mem).node (.inr (.root (held mem)))) kept.size

theorem Pending.channel {s r : Addr} {capacity : Int} (p : Pending [s, r] h h') (apart : s ≠ r)
    (traceable : Traceable h'.words (thunk.get ++ h'.pinned)) (held : [s, r] ⊆ thunk.get ++ h'.pinned)
    (fits : 0 ≤ capacity ∧ capacity ≤ 13) :
    MakesChannel capacity.toNat h
      ((do
        let ch ← allocate thunk .intChannel (3 + capacity)
        setField ch 7 capacity.toNat.toUInt8
        setChild ch 0 s
        setChild ch 1 r
        return ch : HeapM Addr) h') := by
  rcases channel_grants p.sound traceable fits s r with ⟨ch, h₁, run, fresh, drift, shows⟩ | ⟨k, h₁, run, kept, drift⟩
  · rw [run]
    have queues := p.keep fresh.toKept held
    exact ⟨s, r, p.drift.trans drift, shows, queues s (by simp), queues r (by simp), apart,
      p.high s (by simp), p.high r (by simp), fresh.high⟩
  · rw [run]
    refine ⟨by simp, [s, r], p.drift.trans drift, fun a mem => ⟨?_, p.high a mem⟩⟩
    exact p.keep kept held a mem

/-- One more queue, which is pinned from now on. -/
theorem Pending.queue {queues : List Addr} {capacity : Nat} {rest : Addr → HeapM Addr} (p : Pending queues h h')
    (traceable : Traceable h'.words (thunk.get ++ h'.pinned)) (held : queues ⊆ thunk.get ++ h'.pinned)
    (next : ∀ q h'', q ∉ queues → Pending (queues ++ [q]) h h'' →
      Traceable h''.words (thunk.get ++ h''.pinned) → queues ++ [q] ⊆ thunk.get ++ h''.pinned →
      MakesChannel capacity h (rest q h'')) :
    MakesChannel capacity h ((newWaitQueue thunk >>= fun q => Heap.withPins [q] (rest q)) h') := by
  rcases newWaitQueue_grants p.sound traceable with ⟨q, h₁, run, fresh, drift, shows⟩ | ⟨k, h₁, run, kept, drift⟩
  · rw [bind_of_ok run]
    have old := p.keep fresh.toKept held
    have more : thunk.get ++ (h₁.pinned ++ [q]) ⊆ q :: (thunk.get ++ h'.pinned) := by
      intro x mem
      rw [fresh.pinned] at mem
      simp only [List.mem_append, List.mem_cons, List.not_mem_nil, or_false] at mem ⊢
      exact mem.elim (fun left => .inr (.inl left)) fun right => right.symm.imp_right .inr
    refine MakesChannel.withPins (next q _ ?_ ⟨?_, ?_, ?_, ?_⟩ ?_ ?_)
    · exact fun mem => fresh.unreached (.root (held mem))
    · obtain ⟨size, sync, linked⟩ := p.drift.trans drift
      exact ⟨size, sync, linked⟩
    · exact fresh.sound.pin _
    · intro a mem
      rcases List.mem_append.1 mem with mem | mem
      · exact old a mem
      · exact List.mem_singleton.1 mem ▸ shows
    · intro a mem
      rcases List.mem_append.1 mem with mem | mem
      · exact p.high a mem
      · exact List.mem_singleton.1 mem ▸ fresh.high
    · exact (fresh.traceable p.sound.sized.small traceable shows nofun).of_subset more
    · intro a mem
      rcases List.mem_append.1 mem with mem | mem
      · rcases List.mem_append.1 (held mem) with root | pin
        · exact List.mem_append_left _ root
        · exact List.mem_append_right _ (List.mem_append_left _ (fresh.pinned ▸ pin))
      · exact List.mem_append_right _ (List.mem_append_right _ mem)
  · rw [bind_of_error run]
    refine ⟨by simp, queues, by simpa using p.drift.trans drift, fun a mem => ⟨?_, p.high a mem⟩⟩
    exact p.keep kept held a mem

theorem newChannel_makes (sound : Sound h) (traceable : Traceable h.words (thunk.get ++ h.pinned))
    (capacity : Int) : MakesChannel capacity.toNat h (newChannel thunk capacity h) := by
  unfold newChannel
  split
  · exact ⟨by simp, [], .refl h, nofun⟩
  · rename_i fits
    have start : Pending [] h h := ⟨.refl h, sound, nofun, nofun⟩
    refine start.queue traceable nofun fun s h₁ _ one traceable₁ held₁ => ?_
    refine one.queue traceable₁ held₁ fun r h₂ new two traceable₂ held₂ => ?_
    refine two.channel ?_ traceable₂ held₂ (by unfold maxChannelCapacity at fits; omega)
    rintro rfl
    exact new List.mem_cons_self

end Constructors

end Heap

end FiberVm
