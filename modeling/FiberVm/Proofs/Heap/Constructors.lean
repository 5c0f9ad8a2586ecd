import FiberVm.Proofs.Heap.Drift
import FiberVm.Proofs.Heap.Releases
import FiberVm.Proofs.Heap.Shape

/-!
# Constructors that are handed addresses

Extending an environment, saving one in a frame and capturing one in a closure pin what they are handed, and a
channel pins its queues while it is made. So a collection on the way, or one at each node taken, does not touch what
goes into the new node. Whether the call succeeds or not, all that the roots, the pins and the addresses handed over
lead to is what it was, and the pins are those of before.

Nothing is assumed of the kind of the nodes handed over. If they are of the kind that is meant, so is what the new
node refers to.
-/

set_option autoImplicit false

namespace FiberVm

namespace Heap

section Layout

variable {words : Array Word} {a : Addr} {xs : List Addr}

theorem Layout.size (layout : Layout words a) :
    1 ≤ ((cell words a 0).byte 1).toNat ∧ ((cell words a 0).byte 1).toNat ≤ nodeSize := by
  unfold Layout at layout
  unfold nodeSize at *
  dsimp only at layout
  split at layout
  case h_15 => exact layout.elim
  all_goals omega

/-- The words of any node in use can be read as addresses. -/
theorem Layout.lists (layout : Layout words a) (node : NodeIn words a) : ∃ xs, Lists words a xs := by
  obtain ⟨pos, le⟩ := layout.size
  unfold nodeSize at le
  refine ⟨(List.range (((cell words a 0).byte 1).toNat - 1)).map fun i => (cell words a (1 + i)).low, node, ?_, ?_, ?_⟩
  · simp only [List.length_map, List.length_range]
    omega
  · simp only [List.length_map, List.length_range]
    omega
  · intro i x get
    rw [List.getElem?_map] at get
    obtain ⟨j, at_j, rfl⟩ := Option.map_eq_some_iff.1 get
    obtain ⟨-, rfl⟩ := List.getElem?_eq_some_iff.1 at_j
    rw [List.getElem_range]

theorem Shows.used {n : Node} (s : Shows words a n) : NodeIn words a ∧ Layout words a := ⟨s.node, s.layout⟩

theorem Lists.refs (l : Lists words a xs) (tag : IsPointers (tagAt words a)) : refs words a = xs := by
  rw [refs_of_pointers tag, l.size]
  exact l.slots.map_range

end Layout

section Pinning

variable {h : Heap} {roots : List Addr} {thunk : Roots} {P Q : Heap → Addr → Prop}
  {r : EStateM.Result Failure Heap Addr}

theorem Allocates.mono (alloc : Allocates roots h P r) (imp : ∀ h' a, Fresh roots h h' a → P h' a → Q h' a) :
    Allocates roots h Q r :=
  alloc.imp_left fun ⟨a, h', run, fresh, holds⟩ => ⟨a, h', run, fresh, imp h' a fresh holds⟩

/-- A node without references is made and pinned, and then another one. Both are new. -/
theorem Allocates.pinning {x : HeapM Addr} {k : Addr → HeapM Addr} {n : Node} {Q : Addr → Heap → Addr → Prop}
    (sound : Sound h) (traceable : Traceable h.words (thunk.get ++ h.pinned)) (leaf : n.references = [])
    (first : Allocates (thunk.get ++ h.pinned) h (fun h' q => Shows h'.words q n) (x h))
    (stable : ∀ q h' a mark, Q q h' a → Q q (h'.release mark) a)
    (rest : ∀ q h₁, Fresh (thunk.get ++ h.pinned) h h₁ q → Sound { h₁ with pinned := h₁.pinned ++ [q] } →
      Traceable h₁.words (thunk.get ++ (h₁.pinned ++ [q])) →
      Allocates (thunk.get ++ (h₁.pinned ++ [q])) { h₁ with pinned := h₁.pinned ++ [q] } (Q q)
        (k q { h₁ with pinned := h₁.pinned ++ [q] })) :
    Allocates (thunk.get ++ h.pinned) h
      (fun h' a => ∃ q, bottom ≤ q ∧ ¬ Reaches h.words (thunk.get ++ h.pinned) q ∧ Shows h'.words q n ∧ q ≠ a ∧ Q q h' a)
      ((x >>= fun q => Heap.withPins [q] (k q)) h) := by
  have small := sound.sized.small
  rcases first with ⟨q, h₁, run, fresh, shows⟩ | ⟨j, h₁, run, kept⟩
  · have wider : thunk.get ++ h.pinned ⊆ thunk.get ++ (h₁.pinned ++ [q]) := by
      rw [fresh.pinned, ← List.append_assoc]
      exact List.subset_append_left _ _
    have traceable₁ : Traceable h₁.words (thunk.get ++ (h₁.pinned ++ [q])) := by
      refine (fresh.traceable small traceable shows (leaf ▸ nofun)).of_subset fun x mem => ?_
      rw [fresh.pinned, ← List.append_assoc] at mem
      exact (List.mem_append.1 mem).elim (List.mem_cons_of_mem q) fun last => List.mem_singleton.1 last ▸ List.mem_cons_self
    have next := rest q h₁ fresh (fresh.sound.pin _) traceable₁
    rw [bind_of_ok run]
    rcases next with ⟨a, h₂, run', fresh', holds⟩ | ⟨j, h₂, run', kept⟩
    · have kept := fresh'.toKept.release.subset wider
      have rooted : Reaches h₁.words (thunk.get ++ (h₁.pinned ++ [q])) q := .root (by simp)
      have apart : q ≠ a := by
        rintro rfl
        exact fresh'.unreached rooted
      refine .inl ⟨a, h₂.release h₁.pinned.length, by rw [Heap.withPins, run'],
        ⟨fresh.toKept.trans kept small traceable, fresh'.high, fun reach => ?_⟩, q, fresh.high, fresh.unreached,
        shows.of_same (fresh'.same q shows.node (.inr rooted)) fresh'.size, apart, stable _ _ _ _ holds⟩
      exact fresh'.unreached (((fresh.toKept.reaches small traceable).2 reach).of_subset wider)
    · exact .inr ⟨j, h₂.release h₁.pinned.length, by rw [Heap.withPins, run'],
        fresh.toKept.trans (kept.release.subset wider) small traceable⟩
  · exact .inr ⟨j, h₁, bind_of_error run, kept⟩

end Pinning

/-- A call of a constructor that is handed addresses or that makes several nodes. -/
inductive Making
  | environment (env frame : Addr)
  | callframe (pc : Int) (env : Addr)
  | blockframe (env : Addr)
  | closure (arity pc : Int) (env : Addr)
  | channel (capacity : Int)
deriving DecidableEq, Repr

namespace Making

def run (thunk : Roots) : Making → HeapM Addr
  | environment env frame => extend thunk env frame
  | callframe pc env => newCallframe thunk pc env
  | blockframe env => newBlockframe thunk env
  | closure arity pc env => newClosure thunk arity pc env
  | channel capacity => newChannel thunk capacity

/-- The addresses that are handed over. -/
def handed : Making → List Addr
  | environment env frame => [env, frame]
  | callframe _ env | blockframe env | closure _ _ env => [env]
  | channel _ => []

/-- What the new node at `a` stands for. An environment takes over the words of the one extended; the queues of a
channel are new as well. -/
def Stands (new : Addr → Prop) (h h' : Heap) (a : Addr) : Making → Prop
  | environment env frame =>
    ∃ frames, Lists h.words env frames ∧ Shows h'.words a (.environment (frames ++ [frame]))
  | callframe pc env => Shows h'.words a (.callframe (UInt32.ofInt pc).toNat env)
  | blockframe env => Shows h'.words a (.blockframe env)
  | closure arity pc env => Shows h'.words a (.closure arity.toNat (UInt32.ofInt pc).toNat env)
  | channel capacity => ∃ senders receivers, senders ≠ receivers ∧
      Shows h'.words a (.channel capacity.toNat Bool.false senders receivers []) ∧
      ∀ q ∈ [senders, receivers], new q ∧ Shows h'.words q (.queue [])

/-- The tag of what the new node refers to. -/
def target : Making → Tag
  | environment _ _ => .frame
  | callframe _ _ | blockframe _ | closure _ _ _ => .environment
  | channel _ => .waitQueue

/-- What is handed over is of the kind that it is meant to be. -/
def Meant (words : Array Word) : Making → Prop
  | environment env frame => Has words env .environment ∧ ∀ f ∈ refs words env ++ [frame], Has words f .frame
  | callframe _ env | blockframe env | closure _ _ env => Has words env .environment
  | channel _ => True

/-- Reserved nodes and all that `live` leads to are in `h'` what they are in `h`, and so are the pins. -/
structure Spared (live : List Addr) (h h' : Heap) : Prop where
  pinned : h'.pinned = h.pinned
  same : ∀ b, NodeIn h.words b → b < bottom ∨ Closure h.words live b → SameNode h.words h'.words b

/-- `r` is an old node, which is what it was, or a new and empty queue. -/
def OldOrQueue (live : List Addr) (h h' : Heap) (r : Addr) : Prop :=
  Closure h.words live r ∧ SameNode h.words h'.words r ∨
    bottom ≤ r ∧ ¬ Closure h.words live r ∧ Shows h'.words r (.queue [])

/-- The call has made the node at `a`. -/
structure Succeeds (c : Making) (live : List Addr) (h h' : Heap) (a : Addr) : Prop extends Spared live h h' where
  node : NodeIn h'.words a
  high : bottom ≤ a
  distinct : ¬ Closure h.words live a
  stands : c.Stands (fun q => bottom ≤ q ∧ ¬ Closure h.words live q) h h' a
  references : c.Meant h.words → ∀ r ∈ refs h'.words a, Has h'.words r c.target ∧ OldOrQueue live h h' r

/-- The call makes a node or fails; it does not crash. -/
inductive Ends (c : Making) (live : List Addr) (h : Heap) : EStateM.Result Failure Heap Addr → Prop
  | made {a : Addr} {h' : Heap} : c.Succeeds live h h' a → Ends c live h (.ok a h')
  | failed {cause : Cause} {h' : Heap} : Spared live h h' → Ends c live h (.error (.fault cause) h')

section

variable {h h' : Heap} {thunk : Roots} {live free : List Addr} {a : Addr} {c : Making}

/-- The first queue is pinned while the second is made, and both are while the channel is. -/
theorem newChannel_allocates (sound : Sound h)
    (traceable : Traceable h.words (thunk.get ++ h.pinned)) {capacity : Int} (fits : 0 ≤ capacity ∧ capacity ≤ 13) :
    Allocates (thunk.get ++ h.pinned) h (fun h' a =>
        (channel capacity).Stands (fun q => bottom ≤ q ∧ ¬ Reaches h.words (thunk.get ++ h.pinned) q) h h' a)
      (Heap.newChannel thunk capacity h) := by
  rw [Heap.newChannel, if_neg (by unfold maxChannelCapacity; omega)]
  refine Allocates.mono (Allocates.pinning (Q := fun senders h' a => ∃ receivers, senders ≠ receivers ∧
      Shows h'.words a (.channel capacity.toNat Bool.false senders receivers []) ∧
      (bottom ≤ receivers ∧ ¬ Reaches h.words (thunk.get ++ h.pinned) receivers) ∧ Shows h'.words receivers (.queue []))
    sound traceable rfl (newWaitQueue_allocates sound traceable) (fun _ _ _ _ holds => holds)
    fun s h₁ fresh sound₁ traceable₁ => ?_) ?_
  · refine Allocates.mono (Allocates.pinning (Q := fun receivers h' a =>
        Shows h'.words a (.channel capacity.toNat Bool.false s receivers [])) sound₁ traceable₁ rfl
      (newWaitQueue_allocates sound₁ traceable₁) (fun _ _ _ _ holds => holds) fun r h₂ _ sound₂ traceable₂ =>
        channel_allocates sound₂ traceable₂ fits s r) ?_
    rintro h' a - ⟨r, high, dead, shows, -, channel⟩
    refine ⟨r, ?_, channel, ⟨high, fun reach => dead ?_⟩, shows⟩
    · rintro rfl
      exact dead (.root (by simp))
    · refine ((fresh.toKept.reaches sound.sized.small traceable).2 reach).of_subset ?_
      rw [fresh.pinned, ← List.append_assoc]
      exact List.subset_append_left _ _
  · rintro h' a - ⟨s, high, dead, shows, -, r, apart, channel, other⟩
    refine ⟨s, r, apart, channel, ?_⟩
    simp only [List.forall_mem_cons]
    exact ⟨⟨⟨high, dead⟩, shows⟩, other, List.forall_mem_nil _⟩

/-- A call is refused at once, or it allocates. -/
theorem run_allocates (sound : Sound h) (traceable : Traceable h.words (thunk.get ++ (h.pinned ++ c.handed)))
    (used : ∀ a ∈ c.handed, NodeIn h.words a ∧ Layout h.words a) :
    (∃ cause, c.run thunk h = .error (.fault cause) h) ∨
      Allocates (thunk.get ++ (h.pinned ++ c.handed)) h (fun h' a =>
        c.Stands (fun q => bottom ≤ q ∧ ¬ Reaches h.words (thunk.get ++ (h.pinned ++ c.handed)) q) h h' a)
        (c.run thunk h) := by
  cases c with
  | environment env frame =>
    obtain ⟨node, layout⟩ := used env List.mem_cons_self
    obtain ⟨frames, l⟩ := layout.lists node
    by_cases room : frames.length < 15
    · exact .inr ((extend_allocates sound traceable l room).mono fun h' a _ s => ⟨frames, l, s⟩)
    · refine .inl ⟨.environmentCapacity, ?_⟩
      rw [run, extend, bind_of_ok l.childCount, if_pos (by unfold maxChildren; omega)]
      rfl
  | callframe pc env => exact .inr (newCallframe_allocates sound traceable pc)
  | blockframe env => exact .inr (newBlockframe_allocates sound traceable)
  | closure arity pc env =>
    by_cases fits : 0 ≤ arity ∧ arity ≤ 15
    · exact .inr (newClosure_allocates sound traceable fits pc)
    · refine .inl ⟨.closureCapacity arity, ?_⟩
      rw [run, newClosure, if_pos (by unfold maxChildren; omega)]
      rfl
  | channel capacity =>
    by_cases fits : 0 ≤ capacity ∧ capacity ≤ 13
    · simp only [handed, List.append_nil] at traceable ⊢
      exact .inr (newChannel_allocates sound traceable fits)
    · refine .inl ⟨.channelCapacity capacity, ?_⟩
      rw [run, newChannel, if_pos (by unfold maxChannelCapacity; omega)]
      rfl

theorem Spared.of_kept (wf : h.WellFormed free) (valid : Valid h.words live) (kept : Kept live h h') :
    Spared live h h' := by
  refine ⟨kept.pinned, fun b hb held => kept.same b hb (held.elim .inl fun closure => ?_)⟩
  refine (wf.reaches_of_closure valid closure).symm.imp_left fun skipped => skipped.resolve_left ?_
  rintro rfl
  exact not_nodeIn_noAddr wf.sized.small hb

/-- The old nodes that the new one refers to are handed over, or an environment handed over refers to them. -/
theorem Succeeds.of_fresh (wf : h.WellFormed free) (valid : Valid h.words live) (handed : c.handed ⊆ live)
    (fresh : Fresh live h h' a) (stands : c.Stands (fun q => bottom ≤ q ∧ ¬ Reaches h.words live q) h h' a) :
    c.Succeeds live h h' a := by
  have spared := Spared.of_kept wf valid fresh.toKept
  have new : ∀ {q}, NodeIn h'.words q → bottom ≤ q → ¬ Reaches h.words live q → ¬ Closure h.words live q := by
    intro q node high dead closure
    exact dead ((wf.closure_iff valid ((nodeIn_congr fresh.size).1 node) high).1 closure)
  have old : ∀ {r}, Closure h.words live r → Has h.words r c.target →
      Has h'.words r c.target ∧ OldOrQueue live h h' r := by
    intro r closure has
    have same := spared.same r has.1 (.inr closure)
    exact ⟨⟨(nodeIn_congr fresh.size).2 has.1, same.sameBody.tagAt.trans has.2⟩, .inl ⟨closure, same⟩⟩
  have node : ∀ n, Shows h'.words a n → c.Stands (fun q => bottom ≤ q ∧ ¬ Closure h.words live q) h h' a →
      (c.Meant h.words → ∀ r ∈ n.references, Has h'.words r c.target ∧ OldOrQueue live h h' r) →
      c.Succeeds live h h' a := by
    intro n s stands references
    exact ⟨spared, s.node, fresh.high, new s.node fresh.high fresh.unreached, stands, s.refs.symm ▸ references⟩
  cases c with
  | environment env frame =>
    obtain ⟨frames, l, s⟩ := stands
    refine node _ s ⟨frames, l, s⟩ fun meant r mem => ?_
    obtain ⟨is, frameHas⟩ := meant
    have pointers : IsPointers (tagAt h.words env) := is.2 ▸ .inr (.inl rfl)
    rw [l.refs pointers] at frameHas
    have root : Closure h.words live env := .root (handed List.mem_cons_self)
    refine old ?_ (frameHas r mem)
    rcases List.mem_append.1 mem with mem | mem
    · have regular : Regular h.words env :=
        .inr (.inl ⟨pointers, by rw [l.size]; have := l.room; unfold nodeSize; omega⟩)
      exact root.step ((refers_iff_of_regular l.node regular).2 (by rwa [l.refs pointers]))
    · exact .root (handed (List.mem_cons_of_mem _ mem))
  | callframe pc env | blockframe env | closure arity pc env =>
    refine node _ stands stands fun has r mem => ?_
    obtain rfl := List.mem_singleton.1 mem
    exact old (.root (handed mem)) has
  | channel capacity =>
    obtain ⟨s, r, apart, channel, each⟩ := stands
    have each : ∀ q ∈ [s, r], (bottom ≤ q ∧ ¬ Closure h.words live q) ∧ Shows h'.words q (.queue []) := by
      intro q mem
      obtain ⟨⟨high, dead⟩, shows⟩ := each q mem
      exact ⟨⟨high, new shows.node high dead⟩, shows⟩
    refine node _ channel ⟨s, r, apart, channel, each⟩ fun _ q mem => ?_
    obtain ⟨⟨high, distinct⟩, shows⟩ := each q mem
    exact ⟨⟨shows.node, shows.tagAt⟩, .inr ⟨high, distinct, shows⟩⟩

theorem Ends.succeeds {r : EStateM.Result Failure Heap Addr} (ends : c.Ends live h r) (run : r = .ok a h') :
    c.Succeeds live h h' a := by
  cases ends with
  | made succeeds =>
    cases run
    exact succeeds
  | failed => cases run

theorem run_ends (wf : h.WellFormed free) (used : ∀ a ∈ c.handed, NodeIn h.words a ∧ Layout h.words a)
    (valid : Valid h.words (thunk.get ++ h.pinned ++ c.handed)) :
    c.Ends (thunk.get ++ h.pinned ++ c.handed) h (c.run thunk h) := by
  have sound := wf.sound
  have traceable := wf.traceable valid
  rw [List.append_assoc] at traceable valid ⊢
  rcases run_allocates sound traceable used with
    ⟨cause, run⟩ | ⟨a, h', run, fresh, stands⟩ | ⟨k, h', run, kept⟩
  · rw [run]
    exact .failed ⟨rfl, fun _ _ _ _ _ => rfl⟩
  · rw [run]
    exact .made (.of_fresh wf valid (fun x mem => by simp [mem]) fresh stands)
  · rw [run]
    exact .failed (.of_kept wf valid kept)

end

end Making

theorem used_ouroboros : ∀ a ∈ [globalEnv, 256], NodeIn ouroboros.words a ∧ Layout ouroboros.words a := by
  have env : Shows ouroboros.words globalEnv (.environment [builtinsFrame]) := by decide +kernel
  have frame : Shows ouroboros.words 256 (.frame [256]) := by decide +kernel
  exact List.forall_mem_cons.2 ⟨env.used, List.forall_mem_singleton.2 frame.used⟩

theorem extend_ouroboros : ∃ h', extend (.pure []) globalEnv 256 ouroboros = .ok 272 h' :=
  ok_of_run' (by decide +kernel)

/-- The global environment, the frame that holds itself, and the builtins that they lead to. -/
def household : List Addr := [globalEnv, 256, builtinsFrame] ++ (List.range 10).map fun i => (64 + 16 * i).toUInt32

theorem roots_household : [globalEnv, 256] ⊆ household :=
  List.cons_subset.2 ⟨by decide, List.cons_subset.2 ⟨by decide, List.nil_subset _⟩⟩

theorem valid_household {words : Array Word}
    (closed : household.all fun x => ((references words x).toOption.getD []).all household.contains)
    (used : household.all fun x => decide (NodeIn words x ∧ (x < bottom ∨ tagAt words x ≠ .free))) :
    Valid words [globalEnv, 256] := by
  intro a closure
  exact .inr (of_decide_eq_true (List.all_eq_true.1 used a (closure.mem_of_closed roots_household closed)))

theorem valid_ouroboros : Valid ouroboros.words [globalEnv, 256] :=
  valid_household (by decide +kernel) (by decide +kernel)

end Heap

end FiberVm
