import FiberVm.Heap.Value
import FiberVm.Proofs.Heap.Shape
import FiberVm.Proofs.Heap.Spares

/-!
# Making nodes in a shaped heap

A constructor takes a node and fills it in, if need be after a collection. Unless that crashes the heap
keeps its shape, and what the roots and the pins name is what it was. Nothing is written to but the node that has
been taken. A constructor that faults has at most collected.
-/

set_option autoImplicit false

namespace FiberVm

namespace Heap

/-- The outcome of making the node `n`. -/
def Makes (P : Int → Prop) (roots : List Addr) (n : Node) (h : Heap) :
    EStateM.Result Failure Heap Addr → Prop :=
  Yields (fun a h' => Grows P (Held (roots ++ h.pinned)) h h' ∧ Shows h'.words a n ∧
      Mints (Held (roots ++ h.pinned)) a h h')
    (Grows P (Held (roots ++ h.pinned)) h)

section

variable {P : Int → Prop} {K : Addr → Prop} {h h' : Heap} {thunk : Roots} {roots : List Addr} {n : Node}
  {tag : Tag} {size : Int} {k : Nat}

theorem Grows.release {as : List Addr} (grows : Grows P K { h with pinned := h.pinned ++ as } h') :
    Grows P K h (h'.release h.pinned.length) := by
  refine ⟨grows.shaped.with_pins _, grows.size, ?_, grows.same⟩
  rw [Heap.release, grows.pinned]
  exact List.take_left

theorem Held.mono {as bs : List Addr} (sub : as ⊆ bs) {b : Addr} (held : Held as b) : Held bs b :=
  held.imp_right (sub ·)

/-- What is pinned for the time of an operation is pinned no more. -/
theorem Yields.withPins {as : List Addr} {op : HeapM Addr} {Q : Addr → Heap → Prop} {F : Heap → Prop}
    (yields : Yields (fun a h' => Q a (h'.release h.pinned.length)) (fun h' => F (h'.release h.pinned.length))
      (op { h with pinned := h.pinned ++ as })) : Yields Q F (withPins as op h) := by
  unfold Heap.withPins
  cases run : op { h with pinned := h.pinned ++ as } with
  | ok a h' =>
    rw [run] at yields
    exact yields
  | error e h' =>
    rw [run] at yields
    cases e with
    | fault c => exact yields
    | crash c => trivial

theorem Makes.withPins (as : List Addr) {op : HeapM Addr}
    (makes : Makes P roots n { h with pinned := h.pinned ++ as } (op { h with pinned := h.pinned ++ as })) :
    Makes P roots n h (withPins as op h) := by
  have wider : ∀ b, Held (roots ++ h.pinned) b → Held (roots ++ (h.pinned ++ as)) b := fun b =>
    .mono (List.append_subset.2 ⟨List.subset_append_left .., fun x mem => by simp [mem]⟩)
  refine Yields.withPins (Yields.imp makes (fun a h' _ made => ?_) fun h' grows => ?_)
  · exact ⟨(made.1.mono wider).release, made.2.1, made.2.2.with_pins wider⟩
  · exact (grows.mono wider).release

/-- Taking a node and filling it in. The node must be linked once the collection, if any, is over. -/
theorem Shaped.allocate (shaped : Shaped P h) (start : ∀ r ∈ thunk.get ++ h.pinned, IsAddress h.words r)
    (count : size = k) (used : tag ≠ .free) {body : Addr → HeapM Addr}
    (fill : ∀ a h₁ h₂, Grows P (Held (thunk.get ++ h.pinned)) h h₁ → k ≤ nodeSize → Popped tag k h₁ h₂ a →
      ∃ h₃, body a h₂ = .ok a h₃ ∧ Updates h₂ h₃ a n)
    (linked : ∀ a h₁, Grows P (Held (thunk.get ++ h.pinned)) h h₁ → bottom ≤ a → Linked P h₁.words a n) :
    Makes P thunk.get n h ((Heap.allocate thunk tag size >>= body) h) := by
  have goes := allocate_goes thunk tag size h
  rw [Makes]
  generalize allocated : Heap.allocate thunk tag size h = r at goes
  cases goes with
  | refused =>
    rw [bind_of_error allocated]
    trivial
  | crashed _ _ failed =>
    obtain ⟨c, rfl⟩ := collect_crashes failed
    rw [bind_of_error allocated]
    trivial
  | exhausted _ _ collected =>
    rw [bind_of_error allocated]
    exact shaped.collect start (shaped.collect_visit thunk start collected)
  | @taken a h₁ fits source head =>
    have le : k ≤ nodeSize := by omega
    rw [show size.toNat = k by omega] at allocated
    obtain ⟨grows, drift, spares⟩ : Grows P (Held (thunk.get ++ h.pinned)) h h₁ ∧ Drift [] h h₁ ∧ Spares [] [] h h₁ := by
      obtain rfl | ⟨-, _, ran⟩ := source
      · exact ⟨.refl shaped, .refl _, .refl _⟩
      · have collected := shaped.collect_visit thunk start ran
        obtain ⟨l, c⟩ := shaped.collected start collected
        exact ⟨shaped.collect start collected, c.drift, c.spares ran⟩
    obtain ⟨h₂, run, popped⟩ := take_popped grows.shaped.toSound head tag le
    obtain ⟨h₃, run', u⟩ := fill a h₁ h₂ grows le popped
    rw [bind_of_ok (allocated.trans run), run']
    have filled := grows.shaped.fill popped le used u (linked a h₁ grows popped.high)
    have mints : Mints (Held (thunk.get ++ h.pinned)) a h h₂ := by
      refine ⟨drift.trans popped.drift, spares.trans (popped.spares head run), popped.high, fun b node here kept => ?_⟩
      -- What is kept was in use before the collection, and it still is.
      rintro rfl
      exact here ((grows.same b node here kept).tagAt.symm.trans popped.free)
    exact ⟨grows.trans (filled.mono fun _ _ => trivial), u.shows, mints.only u.toOnly (tagAt_blank le popped.edited ▸ used)⟩

end

section Constructors

variable {P : Int → Prop} {h : Heap} {thunk : Roots} {env frame : Addr}

/-- The addresses pinned by a constructor are among its roots. -/
theorem start_pins (as : List Addr) (start : ∀ r ∈ thunk.get ++ h.pinned, IsAddress h.words r)
    (new : ∀ r ∈ as, IsAddress h.words r) : ∀ r ∈ thunk.get ++ (h.pinned ++ as), IsAddress h.words r := by
  intro r mem
  rw [← List.append_assoc] at mem
  exact (List.mem_append.1 mem).elim (start r) (new r)

/-- A constructor whose node has an environment as its only reference. -/
theorem linked_env (has : Has h.words env .environment) {n : Node} (ties : n.ties = [(env, .environment)])
    (references : n.references = [env]) (entries : ∀ pc ∈ n.entries, P pc) (a : Addr) (h₁ : Heap)
    (grows : Grows P (Held (thunk.get ++ (h.pinned ++ [env]))) { h with pinned := h.pinned ++ [env] } h₁)
    (high : bottom ≤ a) : Linked P h₁.words a n := by
  have has := grows.has has nofun (.inr (by simp))
  refine .of_high high (fun x mem => ?_) (fun c mem => ?_) entries
  · rw [ties, List.mem_singleton] at mem
    exact mem ▸ has
  · rw [references, List.mem_singleton] at mem
    exact .inr (mem ▸ has.1)

variable (shaped : Shaped P h) (start : ∀ r ∈ thunk.get ++ h.pinned, IsAddress h.words r)
include shaped start

theorem newInt_makes (k : Int64) : Makes P thunk.get (.int k) h (newInt thunk k h) :=
  shaped.allocate start (k := 2) rfl (by decide) (fun _ _ _ _ _ popped => fill_int popped.edited k)
    fun a h₁ _ high => .of_high high nofun nofun nofun

theorem newWaitGroup_makes : Makes P thunk.get (.group 0 []) h (newWaitGroup thunk h) := by
  rw [newWaitGroup, ← bind_pure (allocate thunk .waitGroup nodeSize)]
  exact shaped.allocate start rfl (by decide) (fun a _ h₂ _ _ popped => ⟨h₂, rfl, .refl h₂ a, shows_group popped.edited⟩)
    fun a h₁ _ high => .of_high high nofun nofun nofun

theorem newWaitQueue_makes : Makes P thunk.get (.queue []) h (newWaitQueue thunk h) := by
  rw [newWaitQueue, ← bind_pure (allocate thunk .waitQueue nodeSize)]
  exact shaped.allocate start rfl (by decide) (fun a _ h₂ _ _ popped => ⟨h₂, rfl, .refl h₂ a, shows_queue popped.edited⟩)
    fun a h₁ _ high => .of_high high nofun nofun nofun

theorem newFrame_makes (slots : Int) :
    Makes P thunk.get (.frame (List.replicate slots.toNat unassigned)) h (newFrame thunk slots h) := by
  unfold newFrame
  split
  · exact .refl shaped
  · next fits =>
    have fits : 0 ≤ slots ∧ slots ≤ 15 := by unfold maxChildren at fits; omega
    refine shaped.allocate start (k := slots.toNat + 1) (by omega) (by decide)
      (fun _ _ _ _ _ popped => fill_frame fits popped.edited) fun a h₁ grows high => .of_high high nofun ?_ nofun
    intro c mem
    rw [List.eq_of_mem_replicate mem]
    exact .inr (grows.shaped.sized.nodeIn_low (by decide) (by decide))

theorem channel_makes {senders receivers : Addr} (sends : Has h.words senders .waitQueue)
    (receives : Has h.words receivers .waitQueue) (pinned : senders ∈ h.pinned ∧ receivers ∈ h.pinned)
    {capacity : Int} (fits : 0 ≤ capacity ∧ capacity ≤ 13) :
    Makes P thunk.get (.channel capacity.toNat Bool.false senders receivers []) h
      ((do
        let ch ← allocate thunk .intChannel (3 + capacity)
        setField ch 7 capacity.toNat.toUInt8
        setChild ch 0 senders
        setChild ch 1 receivers
        return ch : HeapM Addr) h) := by
  refine shaped.allocate start (k := 3 + capacity.toNat) (by omega) (by decide)
    (fun _ _ _ _ _ popped => fill_channel fits popped.edited senders receivers) fun a h₁ grows high => ?_
  have queue : ∀ c, c = senders ∨ c = receivers → Has h₁.words c .waitQueue := by
    rintro c (rfl | rfl)
    · exact grows.has sends nofun (.inr (List.mem_append_right _ pinned.1))
    · exact grows.has receives nofun (.inr (List.mem_append_right _ pinned.2))
  refine .of_high high (fun x mem => ?_) (fun c mem => .inr (queue c ?_).1) nofun
  · have tie : x = (senders, .waitQueue) ∨ x = (receivers, .waitQueue) := by simpa [Node.ties] using mem
    rcases tie with rfl | rfl
    · exact queue _ (.inl rfl)
    · exact queue _ (.inr rfl)
  · simpa [Node.references] using mem

/-- The outcome of making some value. -/
def Builds (P : Int → Prop) (roots : List Addr) (h : Heap) : EStateM.Result Failure Heap Addr → Prop :=
  Yields (fun a h' => Grows P (Held (roots ++ h.pinned)) h h' ∧ IsAddress h'.words a ∧ Slight h h')
    (Grows P (Held (roots ++ h.pinned)) h)

omit shaped start in
theorem Makes.builds {roots : List Addr} {n : Node} {r : EStateM.Result Failure Heap Addr}
    (makes : Makes P roots n h r) (plain : ¬ IsSync n.tag) : Builds P roots h r := by
  refine Yields.imp makes (fun a h' _ made => ⟨made.1, .inr made.2.1.node, made.2.2.slight ?_⟩) fun _ grows => grows
  rw [made.2.1.tagAt]
  exact plain

/-- The outcome of making a channel with two empty queues. -/
def Founds (P : Int → Prop) (roots : List Addr) (capacity : Nat) (h : Heap) : EStateM.Result Failure Heap Addr → Prop :=
  Yields (fun ch h' => Grows P (Held (roots ++ h.pinned)) h h' ∧
      ∃ s r, NewChannel capacity ch s r h h' ∧ Spares [] [s, r, ch] h h')
    (Grows P (Held (roots ++ h.pinned)) h)

theorem newChannel_founds (capacity : Int) : Founds P thunk.get capacity.toNat h (newChannel thunk capacity h) := by
  unfold newChannel
  split
  · exact .refl shaped
  next out =>
  have fits : 0 ≤ capacity ∧ capacity ≤ 13 := by unfold maxChannelCapacity at out; omega
  refine Yields.bind (newWaitQueue_makes shaped start) (fun senders h₁ _ made => ?_) fun _ grows => grows
  obtain ⟨grows₁, sends, mints₁⟩ := made
  have start₁ : ∀ r ∈ thunk.get ++ h₁.pinned, IsAddress h₁.words r := by
    rw [grows₁.pinned]
    exact fun r mem => (isAddress_congr grows₁.size).2 (start r mem)
  have start₂ := start_pins [senders] start₁ (by simpa using .inr sends.node)
  -- What is done with the first queue pinned, seen from before it was made.
  have whole : ∀ h', Grows P (Held (thunk.get ++ (h₁.pinned ++ [senders])))
      { h₁ with pinned := h₁.pinned ++ [senders] } h' →
      Grows P (Held (thunk.get ++ h.pinned)) h (h'.release h₁.pinned.length) := by
    intro h' grows
    refine grows₁.trans (grows.release.mono fun b => .mono ?_)
    rw [grows₁.pinned]
    exact List.append_subset.2 ⟨List.subset_append_left .., fun x mem => by simp [mem]⟩
  refine Yields.withPins (Yields.bind (newWaitQueue_makes (grows₁.shaped.with_pins _) start₂)
    (fun receivers h₂ _ made => ?_) whole)
  obtain ⟨grows₂, receives, mints₂⟩ := made
  have pinned : h₂.pinned = h₁.pinned ++ [senders] := grows₂.pinned
  have start₃ : ∀ r ∈ thunk.get ++ (h₂.pinned ++ [receivers]), IsAddress h₂.words r := by
    refine start_pins [receivers] (fun r mem => (isAddress_congr grows₂.size).2 ?_) (by simpa using .inr receives.node)
    exact start₂ r (pinned ▸ mem)
  have sends₂ := grows₂.shows (h := { h₁ with pinned := h₁.pinned ++ [senders] }) sends (.inr (by simp))
  have made := Makes.withPins [receivers] (channel_makes (grows₂.shaped.with_pins _) start₃ sends₂.has receives.has
    (by simp [pinned]) fits)
  unfold Makes at made
  rw [pinned] at made
  refine made.imp (fun ch h₃ run last => ⟨whole h₃ (grows₂.trans last.1), senders, receivers, ?_⟩) fun h' last =>
    whole h' (grows₂.trans last)
  obtain ⟨grows₃, channel, mints₃⟩ := last
  have ties := (grows₃.shaped.channel channel).ties
  have sends₃ : Has h₃.words senders .waitQueue := ties _ List.mem_cons_self
  have receives₃ : Has h₃.words receivers .waitQueue := ties _ (List.mem_cons_of_mem _ List.mem_cons_self)
  -- A queue that is in use at the end is none that became the channel, and it is what it was.
  have queue : ∀ {q}, Shows h₂.words q (.queue []) → Has h₃.words q .waitQueue → Shows h₃.words q (.queue []) := by
    intro q s has
    have other : q ∉ [ch] := fun mem => by
      rw [List.mem_singleton.1 mem] at has
      cases has.2.symm.trans channel.tagAt
    exact s.of_same (mints₃.drift.sync q s.node other (.inr (.inl has.2))) mints₃.drift.size
  have mints₂ : Mints (Held (thunk.get ++ (h₁.pinned ++ [senders]))) receivers h₁ { h₂ with pinned := h₂.pinned } :=
    mints₂.with_pins fun _ kept => kept
  refine ⟨⟨?_, channel, queue sends₂ sends₃, queue receives receives₃, ?_, mints₁.high, mints₂.high, mints₃.high⟩, ?_⟩
  · have drift := (mints₁.drift.trans mints₂.drift).trans mints₃.drift
    exact ⟨drift.size, drift.sync, drift.linked⟩
  · exact mints₂.apart senders sends.node (sends.tagAt ▸ nofun) (.inr (by simp))
  · exact ((mints₁.spares.trans mints₂.spares).trans mints₃.spares).with_pins

theorem box_builds (c : Constant) : Builds P thunk.get h (box thunk c h) := by
  have reserved : ∀ a : Addr, a.toNat % nodeSize = 0 → a < bottom → IsAddress h.words a := fun a aligned low =>
    .inr (shaped.sized.nodeIn_low aligned low)
  have same : ∀ {a}, IsAddress h.words a → Builds P thunk.get h (.ok a h) := fun is => ⟨.refl shaped, is, .refl h⟩
  cases c with
  | nil => exact same (reserved nil (by decide) (by decide))
  | undefined => exact same (reserved unassigned (by decide) (by decide))
  | bool b => cases b <;> exact same (reserved _ (by decide) (by decide))
  | int bits n => exact (newInt_makes shaped start n).builds (show ¬ IsSync .int by decide)
  | ref a =>
    change Builds P thunk.get h ((if h.isNode a then (do
        let tag ← tagOf a
        if tag = .intChannel ∨ tag = .waitGroup then return a else fault (.refTo tag))
      else fault (.danglingRef a) : HeapM Addr) h)
    split
    · next inside =>
      have ha : NodeIn h.words a := by
        have aligned := shaped.sized.aligned
        simp only [isNode, nodeSize, Bool.and_eq_true, decide_eq_true_eq, beq_iff_eq] at inside aligned
        exact ⟨inside.2, by unfold nodeSize; omega⟩
      rw [bind_of_ok (tagOf_ok ha)]
      split
      · exact same (.inr ha)
      · exact .refl shaped
    · exact .refl shaped
  | uint64 _ | float64 _ | string _ => exact .refl shaped

variable (has : Has h.words env .environment)
include has

theorem newBlockframe_makes : Makes P thunk.get (.blockframe env) h (newBlockframe thunk env h) := by
  have start' := start_pins [env] start (by simpa using .inr has.1)
  refine Makes.withPins [env] (Shaped.allocate (shaped.with_pins _) start' (k := 2) rfl (by decide) ?_ ?_)
  · exact fun _ _ _ _ _ popped => fill_blockframe popped.edited env
  · exact linked_env has rfl rfl nofun

theorem newCallframe_makes (pc : Int) (entry : P (UInt32.ofInt pc).toNat) :
    Makes P thunk.get (.callframe (UInt32.ofInt pc).toNat env) h (newCallframe thunk pc env h) := by
  have start' := start_pins [env] start (by simpa using .inr has.1)
  refine Makes.withPins [env] (Shaped.allocate (shaped.with_pins _) start' (k := 2) rfl (by decide) ?_ ?_)
  · exact fun _ _ _ _ _ popped => fill_callframe popped.edited pc env
  · exact linked_env has rfl rfl (by simpa [Node.entries] using entry)

theorem newClosure_makes (arity pc : Int) (entry : P (UInt32.ofInt pc).toNat) :
    Makes P thunk.get (.closure arity.toNat (UInt32.ofInt pc).toNat env) h (newClosure thunk arity pc env h) := by
  unfold newClosure
  split
  · exact .refl shaped
  · next fits =>
    have fits : 0 ≤ arity ∧ arity ≤ 15 := by unfold maxChildren at fits; omega
    have start' := start_pins [env] start (by simpa using .inr has.1)
    refine Makes.withPins [env] (Shaped.allocate (shaped.with_pins _) start' (k := 2) rfl (by decide) ?_ ?_)
    · exact fun _ _ _ _ _ popped => fill_closure popped.edited fits pc env
    · exact linked_env has rfl rfl (by simpa [Node.entries] using entry)

/-- The frames of an environment are tied to it, so those of the one extended are there. -/
theorem extend_makes (frameHas : Has h.words frame .frame) :
    ∃ frames, Shows h.words env (.environment frames) ∧
      Makes P thunk.get (.environment (frames ++ [frame])) h (extend thunk env frame h) := by
  obtain ⟨frames, s, -⟩ := shaped.environment has
  refine ⟨frames, s, ?_⟩
  have count : childCount env h = .ok ((frames.length + 1 : Nat) - 1) h := childCount_shows s
  unfold extend
  rw [bind_of_ok count]
  split
  · exact .refl shaped
  · next room =>
    have room : frames.length < 15 := by unfold maxChildren at room; omega
    have start' := start_pins [env, frame] start (by simp [IsAddress, has.1, frameHas.1])
    refine Makes.withPins [env, frame] (Shaped.allocate (shaped.with_pins _) start' (k := frames.length + 1 + 1) (by omega)
      (by decide) (fun a h₁ h₂ grows le popped => ?_) fun a h₁ grows high => ?_)
    · have s₁ := grows.shows (h := { h with pinned := h.pinned ++ [env, frame] }) s (.inr (by simp))
      have apart : env ≠ a := by
        rintro rfl
        exact s₁.layout.tagAt_ne popped.free
      have s₂ := (s₁.lists (.inr rfl)).of_same (popped.others env s₁.node apart) popped.room
      exact fill_environment popped.edited s₂ apart room frame
    · have s₁ := grows.shows (h := { h with pinned := h.pinned ++ [env, frame] }) s (.inr (by simp))
      have last := grows.has (h := { h with pinned := h.pinned ++ [env, frame] }) frameHas (by decide) (.inr (by simp))
      obtain ⟨frames', s₂, each⟩ := grows.shaped.environment s₁.has
      obtain rfl : frames' = frames := s₂.refs.symm.trans s₁.refs
      have frame : ∀ f ∈ frames' ++ [frame], Has h₁.words f .frame := by
        simpa [or_imp, forall_and] using ⟨each, last⟩
      refine .of_high high (fun x mem => ?_) (fun c mem => .inr (frame c mem).1) (List.forall_mem_nil _)
      obtain ⟨f, inside, rfl⟩ := List.mem_map.1 mem
      exact frame f inside

end Constructors

end Heap

end FiberVm
