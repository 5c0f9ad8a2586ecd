import FiberVm.Proofs.Heap.Allocation
import FiberVm.Proofs.Heap.Stale

/-!
# The shape of a heap with stale references

Values may be stale: a variable of the outermost frame does not keep its value alive, so what it holds may
have become any node by the time it is read. The references that a node's layout depends on are never
stale. The frames of an environment are frames, a call, a block and a closure have an environment, and a
channel has its two wait queues. This and what saved program counters satisfy is kept by writes, by
collections that do not crash, and by taking nodes into use.
-/

set_option autoImplicit false

namespace FiberVm

section Yields

variable {σ α β : Type} {s : σ} {Q : α → σ → Prop} {F : σ → Prop}

/-- The outcome is in `Q`, or it is a fault in `F`, or a crash. -/
def Yields (Q : α → σ → Prop) (F : σ → Prop) : EStateM.Result Failure σ α → Prop
  | .ok a s => Q a s
  | .error (.fault _) s => F s
  | .error (.crash _) _ => True

namespace Yields

variable {r : EStateM.Result Failure σ α} {Q' : α → σ → Prop} {F' : σ → Prop}

theorem imp (yields : Yields Q F r) (ok : ∀ a s, r = .ok a s → Q a s → Q' a s) (fault : ∀ s, F s → F' s) :
    Yields Q' F' r := by
  cases r with
  | ok a s => exact ok a s rfl yields
  | error e s =>
    cases e with
    | fault c => exact fault s yields
    | crash c => trivial

theorem bind {x : EStateM Failure σ α} {k : α → EStateM Failure σ β} {Q' : β → σ → Prop}
    (first : Yields Q F (x s)) (rest : ∀ a s', x s = .ok a s' → Q a s' → Yields Q' F' (k a s'))
    (fault : ∀ s, F s → F' s) : Yields Q' F' ((x >>= k) s) := by
  cases run : x s with
  | ok a s' =>
    rw [run] at first
    rw [bind_of_ok run]
    exact rest a s' run first
  | error e s' =>
    rw [run] at first
    rw [bind_of_error run]
    cases e with
    | fault c => exact fault s' first
    | crash c => trivial

end Yields

end Yields

namespace Heap

def Has (words : Array Word) (a : Addr) (t : Tag) : Prop := NodeIn words a ∧ tagAt words a = t

end Heap

open Heap

namespace Node

/-- The references that are never stale, with the tags of their targets. -/
def ties : Node → List (Addr × Tag)
  | environment frames => frames.map (·, .frame)
  | callframe _ e | blockframe e | closure _ _ e => [(e, .environment)]
  | channel _ _ s r _ => [(s, .waitQueue), (r, .waitQueue)]
  | _ => []

/-- The program counter that is saved in the node, if there is one. -/
def entries : Node → List Nat
  | callframe pc _ | closure _ pc _ => [pc]
  | _ => []

/-- The node is an entry of a runtime stack. -/
def IsActivation (n : Node) : Prop := n.tag = .callframe ∨ n.tag = .blockframe

variable {n : Node} {x : Addr × Tag}

theorem mem_references_of_ties (mem : x ∈ n.ties) : x.1 ∈ n.references := by
  cases n with
  | environment frames =>
    obtain ⟨f, inside, rfl⟩ := List.mem_map.1 mem
    exact inside
  | callframe _ e | blockframe e | closure _ _ e =>
    obtain rfl := List.mem_singleton.1 mem
    exact List.mem_singleton_self _
  | channel _ _ s r items =>
    rcases List.mem_cons.1 mem with rfl | mem
    · exact List.mem_cons_self
    · obtain rfl := List.mem_singleton.1 mem
      exact List.mem_cons_of_mem s List.mem_cons_self
  | literal _ | int _ | builtin _ _ | frame _ | queue _ | group _ _ => cases mem

theorem ne_free_of_ties (mem : x ∈ n.ties) : x.2 ≠ .free := by
  cases n with
  | environment frames =>
    obtain ⟨f, -, rfl⟩ := List.mem_map.1 mem
    exact nofun
  | callframe _ e | blockframe e | closure _ _ e =>
    obtain rfl := List.mem_singleton.1 mem
    exact nofun
  | channel _ _ s r items =>
    rcases List.mem_cons.1 mem with rfl | mem
    · exact nofun
    · obtain rfl := List.mem_singleton.1 mem
      exact nofun
  | literal _ | int _ | builtin _ _ | frame _ | queue _ | group _ _ => cases mem

end Node

namespace Heap

/-- What the node `n` at `a` refers to is there: what is not to be stale has the tag it should have. Saved
program counters satisfy `P`. -/
structure Linked (P : Int → Prop) (words : Array Word) (a : Addr) (n : Node) : Prop where
  ties : ∀ x ∈ n.ties, Has words x.1 x.2
  low : a < bottom → ∀ x ∈ n.ties, x.1 < bottom
  inside : ∀ c ∈ n.references, IsAddress words c
  entries : ∀ pc ∈ n.entries, P pc

/-- Every node in use stands for something that is linked. -/
structure Shaped (P : Int → Prop) (h : Heap) : Prop extends Sound h where
  nodes : ∀ a, NodeIn h.words a → tagAt h.words a ≠ .free → ∃ n, Shows h.words a n ∧ Linked P h.words a n

/-- The heap is still shaped, and the nodes in use that are in `K` are what they were. -/
structure Grows (P : Int → Prop) (K : Addr → Prop) (h h' : Heap) : Prop where
  shaped : Shaped P h'
  size : h'.words.size = h.words.size
  pinned : h'.pinned = h.pinned
  same : ∀ b, NodeIn h.words b → tagAt h.words b ≠ .free → K b → SameNode h.words h'.words b

/-- The address is reserved or one of those given; a collection from these leaves it alone. -/
def Held (as : List Addr) (b : Addr) : Prop := b < bottom ∨ b ∈ as

section

variable {P : Int → Prop} {K K' : Addr → Prop} {h h' h'' : Heap} {words words' : Array Word} {a b : Addr}
  {n : Node} {t : Tag}

theorem Has.of_same (has : Has words a t) (size : words'.size = words.size) (same : SameNode words words' a) :
    Has words' a t := by
  refine ⟨(nodeIn_congr size).2 has.1, ?_⟩
  rw [Heap.tagAt, same 0 (by decide)]
  exact has.2

theorem Shows.has (s : Shows words a n) : Has words a n.tag := ⟨s.node, s.tagAt⟩

theorem Shows.tag_ne_free (s : Shows words a n) : n.tag ≠ .free := fun free => by
  have used := s.layout.tagAt_ne
  rw [s.tagAt] at used
  exact used free

theorem Shows.not_literal (s : Shows words a (.literal t)) (other : t = .frame ∨ t = .environment ∨ t = .waitQueue) :
    False := by
  have literal : t = .nil ∨ t = .unassigned ∨ t = .true ∨ t = .false := s.body
  rcases literal with rfl | rfl | rfl | rfl
  all_goals revert other; decide

theorem Shows.frame_of_tag (s : Shows words a n) (tag : n.tag = .frame) : ∃ slots, n = .frame slots := by
  cases n with
  | frame slots => exact ⟨slots, rfl⟩
  | literal t => exact (s.not_literal (.inl tag)).elim
  | _ => exact absurd tag nofun

theorem Shows.environment_of_tag (s : Shows words a n) (tag : n.tag = .environment) :
    ∃ frames, n = .environment frames := by
  cases n with
  | environment frames => exact ⟨frames, rfl⟩
  | literal t => exact (s.not_literal (.inr (.inl tag))).elim
  | _ => exact absurd tag nofun

theorem Shows.queue_of_tag (s : Shows words a n) (tag : n.tag = .waitQueue) : ∃ waiters, n = .queue waiters := by
  cases n with
  | queue waiters => exact ⟨waiters, rfl⟩
  | literal t => exact (s.not_literal (.inr (.inr tag))).elim
  | _ => exact absurd tag nofun

theorem Linked.mono (linked : Linked P words a n) (size : words'.size = words.size)
    (ties : ∀ x ∈ n.ties, Has words x.1 x.2 → Has words' x.1 x.2) : Linked P words' a n :=
  ⟨fun x mem => ties x mem (linked.ties x mem), linked.low,
    fun c mem => (isAddress_congr size).2 (linked.inside c mem), linked.entries⟩

theorem Linked.of_high (high : bottom ≤ a) (ties : ∀ x ∈ n.ties, Has words x.1 x.2)
    (inside : ∀ c ∈ n.references, IsAddress words c) (entries : ∀ pc ∈ n.entries, P pc) : Linked P words a n :=
  ⟨ties, fun low => absurd low (UInt32.not_lt.2 high), inside, entries⟩

theorem Linked.of_plain (ties : n.ties = []) (entries : n.entries = [])
    (inside : ∀ c ∈ n.references, IsAddress words c) : Linked P words a n :=
  ⟨by simp [ties], by simp [ties], inside, by simp [entries]⟩

theorem Shaped.tidy (shaped : Shaped P h) : Tidy h.words := by
  refine ⟨shaped.sized, shaped.unmarked, fun a ha used => ?_⟩
  obtain ⟨n, s, linked⟩ := shaped.nodes a ha used
  rw [s.refs]
  exact ⟨s.layout.regular, linked.inside⟩

theorem Shaped.has (shaped : Shaped P h) (has : Has h.words a t) (used : t ≠ .free) :
    ∃ n, Shows h.words a n ∧ Linked P h.words a n ∧ n.tag = t := by
  obtain ⟨n, s, linked⟩ := shaped.nodes a has.1 (has.2 ▸ used)
  exact ⟨n, s, linked, s.tagAt.symm.trans has.2⟩

theorem Shaped.environment (shaped : Shaped P h) (has : Has h.words a .environment) :
    ∃ frames, Shows h.words a (.environment frames) ∧ ∀ f ∈ frames, Has h.words f .frame := by
  obtain ⟨n, s, linked, tag⟩ := shaped.has has nofun
  obtain ⟨frames, rfl⟩ := s.environment_of_tag tag
  exact ⟨frames, s, fun f mem => linked.ties (f, .frame) (List.mem_map.2 ⟨f, mem, rfl⟩)⟩

theorem Shaped.inside (shaped : Shaped P h) (s : Shows h.words a n) : ∀ c ∈ n.references, IsAddress h.words c := by
  rw [← s.refs]
  exact (shaped.tidy.used a s.node s.layout.tagAt_ne).2

theorem Shaped.waiter (shaped : Shaped P h) {ws : List Waiter} (s : Shows h.words a (.queue ws)) {w : Waiter}
    (mem : w ∈ ws) : IsAddress h.words w.value := by
  by_cases none : w.value = noAddr
  · exact .inl none
  · exact shaped.inside s _ (List.mem_filter.2 ⟨List.mem_map_of_mem mem, by simpa using none⟩)

theorem Shaped.queue (shaped : Shaped P h) (has : Has h.words a .waitQueue) : ∃ ws, Shows h.words a (.queue ws) := by
  obtain ⟨n, s, -, tag⟩ := shaped.has has nofun
  obtain ⟨ws, rfl⟩ := s.queue_of_tag tag
  exact ⟨ws, s⟩

section Channel

variable {cap room : Nat} {closed flag : Bool} {senders receivers : Addr} {items others : List Addr}

theorem Linked.refill (linked : Linked P words a (.channel cap closed senders receivers items))
    (inside : ∀ c ∈ others, IsAddress words c) : Linked P words a (.channel room flag senders receivers others) := by
  refine ⟨linked.ties, linked.low, fun c mem => ?_, linked.entries⟩
  rcases List.mem_cons.1 mem with rfl | mem
  · exact linked.inside _ List.mem_cons_self
  · rcases List.mem_cons.1 mem with rfl | mem
    · exact linked.inside _ (List.mem_cons_of_mem _ List.mem_cons_self)
    · exact inside c mem

theorem Shaped.channel (shaped : Shaped P h) (s : Shows h.words a (.channel cap closed senders receivers items)) :
    Linked P h.words a (.channel cap closed senders receivers items) := by
  obtain ⟨n, t, linked, tag⟩ := shaped.has s.has nofun
  obtain ⟨cap', closed', senders', receivers', items', rfl⟩ := t.channel_of_tag tag
  have same : Node.references (.channel cap' closed' senders' receivers' items') =
      Node.references (.channel cap closed senders receivers items) := t.refs.symm.trans s.refs
  obtain ⟨rfl, rfl, rfl⟩ : senders' = senders ∧ receivers' = receivers ∧ items' = items := by
    simpa [Node.references] using same
  exact linked.refill fun c mem => linked.inside c (List.mem_cons_of_mem _ (List.mem_cons_of_mem _ mem))

end Channel

theorem Shaped.slotFrame (shaped : Shaped P h) (has : Has h.words a .environment) (i j : Int) :
    (∃ e, slotFrame a i j h = .error (.fault e) h) ∨ ∃ f slots, slotFrame a i j h = .ok f h ∧
      Shows h.words f (.frame slots) ∧ j = j.toNat ∧ j.toNat < slots.length := by
  obtain ⟨frames, s, all⟩ := shaped.environment has
  by_cases out : i < 0 ∨ (frames.length : Int) ≤ i
  · exact .inl ⟨_, slotFrame_of_frame s out⟩
  obtain ⟨f, get⟩ : ∃ f, frames[i.toNat]? = some f :=
    ⟨_, List.getElem?_eq_getElem (by omega : i.toNat < frames.length)⟩
  obtain ⟨n, t, -, tag⟩ := shaped.has (all f (List.mem_of_getElem? get)) nofun
  obtain ⟨slots, rfl⟩ := t.frame_of_tag tag
  by_cases out' : j < 0 ∨ (slots.length : Int) ≤ j
  · exact .inl ⟨_, slotFrame_of_slot s get t (by omega) out'⟩
  · exact .inr ⟨f, slots, slotFrame_shows s get t (by omega) (by omega), t, by omega, by omega⟩

theorem Shaped.with_pins (shaped : Shaped P h) (pins : List Addr) : Shaped P { h with pinned := pins } :=
  ⟨⟨shaped.sized, shaped.unmarked, shaped.list⟩, shaped.nodes⟩

theorem Grows.refl (shaped : Shaped P h) : Grows P K h h := ⟨shaped, rfl, rfl, fun _ _ _ _ _ _ => rfl⟩

theorem Grows.mono (grows : Grows P K h h') (sub : ∀ b, K' b → K b) : Grows P K' h h' :=
  ⟨grows.shaped, grows.size, grows.pinned, fun b hb used kept => grows.same b hb used (sub b kept)⟩

theorem Grows.has (grows : Grows P K h h') (has : Has h.words b t) (used : t ≠ .free) (kept : K b) :
    Has h'.words b t :=
  has.of_same grows.size (grows.same b has.1 (has.2 ▸ used) kept)

theorem Grows.shows (grows : Grows P K h h') (s : Shows h.words b n) (kept : K b) :
    Shows h'.words b n :=
  s.of_same (grows.same b s.node s.layout.tagAt_ne kept) grows.size

theorem Grows.trans (grows : Grows P K h h') (grows' : Grows P K h' h'') : Grows P K h h'' := by
  refine ⟨grows'.shaped, grows'.size.trans grows.size, grows'.pinned.trans grows.pinned, fun b hb used kept => ?_⟩
  have has := grows.has ⟨hb, rfl⟩ used kept
  exact (grows.same b hb used kept).trans (grows'.same b has.1 (has.2 ▸ used) kept)

/-- A node that is written to keeps its tag, and so do the others. -/
theorem Updates.has (u : Updates h h' a n) (tag : tagAt h.words a = n.tag) (has : Has h.words b t) :
    Has h'.words b t := by
  refine ⟨u.nodeIn.2 has.1, ?_⟩
  by_cases here : b = a
  · rw [here, u.shows.tagAt, ← tag, ← here]
    exact has.2
  · rw [Heap.tagAt, u.others b has.1 here 0 (by decide)]
    exact has.2

theorem Shaped.updates (shaped : Shaped P h) (u : Updates h h' a n) (tag : tagAt h.words a = n.tag)
    (linked : Linked P h.words a n) : Grows P (· ≠ a) h h' := by
  have has : ∀ {b t}, Has h.words b t → Has h'.words b t := u.has tag
  have sound := shaped.toSound.only (a := a) (tag ▸ u.shows.tag_ne_free) u.toOnly u.shows.not_marked
  refine ⟨⟨sound, fun b hb used => ?_⟩, u.size, u.pinned, fun b hb used kept => ?_⟩
  · replace hb := u.nodeIn.1 hb
    by_cases here : b = a
    · subst here
      exact ⟨n, u.shows, linked.mono u.size fun x _ => has⟩
    · rw [(has ⟨hb, rfl⟩).2] at used
      obtain ⟨k, s, linked'⟩ := shaped.nodes b hb used
      exact ⟨k, u.toOnly.shows here s, linked'.mono u.size fun x _ => has⟩
  · exact u.others b hb kept

theorem collect_crashes {roots : List Addr} {e : Failure} (run : Heap.collect roots h = .error e h') :
    ∃ c, e = .crash c := by
  unfold Heap.collect at run
  split at run
  · cases run
    exact ⟨_, rfl⟩
  · cases run

/-- A collection that does not crash does what it would do in any other order. -/
theorem Shaped.collect_visit {n : UInt64} {k : Nat} (shaped : Shaped P h) (thunk : Roots)
    (start : ∀ r ∈ thunk.get ++ h.pinned, IsAddress h.words r) (run : Heap.collect (thunk.visit n) h = .ok k h') :
    Heap.collect thunk.get h = .ok k h' := by
  have visits : ∀ a, a ∈ thunk.get ↔ a ∈ thunk.visit n := fun a => (thunk.perm n).mem_iff.symm
  refine shaped.tidy.collect_eq ?_ visits run
  simpa only [List.mem_append, visits] using start

/-- A collection that does not crash does what it should. -/
theorem Shaped.collected {roots : List Addr} {k : Nat} (shaped : Shaped P h)
    (start : ∀ r ∈ roots ++ h.pinned, IsAddress h.words r) (run : Heap.collect roots h = .ok k h') :
    ∃ l, Collected h roots l h' := by
  have traced := shaped.tidy.traced_of_collect start run
  obtain ⟨l, h₁, run', c⟩ := collect_of_traced shaped.sized shaped.unmarked traced
  obtain rfl : h₁ = h' := by
    rw [run] at run'
    exact (EStateM.Result.ok.inj run').2.symm
  exact ⟨l, c⟩

/-- A collection that does not crash leaves the shape, and what it frees nobody was tied to. -/
theorem Shaped.collect {roots : List Addr} {k : Nat} (shaped : Shaped P h)
    (start : ∀ r ∈ roots ++ h.pinned, IsAddress h.words r) (run : Heap.collect roots h = .ok k h') :
    Grows P (Held (roots ++ h.pinned)) h h' := by
  obtain ⟨l, c⟩ := shaped.collected start run
  have size := c.size
  have nodeIn : ∀ b, NodeIn h'.words b ↔ NodeIn h.words b := fun _ => nodeIn_congr size
  have reached : ∀ b, NodeIn h.words b → bottom ≤ b → tagAt h'.words b ≠ .free →
      Reaches h.words (roots ++ h.pinned) b := fun b hb high used => Classical.byContradiction fun dead =>
    used (c.list.tagAt ((c.mem_iff b).2 ⟨hb, high, dead⟩))
  refine ⟨⟨c.sound shaped.sized, fun b hb used => ?_⟩, size, c.pinned, fun b hb used kept => ?_⟩
  · replace hb := (nodeIn b).1 hb
    have same := c.same hb fun mem => used (c.list.tagAt mem)
    obtain ⟨n, s, linked⟩ := shaped.nodes b hb (by rwa [Heap.tagAt, ← same 0 (by decide)])
    refine ⟨n, s.of_same same size, linked.mono size fun x mem has => has.of_same size ?_⟩
    by_cases low : b < bottom
    · exact c.reserved x.1 has.1 (linked.low low x mem)
    · have high := UInt32.not_lt.1 low
      refine c.live x.1 has.1 (.step (reached b hb high used) high ?_)
      rw [refers_iff hb s.layout, s.refs]
      exact Node.mem_references_of_ties mem
  · rcases kept with low | root
    · exact c.reserved b hb low
    · exact c.live b hb (.root root)

theorem Shaped.fill {tag : Tag} {size : Nat} (shaped : Shaped P h) (popped : Popped tag size h h' a)
    (le : size ≤ nodeSize) (used : tag ≠ .free) (u : Updates h' h'' a n) (linked : Linked P h.words a n) :
    Grows P (fun _ => True) h h'' := by
  have room := u.size.trans popped.room
  have nodeIn : ∀ b, NodeIn h''.words b ↔ NodeIn h.words b := fun _ => nodeIn_congr room
  have same : ∀ b, NodeIn h.words b → b ≠ a → SameNode h.words h''.words b := fun b hb ne =>
    (popped.others b hb ne).trans (u.others b ((nodeIn_congr popped.room).2 hb) ne)
  have apart : ∀ {b}, tagAt h.words b ≠ .free → b ≠ a := by
    rintro b here rfl
    exact here popped.free
  have ties : ∀ {k : Node}, ∀ x ∈ k.ties, Has h.words x.1 x.2 → Has h''.words x.1 x.2 := fun x mem has =>
    has.of_same room (same x.1 has.1 (apart (has.2 ▸ Node.ne_free_of_ties mem)))
  have sound := popped.sound.only (tagAt_blank le popped.edited ▸ used) u.toOnly u.shows.not_marked
  refine ⟨⟨sound, fun b hb here => ?_⟩, room, u.pinned.trans popped.pinned, fun b hb here _ => same b hb (apart here)⟩
  replace hb := (nodeIn b).1 hb
  by_cases new : b = a
  · subst new
    exact ⟨n, u.shows, linked.mono room ties⟩
  · have kept := same b hb new
    obtain ⟨k, s, linked'⟩ := shaped.nodes b hb (by rwa [Heap.tagAt, ← kept 0 (by decide)])
    exact ⟨k, s.of_same kept room, linked'.mono room ties⟩

end

end Heap

end FiberVm
