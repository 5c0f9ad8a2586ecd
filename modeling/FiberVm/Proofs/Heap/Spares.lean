import FiberVm.Proofs.Heap.Drift
import FiberVm.Proofs.Heap.Stale

/-!
# What an operation leaves alone

An operation takes some nodes into use and writes to some. Every other node that is in use afterwards is what it
was, word by word. A collection along the way only frees nodes. What is new is not a matter of choice: it is what
the allocator has taken off the free list, and nobody else writes there.
-/

set_option autoImplicit false

namespace FiberVm

namespace Heap

/-- In between, the allocator has taken `new` off the free list, one node after the other. -/
inductive Allots : List Addr → Heap → Heap → Prop
  | writes {h h' : Heap} : h'.freeHead = h.freeHead → h'.stats = h.stats →
    (∀ a, NodeIn h.words a → tagAt h.words a = .free → SameNode h.words h'.words a) → Allots [] h h'
  | collects {roots : List Addr} {k : Nat} {h h' : Heap} : collect roots h = .ok k h' → Allots [] h h'
  | takes {tag : Tag} {size : Nat} {a : Addr} {h h' : Heap} : h.freeHead = some a → take tag size a h = .ok a h' →
    Allots [a] h h'
  | trans {new new' : List Addr} {h h' h'' : Heap} : Allots new h h' → Allots new' h' h'' → Allots (new ++ new') h h''

theorem Allots.idle {new : List Addr} {h h' h'' : Heap} (allots : Allots new h h') (idle : Allots [] h' h'') :
    Allots new h h'' := List.append_nil new ▸ allots.trans idle

/-- A node in use in `h'` is what it was in `h`, unless it is one of those that were written to or one of those that
were taken in between. -/
structure Spares (written new : List Addr) (h h' : Heap) : Prop where
  size : h'.words.size = h.words.size
  same : ∀ a, NodeIn h.words a → a ∉ written → a ∉ new → tagAt h'.words a ≠ .free → SameNode h.words h'.words a
  allots : Allots new h h'

theorem Only.allots {h h' : Heap} {a : Addr} (only : Only h h' a) (used : tagAt h.words a ≠ .free) :
    Allots [] h h' := by
  refine .writes only.freeHead only.stats fun b node free => only.others b node ?_
  rintro rfl
  exact used free

namespace Spares

variable {h h' h'' : Heap} {written written' new new' : List Addr} {a : Addr}

theorem refl (h : Heap) : Spares [] [] h h :=
  ⟨rfl, fun _ _ _ _ _ _ _ => rfl, .writes rfl rfl fun _ _ _ _ _ => rfl⟩

theorem trans (s : Spares written new h h') (s' : Spares written' new' h' h'') :
    Spares (written ++ written') (new ++ new') h h'' := by
  refine ⟨s'.size.trans s.size, fun b node unwritten old used => ?_, s.allots.trans s'.allots⟩
  rw [List.mem_append, not_or] at unwritten old
  have node' : NodeIn h'.words b := by rwa [NodeIn, s.size]
  have same := s'.same b node' unwritten.2 old.2 used
  exact (s.same b node unwritten.1 old.1 (same.tagAt ▸ used)).trans same

theorem mono (s : Spares written new h h') (sub : written ⊆ written') : Spares written' new h h' :=
  ⟨s.size, fun b node unwritten => s.same b node fun mem => unwritten (sub mem), s.allots⟩

theorem only (s : Spares written new h h') (only : Only h' h'' a) (used : tagAt h'.words a ≠ .free) (mem : a ∈ new) :
    Spares written new h h'' := by
  refine ⟨only.size.trans s.size, fun b node unwritten old after => ?_, s.allots.idle (only.allots used)⟩
  have node' : NodeIn h'.words b := by rwa [NodeIn, s.size]
  have same := only.others b node' fun eq => old (eq ▸ mem)
  exact (s.same b node unwritten old (same.tagAt ▸ after)).trans same

theorem with_pins {pins pins' : List Addr} (s : Spares written new { h with pinned := pins } h') :
    Spares written new h { h' with pinned := pins' } := by
  have pin : Allots [] h { h with pinned := pins } := .writes rfl rfl fun _ _ _ _ _ => rfl
  have release : Allots [] h' { h' with pinned := pins' } := .writes rfl rfl fun _ _ _ _ _ => rfl
  exact ⟨s.size, s.same, (pin.trans s.allots).idle release⟩

end Spares

variable {h h' : Heap} {a : Addr}

theorem Updates.spares {n n' : Node} (u : Updates h h' a n') (s : Shows h.words a n) : Spares [a] [] h h' :=
  ⟨u.size, fun b node other _ _ => u.others b node (by simpa using other), u.toOnly.allots s.layout.tagAt_ne⟩

theorem Popped.spares {tag : Tag} {size : Nat} (popped : Popped tag size h h' a) (head : h.freeHead = some a)
    (run : take tag size a h = .ok a h') : Spares [] [a] h h' :=
  ⟨popped.room, fun b node _ old _ => popped.others b node (by simpa using old), .takes head run⟩

theorem Collected.spares {roots visit l : List Addr} {k : Nat} (c : Collected h roots l h')
    (run : collect visit h = .ok k h') : Spares [] [] h h' :=
  ⟨c.size, fun _ node _ _ used => c.same node fun mem => used (c.list.tagAt mem), .collects run⟩

/-- The node at `a` has been taken and filled in. It is none of those in use that are in `K`. -/
structure Mints (K : Addr → Prop) (a : Addr) (h h' : Heap) : Prop where
  drift : Drift [a] h h'
  spares : Spares [] [a] h h'
  high : bottom ≤ a
  apart : ∀ b, NodeIn h.words b → tagAt h.words b ≠ .free → K b → b ≠ a

/-- Nothing has happened where fibers meet, and nothing has been written to but what is new. -/
structure Slight (h h' : Heap) : Prop where
  drift : Drift [] h h'
  spares : ∃ new, Spares [] new h h'

namespace Slight

variable {h'' : Heap}

theorem refl (h : Heap) : Slight h h := ⟨.refl h, [], .refl h⟩

theorem trans (s : Slight h h') (s' : Slight h' h'') : Slight h h'' := by
  obtain ⟨new, spares⟩ := s.spares
  obtain ⟨new', spares'⟩ := s'.spares
  exact ⟨s.drift.trans s'.drift, new ++ new', spares.trans spares'⟩

theorem with_pins {pins pins' : List Addr} (s : Slight { h with pinned := pins } h') :
    Slight h { h' with pinned := pins' } :=
  ⟨⟨s.drift.size, s.drift.sync, s.drift.linked⟩, s.spares.imp fun _ => .with_pins⟩

end Slight

namespace Mints

variable {K K' : Addr → Prop} {h'' : Heap} {pins pins' : List Addr}

theorem with_pins (mints : Mints K a { h with pinned := pins } h') (sub : ∀ b, K' b → K b) :
    Mints K' a h { h' with pinned := pins' } :=
  ⟨⟨mints.drift.size, mints.drift.sync, mints.drift.linked⟩, mints.spares.with_pins, mints.high,
    fun b node used kept => mints.apart b node used (sub b kept)⟩

theorem only (mints : Mints K a h h') (only : Only h' h'' a) (used : tagAt h'.words a ≠ .free) : Mints K a h h'' :=
  ⟨mints.drift.only only List.mem_cons_self, mints.spares.only only used List.mem_cons_self, mints.high, mints.apart⟩

theorem slight (mints : Mints K a h h') (plain : ¬ IsSync (tagAt h'.words a)) : Slight h h' :=
  ⟨mints.drift.forget plain, [a], mints.spares⟩

end Mints

end Heap

end FiberVm
