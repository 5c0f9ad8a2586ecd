import FiberVm.Proofs.Heap.Building

/-!
# Orders of visit

A collection that does not crash does the same in whatever order it visits its roots, and so does whatever makes
nodes. Crashes are another matter: which of two broken nodes a collection comes upon first depends on the order.
-/

set_option autoImplicit false

namespace FiberVm

section Agrees

variable {σ α β : Type} {f : σ → σ} {s s' : σ}

/-- Unless the first outcome is a crash, the second is the same up to `f`. -/
def Agrees (f : σ → σ) : EStateM.Result Failure σ α → EStateM.Result Failure σ α → Prop
  | .ok a s, r => r = .ok a (f s)
  | .error (.fault e) s, r => r = .error (.fault e) (f s)
  | .error (.crash _) _, _ => True

namespace Agrees

theorem refl (r : EStateM.Result Failure σ α) : Agrees id r r := by
  cases r with
  | ok a s => rfl
  | error e s =>
    cases e with
    | fault c => rfl
    | crash c => trivial

theorem bind {x x' : EStateM Failure σ α} {k k' : α → EStateM Failure σ β} (first : Agrees f (x s) (x' s'))
    (rest : ∀ a t, x s = .ok a t → Agrees f (k a t) (k' a (f t))) : Agrees f ((x >>= k) s) ((x' >>= k') s') := by
  cases run : x s with
  | ok a t =>
    rw [run] at first
    rw [bind_of_ok run, bind_of_ok first]
    exact rest a t run
  | error e t =>
    rw [run] at first
    rw [bind_of_error run]
    cases e with
    | fault c =>
      rw [bind_of_error first]
      rfl
    | crash c => trivial

end Agrees

end Agrees

namespace Heap

/-- The operation does not depend on the order in which the roots are visited, unless it crashes. -/
def AnyOrder {α : Type} (thunk : Roots) (h : Heap) (op : Roots → HeapM α) : Prop :=
  ∀ thunk' : Roots, thunk'.get = thunk.get → Agrees id (op thunk h) (op thunk' h)

section

variable {P : Int → Prop} {h : Heap} {thunk : Roots} {α β : Type}

theorem AnyOrder.same (op : HeapM α) : AnyOrder thunk h fun _ => op := fun _ _ => .refl _

theorem AnyOrder.bind {op : Roots → HeapM α} {k : Roots → α → HeapM β} (first : AnyOrder thunk h op)
    (rest : ∀ a h', op thunk h = .ok a h' → AnyOrder thunk h' fun roots => k roots a) :
    AnyOrder thunk h fun roots => op roots >>= k roots := fun thunk' same =>
  .bind (first thunk' same) fun a h' run => rest a h' run thunk' same

theorem agrees_withPins {as : List Addr} {x y : HeapM Addr}
    (inner : Agrees id (x { h with pinned := h.pinned ++ as }) (y { h with pinned := h.pinned ++ as })) :
    Agrees id (withPins as x h) (withPins as y h) := by
  unfold Heap.withPins
  cases run : x { h with pinned := h.pinned ++ as } with
  | ok a h' =>
    rw [run] at inner
    have other : y { h with pinned := h.pinned ++ as } = .ok a h' := inner
    rw [other]
    rfl
  | error e h' =>
    rw [run] at inner
    cases e with
    | fault c =>
      have other : y { h with pinned := h.pinned ++ as } = .error (.fault c) h' := inner
      rw [other]
      rfl
    | crash c => trivial

theorem AnyOrder.withPins {as : List Addr} {op : Roots → HeapM Addr}
    (inner : AnyOrder thunk { h with pinned := h.pinned ++ as } op) :
    AnyOrder thunk h fun roots => Heap.withPins as (op roots) := fun thunk' same =>
  agrees_withPins (inner thunk' same)

theorem Shaped.allocate_anyOrder (shaped : Shaped P h) (start : ∀ r ∈ thunk.get ++ h.pinned, IsAddress h.words r)
    (tag : Tag) (size : Int) : AnyOrder thunk h fun roots => Heap.allocate roots tag size := by
  intro thunk' same
  unfold Heap.allocate
  dsimp only
  split
  · exact .refl _
  split
  · exact .refl _
  cases run : Heap.collect (thunk.visit h.stats.collections) h with
  | error e h' =>
    obtain ⟨c, rfl⟩ := collect_crashes run
    trivial
  | ok k h' =>
    have visits : ∀ a, a ∈ thunk'.visit h.stats.collections ↔ a ∈ thunk.get := fun a => by
      rw [(thunk'.perm _).mem_iff, ← same]
      rfl
    have other : Heap.collect (thunk'.visit h.stats.collections) h = .ok k h' :=
      shaped.tidy.collect_eq start visits (shaped.collect_visit thunk start run)
    rw [other]
    exact .refl _

end

section Constructors

variable {P : Int → Prop} {h : Heap} {thunk : Roots} (shaped : Shaped P h)
  (start : ∀ r ∈ thunk.get ++ h.pinned, IsAddress h.words r)
include shaped start

theorem Shaped.fill_anyOrder (tag : Tag) (size : Int) (body : Addr → HeapM Addr) :
    AnyOrder thunk h fun roots => Heap.allocate roots tag size >>= body :=
  (shaped.allocate_anyOrder start tag size).bind fun a _ _ => .same (body a)

theorem Shaped.pinned_anyOrder {as : List Addr} (new : ∀ r ∈ as, IsAddress h.words r) (tag : Tag) (size : Int)
    (body : Addr → HeapM Addr) : AnyOrder thunk h fun roots => Heap.withPins as (Heap.allocate roots tag size >>= body) :=
  .withPins ((shaped.with_pins _).fill_anyOrder (start_pins as start new) tag size body)

theorem newInt_anyOrder (k : Int64) : AnyOrder thunk h fun roots => newInt roots k :=
  shaped.fill_anyOrder start _ _ _

theorem newWaitGroup_anyOrder : AnyOrder thunk h newWaitGroup := shaped.allocate_anyOrder start _ _

theorem newWaitQueue_anyOrder : AnyOrder thunk h newWaitQueue := shaped.allocate_anyOrder start _ _

theorem newFrame_anyOrder (slots : Int) : AnyOrder thunk h fun roots => newFrame roots slots := by
  unfold newFrame
  split
  · exact .same _
  · exact shaped.fill_anyOrder start _ _ _

theorem box_anyOrder (c : Constant) : AnyOrder thunk h fun roots => box roots c := by
  cases c with
  | int bits n => exact newInt_anyOrder shaped start n
  | _ => exact .same _

variable {env : Addr}

theorem newBlockframe_anyOrder (has : Has h.words env .environment) :
    AnyOrder thunk h fun roots => newBlockframe roots env :=
  shaped.pinned_anyOrder start (List.forall_mem_singleton.2 (.inr has.1)) _ _ _

theorem newCallframe_anyOrder (has : Has h.words env .environment) (pc : Int) :
    AnyOrder thunk h fun roots => newCallframe roots pc env :=
  shaped.pinned_anyOrder start (List.forall_mem_singleton.2 (.inr has.1)) _ _ _

theorem newClosure_anyOrder (has : Has h.words env .environment) (arity pc : Int) :
    AnyOrder thunk h fun roots => newClosure roots arity pc env := by
  unfold newClosure
  split
  · exact .same _
  · exact shaped.pinned_anyOrder start (List.forall_mem_singleton.2 (.inr has.1)) _ _ _

theorem extend_anyOrder (has : Has h.words env .environment) {frame : Addr} (frameHas : Has h.words frame .frame) :
    AnyOrder thunk h fun roots => extend roots env frame := by
  obtain ⟨frames, s, -⟩ := shaped.environment has
  refine .bind (.same (childCount env)) fun n h' run => ?_
  obtain rfl : h = h' := by
    rw [childCount_shows s] at run
    exact (EStateM.Result.ok.inj run).2
  split
  · exact .same _
  · have new : ∀ r ∈ [env, frame], IsAddress h.words r := by simp [IsAddress, has.1, frameHas.1]
    exact shaped.pinned_anyOrder start new _ _ _

theorem newChannel_anyOrder (capacity : Int) : AnyOrder thunk h fun roots => newChannel roots capacity := by
  unfold newChannel
  split
  · exact .same _
  refine .bind (newWaitQueue_anyOrder shaped start) fun senders h₁ run => ?_
  have made := newWaitQueue_makes shaped start
  rw [run] at made
  obtain ⟨grows₁, sends, -⟩ := made
  have start₁ : ∀ r ∈ thunk.get ++ h₁.pinned, IsAddress h₁.words r := by
    rw [grows₁.pinned]
    exact fun r mem => (isAddress_congr grows₁.size).2 (start r mem)
  have start₂ := start_pins [senders] start₁ (List.forall_mem_singleton.2 (.inr sends.node))
  have shaped₂ := grows₁.shaped.with_pins (h₁.pinned ++ [senders])
  refine .withPins (.bind (newWaitQueue_anyOrder shaped₂ start₂) fun receivers h₂ run => ?_)
  have made := newWaitQueue_makes shaped₂ start₂
  rw [run] at made
  obtain ⟨grows₂, receives, -⟩ := made
  refine grows₂.shaped.pinned_anyOrder (fun r mem => ?_) (List.forall_mem_singleton.2 (.inr receives.node)) _ _ _
  rw [grows₂.pinned] at mem
  exact (isAddress_congr grows₂.size).2 (start₂ r mem)

end Constructors

end Heap

end FiberVm
