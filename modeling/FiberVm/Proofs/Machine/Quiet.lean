import FiberVm.Proofs.Heap.Drift
import FiberVm.Proofs.Machine.Instructions

/-!
# Code that wakes and parks nobody

Most instructions change the registers of the fiber that executes them and take nodes into use. They leave
the other fibers, the queues and the timers alone, and whatever channels, wait queues and wait groups are
left in use stay as they are. The rules follow the code; an allocation needs to know that what the machine
holds can be traced.
-/

set_option autoImplicit false

namespace FiberVm

open Heap (Shows Drift Traceable Fresh Kept Reaches bottom)

/-- Only registers of the current fiber have changed. -/
structure Scheduler.Undisturbed (s s' : Scheduler) : Prop where
  others : s'.others = s.others
  ready : s'.ready = s.ready
  timers : s'.timers = s.timers
  nextId : s'.nextId = s.nextId
  id : s'.current.id = s.current.id
  state : s'.current.state = s.current.state

theorem Scheduler.Undisturbed.refl (s : Scheduler) : s.Undisturbed s := ⟨rfl, rfl, rfl, rfl, rfl, rfl⟩

theorem Scheduler.Undisturbed.trans {s s' s'' : Scheduler} (u : s.Undisturbed s') (u' : s'.Undisturbed s'') :
    s.Undisturbed s'' :=
  ⟨u'.others.trans u.others, u'.ready.trans u.ready, u'.timers.trans u.timers, u'.nextId.trans u.nextId,
    u'.id.trans u.id, u'.state.trans u.state⟩

theorem Scheduler.Undisturbed.charge (s : Scheduler) : s.Undisturbed s.charge := ⟨rfl, rfl, rfl, rfl, rfl, rfl⟩

theorem Scheduler.Undisturbed.clock (s : Scheduler) (clock : Clock) : s.Undisturbed { s with clock } :=
  ⟨rfl, rfl, rfl, rfl, rfl, rfl⟩

/-- Nobody has been woken or parked, and nothing has happened where fibers meet. -/
structure Machine.Quiet (m m' : Machine) : Prop where
  drift : Drift [] m.heap m'.heap
  sched : m.control.sched.Undisturbed m'.control.sched

theorem Machine.Quiet.refl (m : Machine) : m.Quiet m := ⟨.refl _, .refl _⟩

theorem Machine.Quiet.trans {m m' m'' : Machine} (quiet : m.Quiet m') (quiet' : m'.Quiet m'') :
    m.Quiet m'' := ⟨quiet.drift.trans quiet'.drift, quiet.sched.trans quiet'.sched⟩

/-- However the code ends, it has been quiet. -/
def Calm {α : Type} (x : Exec α) (m : Machine) : Prop := Leaves m.Quiet (x m)

namespace Exec

section Still

variable {α : Type}

theorem still_onHeap {op : HeapM α} (still : Still op) : Still (onHeap op) := by
  intro m
  have same := still m.heap
  cases run : op m.heap with
  | ok a h =>
    rw [run] at same
    obtain rfl : h = m.heap := same
    rw [onHeap_ok run]
    exact rfl
  | error e h =>
    rw [run] at same
    obtain ⟨rfl, known⟩ : h = m.heap ∧ _ := same
    rw [onHeap_error run]
    exact ⟨rfl, known⟩

theorem still_asks (f : Control → α) : Still (asks f) := fun _ => rfl

theorem still_peek (n : Nat) : Still (peek n) := by
  refine (still_asks _).bind fun operands => ?_
  split
  · exact .pure _
  · exact .fault (by simp)

theorem still_tagOf (a : Addr) : Still (tagOf a) := still_onHeap (Heap.still_tagOf a)

theorem still_intArg (a : Addr) (who : String) : Still (intArg a who) :=
  (still_tagOf a).bind fun _ => .ite (still_onHeap (Heap.still_intValue a)) (.fault (by simp))

theorem still_argument (args : List Addr) (i : Nat) : Still (argument args i) := by
  unfold argument
  split
  · exact .pure _
  · exact .crash _

theorem still_fromCallframe (l : List Addr) : Still (fromCallframe l) := by
  induction l with
  | nil => exact .pure _
  | cons a l ih => exact (still_tagOf a).bind fun _ => .ite (.pure _) ih

end Still

end Exec

namespace Calm

variable {α β : Type} {m : Machine} {x : Exec α} {k : α → Exec β}

theorem bind (first : Calm x m) (rest : ∀ a m', x m = .ok a m' → Calm (k a) m') : Calm (x >>= k) m :=
  Leaves.bind first (fun a m' run quiet => (rest a m' run).imp fun _ quiet' => quiet.trans quiet')
    fun _ quiet => quiet

theorem still (still : Still x) : Calm x m := (still m).imp fun _ same => same ▸ .refl m

theorem read (still : Still x) (rest : ∀ a, x m = .ok a m → Calm (k a) m) : Calm (x >>= k) m :=
  (Calm.still still).bind fun a m' run => by
    obtain rfl := still.ok run
    exact rest a run

theorem fault {c : Cause} (known : ∀ k, c ≠ .unknownFiber k) : Calm (FiberVm.fault c : Exec α) m :=
  .still (.fault known)

theorem pure (a : α) : Calm (Pure.pure a : Exec α) m := .still (.pure a)

theorem modifySched {f : Scheduler → Scheduler}
    (undisturbed : m.control.sched.Undisturbed (f m.control.sched)) : Calm (Exec.modifySched f) m :=
  show m.Quiet (m.withSched (f m.control.sched)) from ⟨.refl _, undisturbed⟩

theorem modifyFiber {f : Fiber → Fiber} (id : (f m.control.sched.current).id = m.control.sched.current.id)
    (state : (f m.control.sched.current).state = m.control.sched.current.state) :
    Calm (Exec.modifyFiber f) m := modifySched ⟨rfl, rfl, rfl, rfl, id, state⟩

theorem jump (pc : Int) : Calm (Exec.jump pc) m := modifyFiber rfl rfl

theorem setEnv (env : Addr) : Calm (Exec.setEnv env) m := modifyFiber rfl rfl

theorem pushFrame (a : Addr) : Calm (Exec.pushFrame a) m := modifyFiber rfl rfl

theorem push (a : Addr) : Calm (Exec.push a) m := modifySched ⟨rfl, rfl, rfl, rfl, rfl, rfl⟩

theorem drop (n : Nat) : Calm (Exec.drop n) m := by
  refine .read (Exec.still_asks _) fun length _ => ?_
  split
  · exact .fault (by simp)
  · exact modifyFiber rfl rfl

theorem pop : Calm Exec.pop m :=
  .read (Exec.still_peek 0) fun a _ => (drop 1).bind fun _ _ _ => .pure a

theorem popFrame : Calm Exec.popFrame m := by
  refine .read (Exec.still_asks _) fun frames _ => ?_
  split
  · exact .fault (by simp)
  · exact (modifyFiber rfl rfl).bind fun _ _ _ => .pure _

theorem onHeap {op : HeapM α} (drifts : Leaves (Drift [] m.heap) (op m.heap)) : Calm (Exec.onHeap op) m := by
  unfold Calm
  cases run : op m.heap with
  | ok a h =>
    rw [run] at drifts
    rw [onHeap_ok run]
    exact ⟨drifts, .refl _⟩
  | error e h =>
    rw [run] at drifts
    rw [onHeap_error run]
    exact ⟨⟨drifts.1, .refl _⟩, drifts.2⟩

theorem allocating {op : Heap.Roots → HeapM Addr}
    (drifts : Leaves (Drift [] m.heap) (op m.rootThunk m.heap)) : Calm (Exec.allocating op) m := by
  unfold Calm
  cases run : op m.rootThunk m.heap with
  | ok a h =>
    rw [run] at drifts
    rw [allocating_ok run]
    exact ⟨drifts, .refl _⟩
  | error e h =>
    rw [run] at drifts
    rw [allocating_error run]
    exact ⟨⟨drifts.1, .refl _⟩, drifts.2⟩

theorem withPins {as : List Addr} {x : Exec Unit} (body : Calm x (m.addPins as)) :
    Calm (Exec.withPins as x) m := by
  have quiet : ∀ {m'}, (m.addPins as).Quiet m' → m.Quiet (m'.release m.heap.pinned.length) := fun q =>
    ⟨⟨q.drift.size, q.drift.sync, q.drift.linked⟩, q.sched⟩
  unfold Calm at *
  rw [withPins_eq]
  cases run : x (m.addPins as) with
  | ok a m' =>
    rw [run] at body
    exact quiet body
  | error e m' =>
    rw [run] at body
    exact ⟨quiet body.1, body.2⟩

theorem printLine (s : String) : Calm (Exec.printLine s) m := by
  refine .read (Exec.still_asks _) fun sink _ => ?_
  split
  · exact show m.Quiet _ from ⟨.refl _, .refl _⟩
  · exact .fault (by simp)

end Calm

/-- The heap is sound, and what the machine holds can be traced together with `as`. -/
structure Machine.Holding (m : Machine) (as : List Addr) : Prop where
  sound : m.heap.Sound
  traceable : Traceable m.heap.words (m.rootThunk.get ++ (m.heap.pinned ++ as))

section Holding

variable {q : Terms} {w : World} {m m₂ : Machine} {as as' : List Addr} {a b : Addr} {n : Node} {h : Heap}

theorem Machine.Alike.holding (alike : m.Alike q w m₂) : m.Holding [] := by
  refine ⟨alike.heap.sound₁, alike.heap.traceable₁ fun x mem => ?_⟩
  rw [List.append_nil] at mem
  rcases List.mem_append.1 mem with root | pin
  · exact alike.control.knows root
  · exact alike.pinned x pin

theorem Machine.Holding.start (holding : m.Holding as) :
    Traceable m.heap.words (m.rootThunk.get ++ m.heap.pinned) :=
  holding.traceable.of_subset (subset_pins _ _ as)

theorem Machine.Holding.subset (holding : m.Holding as)
    (sub : ∀ x ∈ as', x ∈ m.control.roots ∨ x ∈ m.heap.pinned ∨ x ∈ as) : m.Holding as' := by
  refine ⟨holding.sound, holding.traceable.of_subset fun x mem => ?_⟩
  simp only [List.mem_append] at mem ⊢
  rcases mem with root | pin | mem
  · exact .inl root
  · exact .inr (.inl pin)
  · exact sub x mem

theorem Machine.mem_roots_withFiber {f : Fiber} (mem : a ∈ (m.withFiber f).control.roots) :
    a ∈ f.roots ∨ a ∈ m.control.roots := by
  rcases List.mem_append.1 mem with mem | mem
  · obtain ⟨g, live, inside⟩ := List.mem_flatMap.1 mem
    rcases Scheduler.mem_live.1 live with ⟨rfl, -⟩ | other
    · exact .inl inside
    · exact .inr (List.mem_append_left _ (Scheduler.mem_roots_others (s := m.control.sched) other inside))
  · exact .inr (List.mem_append_right _ mem)

theorem Machine.Holding.withFiber (holding : m.Holding as) {f : Fiber}
    (sub : ∀ x ∈ f.roots, x ∈ m.control.roots ∨ x ∈ as) : (m.withFiber f).Holding as := by
  refine ⟨holding.sound, holding.traceable.of_subset fun x mem => ?_⟩
  simp only [List.mem_append] at mem ⊢
  rcases mem with root | mem
  · rcases Machine.mem_roots_withFiber root with new | old
    · exact (sub x new).imp_right .inr
    · exact .inl old
  · exact .inr mem

theorem Machine.Holding.take (holding : m.Holding as)
    (fresh : Fresh (m.control.roots ++ (m.heap.pinned ++ as)) m.heap h a) (s : Shows h.words a n)
    (inside : ∀ c ∈ n.references, c < bottom ∨ c ∈ m.control.roots ++ (m.heap.pinned ++ as)) :
    Machine.Holding { m with heap := h } (a :: as) := by
  have traceable := fresh.traceable holding.sound.sized.small holding.traceable s fun c mem =>
    (inside c mem).imp_right .root
  refine ⟨fresh.sound, traceable.of_subset fun x mem => ?_⟩
  simp only [fresh.pinned, List.mem_append, List.mem_cons] at mem ⊢
  rcases mem with root | pin | new | mem
  · exact .inr (.inl root)
  · exact .inr (.inr (.inl pin))
  · exact .inl new
  · exact .inr (.inr (.inr mem))

theorem Machine.Holding.addPins (holding : m.Holding as) : (m.addPins as).Holding [] := by
  refine ⟨holding.sound.pin _, ?_⟩
  have traceable := holding.traceable
  rw [← List.append_nil as, ← List.append_assoc m.heap.pinned] at traceable
  exact traceable

theorem Heap.Allocates.ok {K : List Addr} {h h' : Heap} {P : Heap → Addr → Prop}
    {r : EStateM.Result Failure Heap Addr} (alloc : Heap.Allocates K h P r) (run : r = .ok a h') :
    Fresh K h h' a ∧ P h' a := by
  rcases alloc with ⟨b, h₁, eq, fresh, holds⟩ | ⟨k, h₁, eq, -⟩
  · obtain ⟨rfl, rfl⟩ := EStateM.Result.ok.inj (run.symm.trans eq)
    exact ⟨fresh, holds⟩
  · cases run.symm.trans eq

theorem allocating_inv {op : Heap.Roots → HeapM Addr} {m' : Machine}
    (run : Exec.allocating op m = .ok a m') : ∃ h, op m.rootThunk m.heap = .ok a h ∧ m' = { m with heap := h } := by
  cases inner : op m.rootThunk m.heap with
  | ok b h =>
    rw [allocating_ok inner] at run
    obtain ⟨rfl, rfl⟩ := EStateM.Result.ok.inj run
    exact ⟨h, rfl, rfl⟩
  | error e h =>
    rw [allocating_error inner] at run
    cases run

/-- What is held stands for the same when more has been taken, and so does what it refers to. -/
theorem Heap.Kept.shows {K : List Addr} {h h' : Heap} (kept : Kept K h h') (mem : a ∈ K)
    (s : Shows h.words a n) : Shows h'.words a n :=
  s.of_same (kept.same a s.node (.inr (.root mem))) kept.size

theorem Heap.Kept.shows_reference {K : List Addr} {h h' : Heap} {n' : Node} (kept : Kept K h h') (mem : a ∈ K)
    (high : bottom ≤ a) (s : Shows h.words a n) (link : b ∈ n.references) (t : Shows h.words b n') :
    Shows h'.words b n' := by
  refine t.of_same (kept.same b t.node (.inr (.step (.root mem) high ?_))) kept.size
  rwa [Heap.refers_iff s.node s.layout, s.refs]

end Holding

section Instructions

variable {q : Terms} {w : World} {m m₂ : Machine} {as args : List Addr} {a x y fn : Addr}

/-- The operator does not complain that a fiber is missing. -/
def OpResult.Known (r : OpResult) : Prop := ∀ k, r ≠ .fault (.unknownFiber k)

theorem OpResult.Known.ite {p : Prop} [Decidable p] {r s : OpResult} (yes : r.Known) (no : s.Known) :
    OpResult.Known (if p then r else s) := by
  split
  · exact yes
  · exact no

theorem Operator.refusal_known (op : Operator) (tag : Tag) : (op.refusal tag).Known := .ite nofun nofun

theorem Operator.onInts_known (op : Operator) (a b : Int64) : (op.onInts a b).Known := by
  unfold onInts
  repeat' refine .ite ?_ ?_
  all_goals first | exact op.refusal_known .int | nofun

theorem Operator.onBools_known (op : Operator) (a b : Bool) (tag : Tag) : (op.onBools a b tag).Known := by
  unfold onBools
  repeat' refine .ite ?_ ?_
  all_goals first | exact op.refusal_known tag | nofun

theorem Calm.boxResult (holding : m.Holding as) {r : OpResult} (known : r.Known) :
    Calm (Exec.boxResult r) m := by
  cases r with
  | int n =>
    have drifts := Heap.newInt_drifts holding.sound holding.start n
    exact show Calm (Exec.allocating fun roots => Heap.newInt roots n) m from .allocating drifts
  | bool b => exact .pure _
  | fault c => exact .fault fun k same => known k (congrArg OpResult.fault same)

theorem Calm.binary (holding : m.Holding as) (op : Operator) : Calm (Exec.binary op x y) m := by
  refine .read (Exec.still_tagOf x) fun tx _ => .read (Exec.still_tagOf y) fun ty _ => ?_
  split
  · refine .read (Exec.still_onHeap (Heap.still_intValue x)) fun a _ => ?_
    exact .read (Exec.still_onHeap (Heap.still_intValue y)) fun b _ => .boxResult holding (op.onInts_known a b)
  · split
    · exact .boxResult holding (op.onBools_known _ _ tx)
    · exact .fault (by simp)

theorem Calm.unary (holding : m.Holding as) (op : Operator) : Calm (Exec.unary op x) m := by
  unfold Exec.unary
  split
  · refine .read (Exec.still_tagOf x) fun tag _ => ?_
    split
    · exact .read (Exec.still_onHeap (Heap.still_intValue x)) fun n _ => .boxResult holding fun _ => nofun
    · exact .fault (by simp)
  · split
    · split
      · exact .pure _
      · exact .read (Exec.still_tagOf x) fun tag _ => .fault (by simp)
    · exact .fault (by simp)

theorem Calm.exitScope : Calm Exec.exitScope m := by
  refine popFrame.bind fun top m₁ _ => .read (Exec.still_tagOf top) fun tag _ => ?_
  split
  · exact .read (Exec.still_onHeap (Heap.still_child top 0)) fun env _ => .setEnv env
  · exact .fault (by simp)

theorem Calm.reset : Calm Exec.reset m := by
  refine popFrame.bind fun top m₁ _ => .read (Exec.still_tagOf top) fun tag _ => ?_
  split
  · refine .read (Exec.still_onHeap ((Heap.still_wideField top).bind fun _ => .pure _)) fun pc _ => ?_
    refine (jump _).bind fun _ m₂ _ => ?_
    exact .read (Exec.still_onHeap (Heap.still_child top 0)) fun env _ => .setEnv env
  · split
    · exact .read (Exec.still_asks _) fun pc _ => .jump _
    · exact .fault (by simp)

theorem Calm.dropBlockframes : Calm Exec.dropBlockframes m := by
  refine .read (Exec.still_asks _) fun frames _ => .read (Exec.still_fromCallframe frames) fun found _ => ?_
  split
  · exact modifyFiber rfl rfl
  · exact .pure _

theorem Calm.assign (alike : m.Alike q w m₂) (alive : m.control.sched.current.state ≠ .terminated) (i j : Int) :
    Calm (do
      let v ← Exec.peek 0
      let env ← Exec.asksFiber (·.env)
      Exec.onHeap (Heap.store env i j v)) m := by
  refine .read (Exec.still_peek 0) fun v _ => .read (Exec.still_asks _) fun env run => ?_
  obtain rfl : m.control.sched.current.env = env := by cases run; rfl
  rcases alike.heap.located (alike.typed alive).env i j with ⟨e, run, -⟩ | ⟨f, slots, at_⟩
  · have known := Heap.still_slotFrame m.control.sched.current.env i j m.heap
    rw [run] at known
    refine .onHeap ?_
    rw [Heap.store, bind_of_error run]
    exact ⟨.refl _, known.2⟩
  · obtain ⟨h, run, u⟩ := Heap.setChild_slots (.inl rfl) at_.shows₁ at_.index at_.lt v
    have before : Heap.tagAt m.heap.words f = .frame := at_.shows₁.tagAt
    have after : Heap.tagAt h.words f = .frame := u.shows.tagAt
    refine .onHeap ?_
    rw [Heap.store, bind_of_ok at_.run₁, run]
    exact u.toOnly.drift (by rw [after]; decide) (by rw [before]; decide)

end Instructions

end FiberVm
