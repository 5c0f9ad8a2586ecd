import FiberVm.Proofs.Heap.Building
import FiberVm.Proofs.Machine.Execution
import FiberVm.Proofs.Machine.Reorder

/-!
# Machines that are not misled by stale values

An operand may be stale, and reading it as something that it is no more is caught by its tag. The
environments and the entries of the runtime stacks are never stale. So unless it crashes, an operation on a
sturdy machine leaves it sturdy, and what the runtime stacks refer to is what it was. The rules follow the
code. They keep in view where every fiber is in the program, and whatever else is kept by code that wakes and parks
nobody and writes to new nodes only.
-/

set_option autoImplicit false

namespace FiberVm

open Heap (Shows Has IsAddress NodeIn Shaped Grows Held Linked Updates Mints IsSync tagAt)

/-- Where a fiber is in the program: its registers without the operands. -/
structure Context where
  id : Nat
  pc : Int
  env : Addr
  frames : List Addr

def Fiber.context (f : Fiber) : Context := ⟨f.id, f.pc, f.env, f.frames⟩

/-- The roles that tags allow. Anything may be a value. -/
def Heap.typing (words : Array Word) (a : Addr) : Role → Prop
  | .environment => Has words a .environment
  | .activation => Has words a .callframe ∨ Has words a .blockframe
  | _ => IsAddress words a

theorem Heap.isValue_typing {words : Array Word} {a : Addr} : IsValue (typing words) a ↔ IsAddress words a :=
  or_self_iff

/-- A machine that executes `c`. What is not to be stale is not, and all program counters satisfy `P`. -/
structure Machine.Sturdy (c : Code) (P : Int → Prop) (m : Machine) : Prop where
  code : m.control.code = c
  shaped : m.heap.Shaped P
  fit : m.control.sched.Fit (Heap.typing m.heap.words)
  counters : ∀ f ∈ m.control.sched.live, P f.pc
  pins : ∀ a ∈ m.heap.pinned, IsAddress m.heap.words a
  result : ∀ a ∈ m.control.result, IsAddress m.heap.words a

/-- Nobody has been woken or parked, and nothing has been written to but what is new. -/
structure Machine.Slight (m m' : Machine) : Prop where
  heap : m.heap.Slight m'.heap
  sched : m.control.sched.Undisturbed m'.control.sched

namespace Machine.Slight

variable {m m' m'' : Machine}

theorem refl (m : Machine) : m.Slight m := ⟨.refl _, .refl _⟩

theorem trans (slight : m.Slight m') (slight' : m'.Slight m'') : m.Slight m'' :=
  ⟨slight.heap.trans slight'.heap, slight.sched.trans slight'.sched⟩

theorem quiet (slight : m.Slight m') : m.Quiet m' := ⟨slight.heap.drift, slight.sched⟩

theorem of_heap {h : Heap} (slight : m.heap.Slight h) : m.Slight { m with heap := h } := ⟨slight, .refl _⟩

theorem of_sched {s : Scheduler} (undisturbed : m.control.sched.Undisturbed s) : m.Slight (m.withSched s) :=
  ⟨.refl _, undisturbed⟩

end Machine.Slight

/-- What is kept in view during an instruction. -/
structure Scene where
  own : Context
  others : List Context
  nextId : Nat
  watched : Addr → Node → Prop
  met : Machine → Prop

/-- The entries of all runtime stacks. -/
def Scene.activations (v : Scene) : List Addr := v.own.frames ++ v.others.flatMap Context.frames

/-- A call or a block has been entered, and its frame is watched from then on. -/
def Scene.enter (v : Scene) (a : Addr) (n : Node) : Scene :=
  { v with
    own := { v.own with frames := a :: v.own.frames }
    watched := fun b k => (v.watched b k ∧ b ∈ v.activations) ∨ (b = a ∧ k = n) }

/-- A sturdy machine at work on an instruction. Its fibers are where they are said to be, and the watched
entries of the runtime stacks are what they are said to be. -/
structure Machine.Poised (c : Code) (P : Int → Prop) (v : Scene) (m : Machine) : Prop extends
    Machine.Sturdy c P m where
  alive : m.control.sched.current.state ≠ .terminated
  own : m.control.sched.current.context = v.own
  others : m.control.sched.others.map Fiber.context = v.others
  nextId : m.control.sched.nextId = v.nextId
  watched : ∀ a n, v.watched a n → a ∈ v.activations → Shows m.heap.words a n ∧ n.IsActivation
  met : ∀ m', m.Slight m' → v.met m'

namespace Scheduler

variable {s : Scheduler}

theorem context_wake (s : Scheduler) (id : Nat) : (s.wake id).current.context = s.current.context ∧
    (s.wake id).others.map Fiber.context = s.others.map Fiber.context ∧ (s.wake id).nextId = s.nextId ∧
      ((s.wake id).current.state = .terminated ↔ s.current.state = .terminated) := by
  unfold wake
  split
  · split
    · next blocked => exact ⟨rfl, rfl, rfl, nofun, fun dead => by rw [blocked] at dead; cases dead⟩
    · exact ⟨rfl, rfl, rfl, .rfl⟩
  · split
    · refine ⟨rfl, ?_, rfl, .rfl⟩
      rw [List.map_map]
      refine List.map_congr_left fun f _ => ?_
      dsimp only [Function.comp_apply]
      split <;> rfl
    · exact ⟨rfl, rfl, rfl, .rfl⟩

theorem context_deliver (s : Scheduler) (id : Nat) (v : Addr) :
    (s.deliver id v).current.context = s.current.context ∧
    (s.deliver id v).others.map Fiber.context = s.others.map Fiber.context ∧
      (s.deliver id v).nextId = s.nextId ∧ (s.deliver id v).current.state = s.current.state := by
  unfold deliver
  split
  · unfold deliverSaved
    split
    · exact ⟨rfl, rfl, rfl, rfl⟩
    · unfold Fiber.overwrite
      split <;> exact ⟨rfl, rfl, rfl, rfl⟩
  · refine ⟨rfl, ?_, rfl, rfl⟩
    rw [List.map_map]
    refine List.map_congr_left fun f _ => ?_
    dsimp only [Function.comp_apply]
    split <;> rfl

end Scheduler

namespace Machine

section

variable {c : Code} {P : Int → Prop} {v : Scene} {m : Machine} {h : Heap} {a : Addr} {n : Node}

theorem Sturdy.start (sturdy : m.Sturdy c P) :
    ∀ r ∈ m.rootThunk.get ++ m.heap.pinned, IsAddress m.heap.words r := by
  intro r mem
  rcases List.mem_append.1 mem with root | pin
  · rcases List.mem_append.1 root with root | result
    · obtain ⟨f, live, inside⟩ := List.mem_flatMap.1 root
      obtain ⟨env, operands, frames⟩ := sturdy.fit.typed.live live
      rcases List.mem_cons.1 inside with rfl | inside
      · exact .inr env.1
      · rcases List.mem_append.1 inside with operand | frame
        · exact Heap.isValue_typing.1 (operands r operand)
        · exact .inr ((frames r frame).elim And.left And.left)
    · exact sturdy.result r (Option.mem_toList.1 result)
  · exact sturdy.pins r pin

theorem Poised.typed (poised : m.Poised c P v) :
    m.control.sched.current.Typed (Heap.typing m.heap.words) := poised.fit.typed.current poised.alive

theorem Poised.env (poised : m.Poised c P v) : Has m.heap.words v.own.env .environment :=
  poised.own ▸ poised.typed.env

theorem Poised.operand (poised : m.Poised c P v) (mem : a ∈ m.control.sched.current.operands) :
    IsAddress m.heap.words a := Heap.isValue_typing.1 (poised.typed.operands a mem)

theorem Poised.current_counter (poised : m.Poised c P v) : P m.control.sched.current.pc :=
  poised.counters _ (Scheduler.mem_live.2 (.inl ⟨rfl, poised.alive⟩))

theorem Poised.counter (poised : m.Poised c P v) : P v.own.pc := poised.own ▸ poised.current_counter

theorem Poised.current_frames (poised : m.Poised c P v) : m.control.sched.current.frames = v.own.frames :=
  congrArg Context.frames poised.own

theorem Poised.held (poised : m.Poised c P v) (mem : a ∈ v.activations) : a ∈ m.control.roots := by
  refine List.mem_append_left _ ?_
  rw [Scene.activations, ← poised.own, ← poised.others] at mem
  rcases List.mem_append.1 mem with own | other
  · exact Scheduler.mem_roots_current poised.alive (List.mem_cons_of_mem _ (List.mem_append_right _ own))
  · obtain ⟨k, inside, frame⟩ := List.mem_flatMap.1 other
    obtain ⟨f, mem, rfl⟩ := List.mem_map.1 inside
    exact Scheduler.mem_roots_others mem (List.mem_cons_of_mem _ (List.mem_append_right _ frame))

/-- Every entry of the runtime stack is a call or a block. -/
theorem Poised.activation (poised : m.Poised c P v) (mem : a ∈ v.own.frames) :
    ∃ n, Shows m.heap.words a n ∧ n.IsActivation := by
  rw [← poised.own] at mem
  rcases poised.typed.frames a mem with call | block
  · obtain ⟨n, s, -, tag⟩ := poised.shaped.has call nofun
    exact ⟨n, s, .inl tag⟩
  · obtain ⟨n, s, -, tag⟩ := poised.shaped.has block nofun
    exact ⟨n, s, .inr tag⟩

/-- The heap has changed, but for what the machine holds. -/
theorem Sturdy.grow (sturdy : m.Sturdy c P) (grows : Grows P (Held (m.control.roots ++ m.heap.pinned)) m.heap h) :
    Sturdy c P { m with heap := h } := by
  have address : ∀ {b}, IsAddress m.heap.words b → IsAddress h.words b := (Heap.isAddress_congr grows.size).2
  refine ⟨sturdy.code, grows.shaped, sturdy.fit.mono fun b root r role => ?_, sturdy.counters, fun b mem => ?_,
    fun b mem => address (sturdy.result b mem)⟩
  · have held : Held (m.control.roots ++ m.heap.pinned) b :=
      .inr (List.mem_append_left _ (List.mem_append_left _ root))
    cases r with
    | environment => exact grows.has role nofun held
    | activation => exact role.imp (grows.has · nofun held) (grows.has · nofun held)
    | int | value | frame | senders | receivers => exact address role
  · exact address (sturdy.pins b (grows.pinned ▸ mem))

/-- Code that wakes and parks nobody and writes to new nodes only keeps up what is to be met. -/
theorem Poised.meets (poised : m.Poised c P v) {m₁ : Machine} (slight : m.Slight m₁) : ∀ m', m₁.Slight m' → v.met m' :=
  fun m' onward => poised.met m' (slight.trans onward)

theorem Poised.grow (poised : m.Poised c P v) (grows : Grows P (Held (m.control.roots ++ m.heap.pinned)) m.heap h)
    (met : ∀ m', Machine.Slight { m with heap := h } m' → v.met m') : Poised c P v { m with heap := h } := by
  refine ⟨poised.toSturdy.grow grows, poised.alive, poised.own, poised.others, poised.nextId,
    fun b n watched mem => ?_, met⟩
  obtain ⟨s, activation⟩ := poised.watched b n watched mem
  exact ⟨grows.shows s (.inr (List.mem_append_left _ (poised.held mem))), activation⟩

theorem Poised.update (poised : m.Poised c P v) (u : Updates m.heap h a n) (tag : tagAt m.heap.words a = n.tag)
    (linked : Linked P m.heap.words a n) (other : ¬ n.IsActivation)
    (met : ∀ m', Machine.Slight { m with heap := h } m' → v.met m') : Poised c P v { m with heap := h } := by
  have grows := poised.shaped.updates u tag linked
  have has : ∀ {b t}, Has m.heap.words b t → Has h.words b t := u.has tag
  have address : ∀ {b}, IsAddress m.heap.words b → IsAddress h.words b := (Heap.isAddress_congr grows.size).2
  refine ⟨⟨poised.code, grows.shaped, poised.fit.mono fun b _ r role => ?_, poised.counters, fun b mem => ?_,
    fun b mem => address (poised.result b mem)⟩, poised.alive, poised.own, poised.others, poised.nextId,
    fun b n' watched mem => ?_, met⟩
  · cases r with
    | environment => exact has role
    | activation => exact role.imp has has
    | int | value | frame | senders | receivers => exact address role
  · exact address (poised.pins b (grows.pinned ▸ mem))
  · obtain ⟨s, activation⟩ := poised.watched b n' watched mem
    refine ⟨grows.shows s ?_, activation⟩
    rintro rfl
    rw [s.tagAt] at tag
    exact other (by rwa [Node.IsActivation, ← tag])

theorem Poised.addPins (poised : m.Poised c P v) (as : List Addr) (new : ∀ a ∈ as, IsAddress m.heap.words a) :
    (m.addPins as).Poised c P v := by
  refine ⟨⟨poised.code, poised.shaped.with_pins _, poised.fit, poised.counters, fun b mem => ?_, poised.result⟩,
    poised.alive, poised.own, poised.others, poised.nextId, poised.watched, fun m' onward => poised.met m' ?_⟩
  · exact (List.mem_append.1 mem).elim (poised.pins b) (new b)
  · exact ⟨onward.heap.with_pins, onward.sched⟩

theorem Sturdy.release (sturdy : m.Sturdy c P) (mark : Nat) : (m.release mark).Sturdy c P :=
  ⟨sturdy.code, sturdy.shaped.with_pins _, sturdy.fit, sturdy.counters,
    fun b mem => sturdy.pins b (List.mem_of_mem_take mem), sturdy.result⟩

theorem Poised.release (poised : m.Poised c P v) (mark : Nat) : (m.release mark).Poised c P v :=
  ⟨poised.toSturdy.release mark, poised.alive, poised.own, poised.others, poised.nextId, poised.watched,
    fun m' onward => poised.met m' ⟨onward.heap.with_pins, onward.sched⟩⟩

/-- Fibers have moved. Those who are not current are where they were, and the current one has returned from
some of its activations, if anything. -/
theorem Poised.move (poised : m.Poised c P v) {s : Scheduler} {k : Context}
    (fit : s.Fit (Heap.typing m.heap.words)) (alive : s.current.state ≠ .terminated) (own : s.current.context = k)
    (others : s.others.map Fiber.context = m.control.sched.others.map Fiber.context)
    (nextId : s.nextId = m.control.sched.nextId) (counter : P k.pc) (fewer : k.frames ⊆ v.own.frames)
    (met : ∀ m', (m.withSched s).Slight m' → v.met m') : (m.withSched s).Poised c P { v with own := k } := by
  have others := others.trans poised.others
  refine ⟨⟨poised.code, poised.shaped, fit, fun f mem => ?_, poised.pins, poised.result⟩, alive, own, others,
    nextId.trans poised.nextId, fun a n watched mem => poised.watched a n watched ?_, met⟩
  · rcases Scheduler.mem_live.1 mem with ⟨rfl, -⟩ | mem
    · have pc : s.current.pc = k.pc := congrArg Context.pc own
      exact pc ▸ counter
    · have inside : f.context ∈ m.control.sched.others.map Fiber.context := by
        rw [poised.others, ← others]
        exact List.mem_map_of_mem mem
      obtain ⟨g, there, same⟩ := List.mem_map.1 inside
      have pc : g.pc = f.pc := congrArg Context.pc same
      exact pc ▸ poised.counters g (Scheduler.mem_live.2 (.inr there))
  · rcases List.mem_append.1 mem with own | other
    · exact List.mem_append_left _ (fewer own)
    · exact List.mem_append_right _ other

theorem Poised.rearrange (poised : m.Poised c P v) {s : Scheduler} (fit : s.Fit (Heap.typing m.heap.words))
    (alive : s.current.state ≠ .terminated) (own : s.current.context = m.control.sched.current.context)
    (others : s.others.map Fiber.context = m.control.sched.others.map Fiber.context)
    (nextId : s.nextId = m.control.sched.nextId) (met : ∀ m', (m.withSched s).Slight m' → v.met m') :
    (m.withSched s).Poised c P v :=
  poised.move fit alive (own.trans poised.own) others nextId poised.counter (List.Subset.refl _) met

theorem Poised.withFiber (poised : m.Poised c P v) {f : Fiber} (typed : f.Typed (Heap.typing m.heap.words))
    (id : f.id = m.control.sched.current.id) (state : f.state = m.control.sched.current.state) (counter : P f.pc)
    (fewer : f.frames ⊆ v.own.frames) : (m.withFiber f).Poised c P { v with own := f.context } :=
  poised.move (poised.fit.of_current rfl rfl rfl id state fun _ => typed) (state ▸ poised.alive) rfl rfl rfl counter
    fewer (poised.meets (.of_sched (m.undisturbed_withFiber id state)))

theorem Poised.push (poised : m.Poised c P v) (is : IsAddress m.heap.words a) :
    (m.withSched (m.control.sched.push a)).Poised c P v :=
  poised.rearrange (poised.fit.push (.inl is)) poised.alive rfl rfl rfl (poised.meets (.of_sched (.push _ a)))

theorem Poised.drop (poised : m.Poised c P v) (k : Nat) :
    (m.withFiber (m.control.sched.current.drop k)).Poised c P v := by
  obtain ⟨env, operands, frames⟩ := poised.typed
  refine poised.rearrange (poised.fit.of_current rfl rfl rfl rfl rfl fun _ => ?_) poised.alive rfl rfl rfl
    (poised.meets (.of_sched (m.undisturbed_withFiber rfl rfl)))
  exact ⟨env, fun x mem => operands x (List.mem_of_mem_drop mem), frames⟩

section Meeting

variable (free : ∀ m', v.met m')

include free

theorem Poised.wake (poised : m.Poised c P v) (id : Nat) : (m.withSched (m.control.sched.wake id)).Poised c P v := by
  obtain ⟨own, others, nextId, dead⟩ := m.control.sched.context_wake id
  exact poised.rearrange (poised.fit.wake id) (mt dead.1 poised.alive) own others nextId fun m' _ => free m'

theorem Poised.deliver (poised : m.Poised c P v) (is : IsAddress m.heap.words a) (id : Nat) :
    (m.withSched (m.control.sched.deliver id a)).Poised c P v := by
  obtain ⟨own, others, nextId, state⟩ := m.control.sched.context_deliver id a
  exact poised.rearrange (poised.fit.deliver (.inl is) id) (state ▸ poised.alive) own others nextId fun m' _ => free m'

/-- The current fiber gives up, for a time. -/
theorem Poised.block (poised : m.Poised c P v) (running : m.control.sched.current.state = .running)
    (timers : List Timer) : (m.withSched { m.control.sched with
      current := { m.control.sched.current with state := .blocked }, timers }).Poised c P v :=
  poised.rearrange (poised.fit.stop running timers) nofun rfl rfl rfl fun m' _ => free m'

theorem Poised.park (poised : m.Poised c P v) (running : m.control.sched.current.state = .running) :
    (m.withSched m.control.sched.park).Poised c P v := poised.block free running m.control.sched.timers

theorem Poised.sleep (poised : m.Poised c P v) (running : m.control.sched.current.state = .running) (ms : Int64) :
    (m.withSched (m.control.sched.sleep ms)).Poised c P v :=
  poised.rearrange (poised.fit.sleep running ms) nofun rfl rfl rfl fun m' _ => free m'

/-- A new fiber has an empty stack, so there is no more to watch. -/
theorem Poised.spawn (poised : m.Poised c P v) : ∃ others,
    others.Perm (⟨v.nextId, v.own.pc, v.own.env, []⟩ :: v.others) ∧
      (m.withSched (m.control.sched.spawn v.own.pc v.own.env)).Poised c P
        { v with others, nextId := v.nextId + 1 } := by
  have table := (Scheduler.perm_insertFiber
    { id := m.control.sched.nextId, state := .ready, pc := v.own.pc, env := v.own.env } m.control.sched.others).map
      Fiber.context
  have others := table
  rw [List.map_cons, poised.others] at others
  refine ⟨_, poised.nextId ▸ others, ⟨poised.code, poised.shaped, poised.fit.spawn poised.env _, fun f mem => ?_,
    poised.pins, poised.result⟩, poised.alive, poised.own, rfl, congrArg (· + 1) poised.nextId,
    fun a n watched mem => poised.watched a n watched ?_, fun m' _ => free m'⟩
  · rcases Scheduler.mem_live.1 mem with ⟨rfl, -⟩ | mem
    · exact poised.current_counter
    · rcases Scheduler.mem_insertFiber.1 mem with rfl | mem
      · exact poised.counter
      · exact poised.counters f (Scheduler.mem_live.2 (.inr mem))
  · rcases List.mem_append.1 mem with own | other
    · exact List.mem_append_left _ own
    · refine List.mem_append_right _ ?_
      obtain ⟨k, inside, frame⟩ := List.mem_flatMap.1 other
      rcases List.mem_cons.1 (others.mem_iff.1 inside) with rfl | inside
      · cases frame
      · exact List.mem_flatMap.2 ⟨k, inside, frame⟩

end Meeting

theorem Poised.jump (poised : m.Poised c P v) {pc : Int} (counter : P pc) :
    (m.withFiber { m.control.sched.current with pc := pc }).Poised c P { v with own := { v.own with pc } } := by
  have moved := poised.withFiber (f := { m.control.sched.current with pc := pc })
    ⟨poised.typed.env, poised.typed.operands, poised.typed.frames⟩ rfl rfl counter
    (poised.current_frames ▸ List.Subset.refl _)
  rw [← poised.own]
  exact moved

theorem Poised.setEnv (poised : m.Poised c P v) {env : Addr} (has : Has m.heap.words env .environment) :
    (m.withFiber { m.control.sched.current with env := env }).Poised c P { v with own := { v.own with env } } := by
  have moved := poised.withFiber (f := { m.control.sched.current with env := env })
    ⟨has, poised.typed.operands, poised.typed.frames⟩ rfl rfl poised.current_counter
    (poised.current_frames ▸ List.Subset.refl _)
  rw [← poised.own]
  exact moved

theorem Poised.setFrames (poised : m.Poised c P v) {frames : List Addr} (fewer : frames ⊆ v.own.frames) :
    (m.withFiber { m.control.sched.current with frames := frames }).Poised c P
      { v with own := { v.own with frames } } := by
  have moved := poised.withFiber (f := { m.control.sched.current with frames := frames })
    ⟨poised.typed.env, poised.typed.operands, fun x mem =>
      poised.typed.frames x (poised.current_frames ▸ fewer mem)⟩ rfl rfl poised.current_counter fewer
  rw [← poised.own]
  exact moved

theorem Poised.pushFrame (poised : m.Poised c P v) (s : Shows m.heap.words a n) (activation : n.IsActivation) :
    (m.withFiber { m.control.sched.current with frames := a :: m.control.sched.current.frames }).Poised c P
      (v.enter a n) := by
  have role : Heap.typing m.heap.words a .activation :=
    activation.imp (fun tag => ⟨s.node, s.tagAt.trans tag⟩) fun tag => ⟨s.node, s.tagAt.trans tag⟩
  have fit : (m.control.sched.withCurrent { m.control.sched.current with
      frames := a :: m.control.sched.current.frames }).Fit (Heap.typing m.heap.words) :=
    poised.fit.of_current rfl rfl rfl rfl rfl fun _ =>
      ⟨poised.typed.env, poised.typed.operands, List.forall_mem_cons.2 ⟨role, poised.typed.frames⟩⟩
  refine ⟨⟨poised.code, poised.shaped, fit, fun f mem => ?_, poised.pins, poised.result⟩, poised.alive, ?_,
    poised.others, poised.nextId, fun b k watched mem => ?_, poised.meets (.of_sched (m.undisturbed_withFiber rfl rfl))⟩
  · rcases Scheduler.mem_live.1 mem with ⟨rfl, -⟩ | mem
    · exact poised.current_counter
    · exact poised.counters f (Scheduler.mem_live.2 (.inr mem))
  · rw [Scene.enter, ← poised.own]
    rfl
  · rcases watched with ⟨watched, inside⟩ | ⟨rfl, rfl⟩
    · exact poised.watched b k watched inside
    · exact ⟨s, activation⟩

end

end Machine

/-- Unless it crashes the code leaves the machine sturdy, and in `Q` if it does not fault. In what order fibers are
visited makes no difference. -/
structure Treads {α : Type} (c : Code) (P : Int → Prop) (Q : α → Machine → Prop) (x : Exec α) (m : Machine) : Prop where
  yields : Yields Q (Machine.Sturdy c P) (x m)
  agrees : ∀ order, Agrees (Machine.reorder order) (x m) (x (m.reorder order))

namespace Treads

variable {α β : Type} {c : Code} {P : Int → Prop} {v : Scene} {m m' : Machine} {x : Exec α} {k : α → Exec β}
  {R : α → Machine → Prop} {Q Q' : β → Machine → Prop}

theorem imp {y : Exec β} (treads : Treads c P Q y m) (weaker : ∀ a m', Q a m' → Q' a m') : Treads c P Q' y m :=
  ⟨Yields.imp treads.yields (fun a m' _ => weaker a m') fun _ sturdy => sturdy, treads.agrees⟩

theorem bind (first : Treads c P R x m) (rest : ∀ a m', R a m' → Treads c P Q (k a) m') :
    Treads c P Q (x >>= k) m := by
  refine ⟨Yields.bind first.yields (fun a m' _ holds => (rest a m' holds).yields) fun _ sturdy => sturdy,
    fun order => .bind (first.agrees order) fun a m' run => ?_⟩
  have yields := first.yields
  rw [run] at yields
  exact (rest a m' yields).agrees order

theorem pure {a : β} (holds : Q a m) : Treads c P Q (Pure.pure a) m := ⟨holds, fun _ => rfl⟩

theorem fault {e : Cause} (sturdy : m.Sturdy c P) : Treads c P Q (FiberVm.fault e) m := ⟨sturdy, fun _ => rfl⟩

theorem of_ok {y : Exec β} {b : β} [blind : Exec.Regardless y] (run : y m = .ok b m') (holds : Q b m') :
    Treads c P Q y m := by
  refine ⟨?_, blind.agrees m⟩
  rw [run]
  exact holds

theorem step {a : α} [blind : Exec.Regardless x] (run : x m = .ok a m') (rest : Treads c P Q (k a) m') :
    Treads c P Q (x >>= k) m := by
  refine ⟨?_, fun order => .bind (blind.agrees m order) fun b m'' run' => ?_⟩
  · rw [bind_of_ok run]
    exact rest.yields
  · cases run.symm.trans run'
    exact rest.agrees order

/-- The code fails whatever comes after it. -/
theorem stuck {e : Failure} [blind : Exec.Regardless x] (run : x m = .error e m) (sturdy : m.Sturdy c P) :
    Treads c P Q (x >>= k) m := by
  refine ⟨?_, fun order => .bind (blind.agrees m order) fun b m'' run' => by cases run.symm.trans run'⟩
  rw [bind_of_error run]
  cases e with
  | fault c => exact sturdy
  | crash c => trivial

theorem read [Exec.Regardless x] (sturdy : m.Sturdy c P) (still : Still x)
    (rest : ∀ a, x m = .ok a m → Treads c P Q (k a) m) : Treads c P Q (x >>= k) m := by
  have same := still m
  cases run : x m with
  | ok a m' =>
    rw [run] at same
    obtain rfl : m' = m := same
    exact step run (rest a run)
  | error e m' =>
    rw [run] at same
    obtain rfl : m' = m := same.1
    exact stuck run sturdy

theorem asks {f : Control → α} (same : ∀ c order, f { c with order } = f c)
    (rest : Treads c P Q (k (f m.control)) m) : Treads c P Q (Exec.asks f >>= k) m :=
  have := Exec.Regardless.asks same
  step rfl rest

theorem asksFiber {f : Fiber → α} (rest : Treads c P Q (k (f m.control.sched.current)) m) :
    Treads c P Q (Exec.asksFiber f >>= k) m := step rfl rest

/-- The tag of a value is that of some node; nothing else has one. -/
theorem tagOf {a : Addr} {k : Tag → Exec β} (sturdy : m.Sturdy c P) (is : IsAddress m.heap.words a)
    (rest : ∀ t, Has m.heap.words a t → Treads c P Q (k t) m) : Treads c P Q (Exec.tagOf a >>= k) m := by
  rcases is with rfl | node
  · have run : Exec.tagOf noAddr m = .error (.crash .outOfRange) m :=
      onHeap_error (Heap.tagOf_noAddr sturdy.shaped.sized)
    exact stuck run sturdy
  · exact step (onHeap_ok (Heap.tagOf_ok node)) (rest _ ⟨node, rfl⟩)

theorem expectTag {a : Addr} {want : Tag} {what : String} {k : Unit → Exec β} (sturdy : m.Sturdy c P)
    (is : IsAddress m.heap.words a) (rest : Has m.heap.words a want → Treads c P Q (k ()) m) :
    Treads c P Q (Exec.expectTag a want what >>= k) m := by
  unfold Exec.expectTag
  rw [bind_assoc]
  refine tagOf sturdy is fun t has => ?_
  split
  · next same => exact step rfl (rest (same ▸ has))
  · exact fault sturdy

theorem peek {i : Nat} {k : Addr → Exec β} (poised : m.Poised c P v)
    (rest : ∀ a, m.control.sched.current.operands[i]? = some a → IsAddress m.heap.words a → Treads c P Q (k a) m) :
    Treads c P Q (Exec.peek i >>= k) m :=
  read poised.toSturdy (Exec.still_peek i) fun a run =>
    rest a (Exec.getElem?_of_peek run) (poised.operand (List.mem_of_getElem? (Exec.getElem?_of_peek run)))

theorem drop {i : Nat} {k : Unit → Exec β} (poised : m.Poised c P v)
    (rest : (m.withFiber (m.control.sched.current.drop i)).Poised c P v →
      Treads c P Q (k ()) (m.withFiber (m.control.sched.current.drop i))) : Treads c P Q (Exec.drop i >>= k) m := by
  by_cases enough : i ≤ m.control.sched.current.operands.length
  · exact step (Exec.drop_ok enough) (rest (poised.drop i))
  · exact stuck (Exec.drop_short (Nat.lt_of_not_le enough)) poised.toSturdy

theorem pop {k : Addr → Exec β} (poised : m.Poised c P v)
    (rest : ∀ a, IsAddress m.heap.words a → (m.withFiber (m.control.sched.current.drop 1)).Poised c P v →
      Treads c P Q (k a) (m.withFiber (m.control.sched.current.drop 1))) : Treads c P Q (Exec.pop >>= k) m := by
  unfold Exec.pop
  rw [bind_assoc]
  refine peek poised fun a _ is => ?_
  rw [bind_assoc]
  exact drop poised fun poised => step rfl (rest a is poised)

theorem push {a : Addr} (poised : m.Poised c P v) (is : IsAddress m.heap.words a) :
    Treads c P (fun _ m' => m'.Poised c P v) (Exec.push a) m := of_ok (Exec.push_eq m a) (poised.push is)

theorem onHeap {op : HeapM α} {a : α} {h : Heap} (run : op m.heap = .ok a h)
    (rest : Treads c P Q (k a) { m with heap := h }) : Treads c P Q (Exec.onHeap op >>= k) m :=
  step (onHeap_ok run) rest

theorem allocating {op : Heap.Roots → HeapM Addr} {k : Addr → Exec β} {S : Addr → Heap → Prop}
    (poised : m.Poised c P v) (orders : Heap.AnyOrder m.rootThunk m.heap op)
    (yields : Yields (fun a h => Grows P (Held (m.control.roots ++ m.heap.pinned)) m.heap h ∧ S a h)
      (Grows P (Held (m.control.roots ++ m.heap.pinned)) m.heap) (op m.rootThunk m.heap))
    (met : ∀ a h, S a h → ∀ m', Machine.Slight { m with heap := h } m' → v.met m')
    (rest : ∀ a h, Grows P (Held (m.control.roots ++ m.heap.pinned)) m.heap h → S a h →
      Machine.Poised c P v { m with heap := h } → Treads c P Q (k a) { m with heap := h }) :
    Treads c P Q (Exec.allocating op >>= k) m := by
  have agrees : ∀ order, Agrees (Machine.reorder order) (Exec.allocating op m) (Exec.allocating op (m.reorder order)) :=
    fun order => .allocating (orders _ rfl)
  refine bind (R := fun a m' => ∃ h, m' = { m with heap := h } ∧
    Grows P (Held (m.control.roots ++ m.heap.pinned)) m.heap h ∧ S a h) ⟨?_, agrees⟩ ?_
  · cases run : op m.rootThunk m.heap with
    | ok a h =>
      rw [run] at yields
      rw [allocating_ok run]
      exact ⟨h, rfl, yields⟩
    | error e h =>
      rw [run] at yields
      rw [allocating_error run]
      cases e with
      | fault c => exact poised.toSturdy.grow yields
      | crash c => trivial
  · rintro a _ ⟨h, rfl, grows, made⟩
    exact rest a h grows made (poised.grow grows (met a h made))

theorem make {op : Heap.Roots → HeapM Addr} {k : Addr → Exec β} {n : Node} (poised : m.Poised c P v)
    (orders : Heap.AnyOrder m.rootThunk m.heap op)
    (makes : Heap.Makes P m.rootThunk.get n m.heap (op m.rootThunk m.heap)) (plain : ¬ IsSync n.tag)
    (rest : ∀ a h, Grows P (Held (m.control.roots ++ m.heap.pinned)) m.heap h →
      Shows h.words a n ∧ Mints (Held (m.control.roots ++ m.heap.pinned)) a m.heap h →
      Machine.Poised c P v { m with heap := h } → Treads c P Q (k a) { m with heap := h }) :
    Treads c P Q (Exec.allocating op >>= k) m := by
  refine allocating poised orders makes (fun a h made => poised.meets (.of_heap (made.2.slight ?_))) rest
  rwa [made.1.tagAt]

theorem build {op : Heap.Roots → HeapM Addr} {k : Addr → Exec β} (poised : m.Poised c P v)
    (orders : Heap.AnyOrder m.rootThunk m.heap op)
    (builds : Heap.Builds P m.rootThunk.get m.heap (op m.rootThunk m.heap))
    (rest : ∀ a h, IsAddress h.words a → Machine.Poised c P v { m with heap := h } →
      Treads c P Q (k a) { m with heap := h }) : Treads c P Q (Exec.allocating op >>= k) m :=
  allocating (S := fun a h => IsAddress h.words a ∧ m.heap.Slight h) poised orders builds
    (fun _ _ built => poised.meets (.of_heap built.2)) fun a h _ built => rest a h built.1

theorem withPins {as : List Addr} {y : Exec Unit} {Q : Unit → Machine → Prop} {Q' : Unit → Machine → Prop}
    (body : Treads c P Q y (m.addPins as)) (release : ∀ u m', Q u m' → Q' u (m'.release m.heap.pinned.length)) :
    Treads c P Q' (Exec.withPins as y) m := by
  obtain ⟨yields, agrees⟩ := body
  refine ⟨?_, fun order => .withPins (agrees order)⟩
  rw [withPins_eq]
  cases run : y (m.addPins as) with
  | ok a m' =>
    rw [run] at yields
    exact release a m' yields
  | error e m' =>
    rw [run] at yields
    cases e with
    | fault c => exact Machine.Sturdy.release yields _
    | crash c => trivial

theorem wake {a : Addr} {id : Int} (free : ∀ m', v.met m') (poised : m.Poised c P v) (is : IsAddress m.heap.words a) :
    Treads c P (fun _ m' => m'.Poised c P v) (Exec.wake id a) m := by
  refine ⟨?_, Exec.Regardless.agrees m⟩
  rw [Exec.wake_eq]
  split
  · split
    · exact poised.wake free id.toNat
    · exact (poised.deliver free is id.toNat).wake free id.toNat
  · exact poised.toSturdy

end Treads

end FiberVm
