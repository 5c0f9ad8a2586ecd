import FiberVm.Machine.Step
import FiberVm.Proofs.Heap.Taking
import FiberVm.Proofs.Machine.Scheduling

/-!
# Machines that differ in their addresses only

Two machines are alike if their heaps mirror each other along a renaming and everything else is the same
up to that renaming. Faults need only be of the same kind and at the same place: their wording may give
addresses away. Printed lines may do so too; whether they are the same as well is a parameter. A machine
that is alike to itself is one in which every address plays its role.
-/

set_option autoImplicit false

namespace FiberVm

/-- The sinks take as many lines, and if `Q` holds they hold the same ones. -/
def Sink.Alike (Q : Prop) : Sink → Sink → Prop
  | .discard, .discard => True
  | .keep text₁ room₁, .keep text₂ room₂ => room₂ = room₁ ∧ (Q → text₂ = text₁)
  | _, _ => False

/-- The kind of a fault and its place. -/
def Fault.site (f : Fault) : Kind × Nat × Int × Option Opcode := (f.cause.kind, f.fiber, f.pc, f.op)

/-- No instruction is missing, and no constant is an address. -/
def Code.Plain (code : Code) : Prop :=
  ∀ entry ∈ code.toList, ∃ i, entry = some i ∧ ∀ a, i ≠ .loadConst (.ref a)

/-- What is settled for a whole run: the program, and whether all that is printed is to be compared. -/
structure Terms where
  code : Code
  quiet : Prop

/-- The machines without their heaps are the same along the renaming. -/
structure Control.Alike (q : Terms) (w : World) (c₁ c₂ : Control) : Prop where
  plain : q.code.Plain
  program : c₁.code = q.code
  code : c₂.code = c₁.code
  limit : c₂.stepLimit = c₁.stepLimit
  steps : c₂.steps = c₁.steps
  sched : c₂.sched = c₁.sched.rename w.image
  fit : c₁.sched.Fit w.role
  result : c₂.result = c₁.result.map w.image
  value : ∀ a, c₁.result = some a → IsValue w.role a
  sink : Sink.Alike q.quiet c₁.sink c₂.sink
  failed : c₂.failed.map Fault.site = c₁.failed.map Fault.site

/-- The machines are the same along the renaming. -/
structure Machine.Alike (q : Terms) (w : World) (m₁ m₂ : Machine) : Prop where
  heap : Mirror w m₁.heap m₂.heap
  pins : m₂.heap.pinned = m₁.heap.pinned.map w.image
  pinned : ∀ a ∈ m₁.heap.pinned, w.Knows a
  control : m₁.control.Alike q w m₂.control

theorem Sink.Alike.refl (Q : Prop) (s : Sink) : Sink.Alike Q s s := by
  cases s with
  | discard => trivial
  | keep text room => exact ⟨rfl, fun _ => rfl⟩

section Scheduler

variable {w w' : World} {s : Scheduler} {ρ ρ' : Addr → Addr} {D D' : Typing}

theorem rename_fiber_by_id (f : Fiber) : f.rename id = f := by
  simp [Fiber.rename]

theorem Scheduler.rename_by_id (s : Scheduler) : s.rename id = s := by
  have others : s.others.map (Fiber.rename id) = s.others := by
    rw [show Fiber.rename id = id from funext rename_fiber_by_id, List.map_id]
  simp only [Scheduler.rename, rename_fiber_by_id, others]

theorem Scheduler.mem_roots_current (alive : s.current.state ≠ .terminated) {a : Addr}
    (mem : a ∈ s.current.roots) : a ∈ s.roots :=
  List.mem_flatMap.2 ⟨s.current, mem_live.2 (.inl ⟨rfl, alive⟩), mem⟩

theorem Scheduler.mem_roots_others {f : Fiber} (inside : f ∈ s.others) {a : Addr} (mem : a ∈ f.roots) :
    a ∈ s.roots :=
  List.mem_flatMap.2 ⟨f, mem_live.2 (.inr inside), mem⟩

theorem Scheduler.rename_congr (alive : s.current.state ≠ .terminated)
    (same : ∀ a ∈ s.roots, ρ' a = ρ a) : s.rename ρ' = s.rename ρ := by
  have current : s.current.rename ρ' = s.current.rename ρ :=
    Fiber.rename_congr fun a mem => same a (mem_roots_current alive mem)
  have others : s.others.map (Fiber.rename ρ') = s.others.map (Fiber.rename ρ) :=
    List.map_congr_left fun f inside => Fiber.rename_congr fun a mem => same a (mem_roots_others inside mem)
  simp only [Scheduler.rename, current, others]

theorem Fiber.Typed.mono {f : Fiber} (typed : f.Typed D) (known : ∀ a ∈ f.roots, ∀ r, D a r → D' a r) :
    f.Typed D' := by
  refine ⟨known _ (by simp [Fiber.roots]) _ typed.env, fun a mem => ?_, fun a mem => ?_⟩
  · have root : a ∈ f.roots := by simp [Fiber.roots, mem]
    exact (typed.operands a mem).imp (known a root _) (known a root _)
  · exact known a (by simp [Fiber.roots, mem]) _ (typed.frames a mem)

theorem Scheduler.Fit.mono (fit : s.Fit D) (known : ∀ a ∈ s.roots, ∀ r, D a r → D' a r) : s.Fit D' := by
  refine ⟨fit.cons, fun alive => ?_, fun f inside => ?_⟩
  · exact (fit.typed.current alive).mono fun a mem => known a (mem_roots_current alive mem)
  · exact (fit.typed.others f inside).mono fun a mem => known a (mem_roots_others inside mem)

theorem Scheduler.Fit.knows (fit : s.Fit w.role) {a : Addr} (mem : a ∈ s.roots) : w.Knows a := by
  obtain ⟨f, live, mem⟩ := List.mem_flatMap.1 mem
  obtain ⟨env, operands, frames⟩ := fit.typed.live live
  rcases List.mem_cons.1 mem with rfl | mem
  · exact ⟨_, env⟩
  · rcases List.mem_append.1 mem with mem | mem
    · exact (operands a mem).knows
    · exact ⟨_, frames a mem⟩

theorem Fiber.Typed.rename {f : Fiber} (typed : f.Typed D) :
    (f.rename ρ).Typed fun b r => ∃ a, D a r ∧ ρ a = b := by
  refine ⟨⟨_, typed.env, rfl⟩, fun b mem => ?_, fun b mem => ?_⟩
  · obtain ⟨a, inside, rfl⟩ := List.mem_map.1 mem
    exact (typed.operands a inside).imp (⟨a, ·, rfl⟩) (⟨a, ·, rfl⟩)
  · obtain ⟨a, inside, rfl⟩ := List.mem_map.1 mem
    exact ⟨a, typed.frames a inside, rfl⟩

theorem Scheduler.Fit.rename (fit : s.Fit D) : (s.rename ρ).Fit fun b r => ∃ a, D a r ∧ ρ a = b := by
  obtain ⟨⟨apart, distinct, current_lt, others_lt, queued, once⟩, current, others⟩ := fit
  refine ⟨⟨fun f mem => ?_, ?_, current_lt, fun f mem => ?_, fun k mem => ?_, once⟩,
    fun alive => (current alive).rename, fun f mem => ?_⟩
  · obtain ⟨g, inside, rfl⟩ := List.mem_map.1 mem
    exact apart g inside
  · rw [Scheduler.rename_others, List.map_map]
    exact distinct
  · obtain ⟨g, inside, rfl⟩ := List.mem_map.1 mem
    exact others_lt g inside
  · exact (queued k mem).imp_right fun ⟨f, inside, rest⟩ => ⟨_, List.mem_map_of_mem inside, rest⟩
  · obtain ⟨g, inside, rfl⟩ := List.mem_map.1 mem
    exact (others g inside).rename

end Scheduler

namespace Control.Alike

variable {q : Terms} {w w' : World} {c₁ c₂ : Control} {K : List Addr}

theorem roots (alike : c₁.Alike q w c₂) : c₂.roots = c₁.roots.map w.image := by
  rw [Control.roots, alike.sched, alike.result, Scheduler.roots_rename, Control.roots, List.map_append]
  cases c₁.result <;> rfl

theorem knows (alike : c₁.Alike q w c₂) {a : Addr} (mem : a ∈ c₁.roots) : w.Knows a := by
  rcases List.mem_append.1 mem with mem | mem
  · exact alike.fit.knows mem
  · exact (alike.value a (Option.mem_toList.1 mem)).knows

theorem move (alike : c₁.Alike q w c₂) (role : ∀ a ∈ c₁.roots, ∀ r, w.role a r → w'.role a r)
    (image : ∀ a ∈ c₁.roots, w'.image a = w.image a)
    (sched : c₁.sched.rename w'.image = c₁.sched.rename w.image) : c₁.Alike q w' c₂ := by
  have last : ∀ a, c₁.result = some a → a ∈ c₁.roots := fun a some =>
    List.mem_append_right _ (Option.mem_toList.2 some)
  refine ⟨alike.plain, alike.program, alike.code, alike.limit, alike.steps, alike.sched.trans sched.symm,
    ?_, ?_, ?_, alike.sink, alike.failed⟩
  · exact alike.fit.mono fun a mem => role a (List.mem_append_left _ mem)
  · rw [alike.result]
    exact Option.map_congr fun a some => (image a (last a some)).symm
  · exact fun a some => (alike.value a some).imp (role a (last a some) _) (role a (last a some) _)

theorem extend (alike : c₁.Alike q w c₂) (ext : w.Extends w' K) (sub : c₁.roots ⊆ K)
    (alive : c₁.sched.current.state ≠ .terminated) : c₁.Alike q w' c₂ := by
  refine alike.move (fun a mem r => ext.role a r (.inl (sub mem))) (fun a mem => ext.image a (.inl (sub mem))) ?_
  exact Scheduler.rename_congr alive fun a mem => ext.image a (.inl (sub (List.mem_append_left _ mem)))

theorem left (alike : c₁.Alike q w c₂) : c₁.Alike q w.left c₁ :=
  ⟨alike.plain, alike.program, rfl, rfl, rfl, (Scheduler.rename_by_id _).symm, alike.fit, by simp [World.left],
    alike.value, .refl q.quiet _, rfl⟩

theorem right (alike : c₁.Alike q w c₂) : c₂.Alike q w.right c₂ := by
  refine ⟨alike.plain, alike.code.trans alike.program, rfl, rfl, rfl, (Scheduler.rename_by_id _).symm, ?_,
    by simp [World.right], ?_, .refl q.quiet _, rfl⟩
  · rw [alike.sched]
    exact alike.fit.rename
  · intro b some
    rw [alike.result] at some
    obtain ⟨a, last, rfl⟩ := Option.map_eq_some_iff.1 some
    exact (alike.value a last).imp (⟨a, ·, rfl⟩) (⟨a, ·, rfl⟩)

end Control.Alike

namespace Machine

def withSched (m : Machine) (s : Scheduler) : Machine := { m with control := { m.control with sched := s } }

/-- The machine with one more address kept alive by the host. -/
def pin (v : Addr) (m : Machine) : Machine := { m with heap := m.heap.pin v }

namespace Alike

variable {q : Terms} {w w' : World} {m₁ m₂ : Machine}

theorem left (alike : m₁.Alike q w m₂) : m₁.Alike q w.left m₁ :=
  ⟨alike.heap.left, by simp [World.left], alike.pinned, alike.control.left⟩

theorem right (alike : m₁.Alike q w m₂) : m₂.Alike q w.right m₂ := by
  refine ⟨alike.heap.right, by simp [World.right], fun b mem => ?_, alike.control.right⟩
  rw [alike.pins] at mem
  obtain ⟨a, inside, rfl⟩ := List.mem_map.1 mem
  obtain ⟨r, role⟩ := alike.pinned a inside
  exact ⟨r, a, role, rfl⟩

theorem current (alike : m₁.Alike q w m₂) :
    m₂.control.sched.current = m₁.control.sched.current.rename w.image := by
  rw [alike.control.sched]
  rfl

theorem withSched (alike : m₁.Alike q w m₂) {s : Scheduler} (fit : s.Fit w.role) :
    (m₁.withSched s).Alike q w (m₂.withSched (s.rename w.image)) :=
  ⟨alike.heap, alike.pins, alike.pinned, alike.control.plain, alike.control.program, alike.control.code,
    alike.control.limit, alike.control.steps, rfl, fit, alike.control.result, alike.control.value, alike.control.sink, alike.control.failed⟩

theorem withHeap (alike : m₁.Alike q w m₂) {h₁ h₂ : Heap} (mirror : Mirror w h₁ h₂)
    (pins₁ : h₁.pinned = m₁.heap.pinned) (pins₂ : h₂.pinned = m₂.heap.pinned) :
    Alike q w { m₁ with heap := h₁ } { m₂ with heap := h₂ } := by
  refine ⟨mirror, ?_, ?_, alike.control⟩
  · rw [pins₁, pins₂]
    exact alike.pins
  · rw [pins₁]
    exact alike.pinned

theorem shared (alike : m₁.Alike q w m₂) :
    Shared w m₁.control.heapRoots m₂.control.heapRoots m₁.heap m₂.heap := by
  refine ⟨alike.heap, alike.control.roots, alike.pins, fun x mem => ?_⟩
  rcases List.mem_append.1 mem with mem | mem
  · exact alike.control.knows mem
  · exact alike.pinned x mem

end Alike

end Machine

end FiberVm
