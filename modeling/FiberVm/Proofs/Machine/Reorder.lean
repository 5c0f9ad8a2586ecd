import FiberVm.Proofs.Machine.Overlooks

/-!
# Other orders of visit

The same machine may visit its fibers in another order. Code that makes no nodes takes no notice of that,
whatever state the machine is in.
-/

set_option autoImplicit false

namespace FiberVm

/-- The machine, with its collections visiting the fibers in the order given. -/
def Machine.reorder (order : Enumeration) (m : Machine) : Machine := { m with control := { m.control with order } }

instance (order : Enumeration) : Control.Aside fun c => { c with order } where
  sched := fun _ => rfl
  sink := fun _ => rfl
  result := fun _ => rfl
  setSched := fun _ _ => rfl
  setSink := fun _ _ => rfl
  setResult := fun _ _ => rfl
  setFailed := fun _ _ => rfl

/-- The code does the same in whatever order fibers are visited. -/
class Exec.Regardless {α : Type} (x : Exec α) : Prop where
  agrees : ∀ (m : Machine) (order : Enumeration), Agrees (Machine.reorder order) (x m) (x (m.reorder order))

section Agrees

variable {m : Machine} {order : Enumeration}

theorem Agrees.allocating {op : Heap.Roots → HeapM Addr}
    (agrees : Agrees id (op m.control.heapRoots m.heap) (op (m.reorder order).control.heapRoots m.heap)) :
    Agrees (Machine.reorder order) (Exec.allocating op m) (Exec.allocating op (m.reorder order)) :=
  agrees_allocating (f := fun c => { c with order }) agrees

theorem Agrees.withPins {as : List Addr} {y : Exec Unit}
    (agrees : Agrees (Machine.reorder order) (y (m.addPins as)) (y ((m.addPins as).reorder order))) :
    Agrees (Machine.reorder order) (Exec.withPins as y m) (Exec.withPins as y (m.reorder order)) :=
  agrees_withPins (f := fun c => { c with order }) agrees

end Agrees

instance (order : Enumeration) (next : Nat) : Exec.Overlooks (fun c => { c with order }) (Exec.findStop next) := by
  refine .seq (.asks fun _ => rfl) fun code => ?_
  split <;> infer_instance

namespace Exec.Regardless

variable {α : Type}

instance of_overlooks (x : Exec α) [overlooks : ∀ order, Overlooks (fun c => { c with order }) x] : Regardless x :=
  ⟨fun m order => (overlooks order).agrees m⟩

theorem asks {f : Control → α} (same : ∀ c order, f { c with order } = f c) : Regardless (Exec.asks f) :=
  have := fun order => Overlooks.asks (f := fun c => { c with order }) fun c => same c order
  of_overlooks _

end Exec.Regardless

end FiberVm
