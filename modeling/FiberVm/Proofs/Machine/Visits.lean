import FiberVm.Proofs.Machine.Ordered
import FiberVm.Proofs.Machine.Travel

/-!
# The order of a collection is not observable

The fibers are kept in no particular order, so every collection may visit them in another one. Turn by turn this
makes no difference: machines that differ in it only have the same heap, down to the order of the free list, the
same registers and the same output, and they fail alike. Only where a collection comes upon a broken node, and
crashes, is there more than one outcome.
-/

set_option autoImplicit false

namespace FiberVm

open Heap (IsAddress)

namespace Machine

section

variable {c : Code} {P : Int → Prop} {m : Machine} {t : Turn} {order : Enumeration} {canceled : Bool}

theorem advance_reorder (m : Machine) (order : Enumeration) :
    (m.reorder order).control.advance.2 = m.control.advance.2 := by
  rw [advance_snd, advance_snd]
  rfl

theorem Sturdy.collect_reorder (sturdy : m.Sturdy c P) (sound : ¬ m.Crashes .collect) (order : Enumeration) :
    Commutes (reorder order) (perform .collect) m := by
  have visits : ∀ a, a ∈ (m.reorder order).control.visit m.heap.stats.collections ↔ a ∈ m.rootThunk.get := fun a =>
    ((m.reorder order).control.visit_perm _).mem_iff
  unfold Commutes perform
  dsimp only
  cases run : Heap.collect (m.control.visit m.heap.stats.collections) m.heap with
  | ok k h =>
    have same : Heap.collect ((m.reorder order).control.visit m.heap.stats.collections) m.heap = .ok k h :=
      sturdy.shaped.tidy.collect_eq sturdy.start visits (sturdy.shaped.collect_visit m.rootThunk sturdy.start run)
    rw [show (m.reorder order).heap = m.heap from rfl, same]
    rfl
  | error e h =>
    obtain ⟨c, rfl⟩ := Heap.collect_crashes run
    exact absurd ⟨c, { m with heap := h }, by simp only [perform, run]⟩ sound

theorem Sturdy.perform_reorder (sturdy : m.Sturdy c P) (running : m.Running) (leads : c.Leads P)
    (sound : ¬ m.Crashes t) (order : Enumeration) : Commutes (reorder order) (perform t) m := by
  cases t with
  | collect => exact sturdy.collect_reorder sound order
  | step canceled =>
    change Machine.step canceled (m.reorder order) = after _ (Machine.step canceled m)
    cases m.attempt canceled with
    | failed failed _ step =>
      rw [step, step_of_failed (m := m.reorder order) failed]
      rfl
    | ended fine halted _ step =>
      rw [step, step_of_halted (m := m.reorder order) fine halted]
      rfl
    | stuck fine more next step =>
      rw [step, step_of_stuck (m := m.reorder order) fine more ((advance_reorder m order).trans next)]
      rfl
    | @executes i next _ =>
      have step : ∀ m' : Machine, m'.Executes i → Machine.step canceled m' =
          conclude m'.current.id m'.current.pc i.opcode ((Exec.instr i >>= fun _ => Exec.finish canceled) m'.begun) :=
        fun m' next => step_of_instr next.1 next.2.1 next.2.2
      rw [step m next, step (m.reorder order) ⟨next.1, next.2.1, (advance_reorder m order).trans next.2.2⟩]
      have treads := sturdy.treads running leads next
      have agrees : Agrees (reorder order) ((Exec.instr i >>= fun _ => Exec.finish canceled) m.begun)
          ((Exec.instr i >>= fun _ => Exec.finish canceled) (m.begun.reorder order)) :=
        .bind (treads.agrees order) fun _ m' _ => Exec.Regardless.agrees m' order
      refine agrees.conclude (f := fun c => { c with order }) fun e m' run => ?_
      exact sound ⟨e, m', (step m next).trans (congrArg _ run)⟩

end

theorem Sturdy.play_reorder {c : Code} {P : Int → Prop} {m : Machine} (sturdy : m.Sturdy c P) (running : m.Running)
    (leads : c.Leads P) {ts : List Turn} (sound : m.Along (fun m t => ¬ m.Crashes t) ts) (order : Enumeration) :
    (m.reorder order).play ts = (m.play ts).reorder order := by
  induction ts generalizing m with
  | nil => rfl
  | cons t ts ih =>
    obtain ⟨here, later⟩ := sound
    obtain ⟨sturdy', running'⟩ := (sturdy.course running leads t here).sturdy running
    have turn : (m.reorder order).turn t = (m.turn t).reorder order := by
      rw [turn_of_run (sturdy.perform_reorder running leads here order), Machine.turn]
      cases perform t m <;> rfl
    change ((m.reorder order).turn t).play ts = _
    rw [turn, ih sturdy' running' later]
    rfl

/-- A decoded program that assigns nothing to the outermost frame does not crash. -/
theorem Steady.sound {code : Code} {m : Machine} (steady : m.Steady code) (ts : List Turn) :
    m.Along (fun m t => ¬ m.Crashes t) ts := by
  induction ts generalizing m with
  | nil => trivial
  | cons t ts ih => exact ⟨steady.not_crashes t, ih (steady.turn t)⟩

/-- Machines that have been made alike, but for the order in which their collections visit fibers, stay so: as long
as the first does not crash, every turn has the same outcome and leaves the same behind. -/
theorem order_unobservable {size : Int} {code : Code} {options : Options} {clock : Clock} {sink : Sink}
    {order order' : Enumeration} {m m' : Machine} (made : Machine.create size code options clock sink order = .ok m)
    (made' : Machine.create size code options clock sink order' = .ok m') {ts : List Turn}
    (sound : m.Along (fun m t => ¬ m.Crashes t) ts) :
    m'.play ts = (m.play ts).reorder order' ∧ ∀ us t, us ++ [t] <+: ts →
      m'.play us = (m.play us).reorder order' ∧
        perform t (m'.play us) = after (reorder order') (perform t (m.play us)) := by
  obtain ⟨h, heap, rfl⟩ := create_eq made
  obtain ⟨h', heap', rfl⟩ := create_eq made'
  cases heap.symm.trans heap'
  obtain ⟨sturdy, running⟩ := create_sturdy code.leads_anywhere made
  refine ⟨sturdy.play_reorder running code.leads_anywhere sound order', fun us t before => ?_⟩
  obtain ⟨vs, rfl⟩ := before
  obtain ⟨earlier, here, -⟩ := along_append.1 (List.append_assoc us [t] vs ▸ sound)
  obtain ⟨sturdy', running'⟩ := sturdy.play running code.leads_anywhere (fun _ _ sound => sound) earlier
  have before := sturdy.play_reorder running code.leads_anywhere earlier order'
  refine ⟨before, ?_⟩
  exact before ▸ sturdy'.perform_reorder running' code.leads_anywhere here order'

/-- The fibers from the last to the first. -/
def lastFirst : Enumeration := ⟨fun _ _ fibers => fibers.reverse, fun _ _ fibers => fibers.reverse_perm⟩

theorem order_unobservable_relay : ∃ m m', Machine.create 336 (Code.ofInstrs Program.relayInstrs) {} = .ok m ∧
    Machine.create 336 (Code.ofInstrs Program.relayInstrs) {} {} .discard lastFirst = .ok m' ∧
    m.Along (fun m t => ¬ m.Crashes t) (Turn.relay ++ [.collect]) ∧
    m'.play (Turn.relay ++ [.collect]) = (m.play (Turn.relay ++ [.collect])).reorder lastFirst := by
  obtain ⟨m, made, -⟩ := Machine.play_relay
  have steady : m.Steady (Code.ofInstrs Program.relayInstrs) :=
    create_steady (p := Program.relay) rfl Program.relay_inner made
  have sound := steady.sound (Turn.relay ++ [.collect])
  exact ⟨m, _, made, rfl, sound, (order_unobservable made rfl sound).1⟩

end Machine

end FiberVm
