import FiberVm.Proofs.Heap.Initial
import FiberVm.Proofs.Machine.Footing
import FiberVm.Proofs.Machine.Outcome

/-!
# Turns of sturdy machines

A new machine is sturdy, and so is a machine after a turn that does not crash, whether it faults or not. A
turn either executes nothing, or it executes an instruction of the current fiber and lets the scheduler
decide who goes on, which leaves all fibers where they are, or it fails.
-/

set_option autoImplicit false

namespace FiberVm

open Heap (Shows Has IsAddress NodeIn Shaped Linked Grows Held Drift tagAt)

/-- All places of the code satisfy `P`, also as a call frame keeps them, and its instructions lead to such. -/
structure Code.Leads (c : Code) (P : Int → Prop) : Prop where
  inside : ∀ pc : Int, 0 ≤ pc → pc ≤ c.size → P pc
  wraps : ∀ pc : Int, 0 ≤ pc → pc ≤ c.size → P (UInt32.ofInt pc).toNat
  lands : ∀ i, some i ∈ c.toList → i.Lands P

/-- Short code comes back from a call to where it was. -/
theorem Code.Leads.of_small {c : Code} {P : Int → Prop} (small : c.size < UInt32.size)
    (inside : ∀ pc : Int, 0 ≤ pc → pc ≤ c.size → P pc) (lands : ∀ i, some i ∈ c.toList → i.Lands P) : c.Leads P := by
  refine ⟨inside, fun pc nonneg le => ?_, lands⟩
  rw [toNat_ofInt_of_lt nonneg (by omega)]
  exact inside pc nonneg le

theorem Code.leads_anywhere (c : Code) : c.Leads fun _ => True :=
  ⟨fun _ _ _ => trivial, fun _ _ _ => trivial, fun i _ => by cases i <;> trivial⟩

section New

variable {P : Int → Prop} {size : Int} {h : Heap}

theorem Heap.create_shaped (made : Heap.create size = .ok h) : h.Shaped P := by
  obtain ⟨init, -⟩ := Heap.create_initial made
  refine ⟨Heap.create_sound made, fun a node used => ?_⟩
  have aligned : a.toNat % 16 = 0 := node.1
  have low : a < Heap.bottom := by
    refine UInt32.not_le.1 fun high => used ?_
    rw [tagAt, init.header node high, byte_freeWord _ (by decide)]
    rfl
  have below : a.toNat < 256 := by rwa [UInt32.lt_iff_toNat_lt, Heap.bottom_toNat] at low
  have reserved : ∀ {x : Addr}, x.toNat % 16 = 0 → x < Heap.bottom → IsAddress h.words x := fun aligned low =>
    .inr (init.sized.nodeIn_low aligned low)
  by_cases value : a < Heap.builtinsFrame
  · refine ⟨_, init.shows_value aligned value, ?_⟩
    rw [Heap.reservedValue]
    split
    · exact .of_plain rfl rfl (List.forall_mem_nil _)
    · exact .of_plain rfl rfl (List.forall_mem_nil _)
  have last : a = Heap.builtinsFrame ∨ a = Heap.globalEnv := by
    rw [UInt32.lt_iff_toNat_lt, show Heap.builtinsFrame.toNat = 224 from rfl] at value
    have place : a.toNat = 224 ∨ a.toNat = 240 := by omega
    exact place.imp (fun eq => UInt32.toNat.inj eq) fun eq => UInt32.toNat.inj eq
  rcases last with rfl | rfl
  · refine ⟨_, init.shows_frame, .of_plain rfl rfl fun x mem => ?_⟩
    obtain ⟨aligned, low⟩ := Heap.mem_builtinSlots mem
    exact reserved aligned (UInt32.lt_trans low (by decide))
  · refine ⟨_, init.shows_env, fun x mem => ?_, fun _ x mem => ?_, fun x mem => ?_, List.forall_mem_nil _⟩
    · rw [List.mem_singleton.1 mem]
      exact init.shows_frame.has
    · rw [List.mem_singleton.1 mem]
      decide
    · rw [List.mem_singleton.1 mem]
      exact reserved (by decide) (by decide)

theorem Machine.create_sturdy {code : Code} {options : Options} {clock : Clock} {sink : Sink} {order : Enumeration}
    {m : Machine} (leads : code.Leads P) (made : Machine.create size code options clock sink order = .ok m) :
    m.Sturdy code P ∧ m.Running := by
  obtain ⟨h, heap, rfl⟩ := Machine.create_eq made
  obtain ⟨init, -⟩ := Heap.create_initial heap
  have typed : ∀ {a r}, Reserved a r → Heap.typing h.words a r := by
    intro a r res
    cases r with
    | value => exact .inr (init.sized.nodeIn_low res.1 (UInt32.lt_trans res.2 (by decide)))
    | frame =>
      obtain rfl := res
      exact .inr init.shows_frame.node
    | environment =>
      obtain rfl := res
      exact init.shows_env.has
    | _ => exact res.elim
  refine ⟨⟨rfl, Heap.create_shaped heap, ?_, ?_, ?_, nofun⟩, fun _ _ => rfl⟩
  · exact (Scheduler.create_fit _ _ _).mono fun _ _ _ => typed
  · intro f mem
    obtain rfl := List.mem_singleton.1 mem
    exact leads.inside 0 (Int.le_refl 0) (Int.natCast_nonneg _)
  · rw [Heap.create_pinned heap]
    nofun

end New

theorem Scheduler.Continues.contexts {s s' : Scheduler} (continues : s.Continues s') :
    (s'.live.map Fiber.context).Perm (s.live.map Fiber.context) := by
  have perm := continues.fibers.map Fiber.context
  rw [List.map_map, List.map_map] at perm
  exact perm

namespace Machine

/-- What a turn does that does not crash. -/
inductive Course (c : Code) (P : Int → Prop) (m : Machine) : Turn → Machine → Prop
  /-- Nothing is executed. -/
  | rests {t : Turn} {m' : Machine} : m'.Sturdy c P → m'.control = m.control → m.Keeps m' →
    (∀ canceled i, t = .step canceled → ¬ m.Executes i) → Drift [] m.heap m'.heap → Course c P m t m'
  | goes {canceled : Bool} {i : Instr} {m₁ m' : Machine} : m.Executes i → Exec.instr i m.begun = .ok () m₁ →
    m.begun.Passes c P i m₁ → m₁.Goes canceled m' → Course c P m (.step canceled) m'
  | fails {t : Turn} {m' : Machine} {f : Fault} : m'.Sturdy c P → m'.control.failed = some f →
    perform t m = .error (.fault f) m' → Course c P m t m'

section Turns

variable {c : Code} {P : Int → Prop} {m m' : Machine} {t : Turn} {i : Instr} {a : Addr}

theorem Executes.range (next : m.Executes i) : 0 ≤ m.current.pc ∧ m.current.pc < m.control.code.size := by
  have fetched := fetch_of_advance next.2.2
  unfold Control.fetch at fetched
  dsimp only at fetched
  split at fetched
  · cases fetched
  · next inside => exact ⟨Int.not_lt.1 fun low => inside (.inl low), Int.not_le.1 fun high => inside (.inr high)⟩

theorem mem_activations : a ∈ m.activations ↔ ∃ f ∈ m.fibers, a ∈ f.frames := by
  simp [activations, contexts, Fiber.context]

theorem activation_root (mem : a ∈ m.activations) : a ∈ m.control.roots := by
  obtain ⟨f, live, frame⟩ := mem_activations.1 mem
  exact List.mem_append_left _ (List.mem_flatMap.2 ⟨f, live, List.mem_cons_of_mem _ (List.mem_append_right _ frame)⟩)

theorem Keeps.of_heap (same : m'.heap = m.heap) : m.Keeps m' := fun _ _ s _ _ _ => same ▸ s

/-- Counters, faults and output do not matter. -/
theorem Sturdy.congr (sturdy : m.Sturdy c P) (heap : m'.heap = m.heap) (code : m'.control.code = m.control.code)
    (sched : m'.control.sched = m.control.sched) (result : m'.control.result = m.control.result) : m'.Sturdy c P := by
  obtain ⟨executes, shaped, fit, counters, pins, value⟩ := sturdy
  refine ⟨code.trans executes, ?_, ?_, ?_, ?_, ?_⟩
  · rwa [heap]
  · rwa [heap, sched]
  · rwa [sched]
  · rwa [heap]
  · rwa [heap, result]

theorem Sturdy.begun (sturdy : m.Sturdy c P) (leads : c.Leads P) (next : m.Executes i) : m.begun.Sturdy c P := by
  have range := next.range
  rw [sturdy.code] at range
  refine ⟨sturdy.code, sturdy.shaped, ?_, fun f mem => ?_, sturdy.pins, sturdy.result⟩
  · refine sturdy.fit.of_current rfl rfl rfl rfl rfl fun alive => ?_
    obtain ⟨env, operands, frames⟩ := sturdy.fit.typed.current alive
    exact ⟨env, operands, frames⟩
  · rcases Scheduler.mem_live.1 mem with ⟨rfl, -⟩ | other
    · exact leads.inside (m.current.pc + 1) (by omega) (by omega)
    · exact sturdy.counters f (Scheduler.mem_live.2 (.inr other))

theorem Sturdy.resume (sturdy : m.Sturdy c P) {s : Scheduler} (fit : s.Fit (Heap.typing m.heap.words))
    (continues : m.control.sched.Continues s) : (m.withSched s).Sturdy c P := by
  refine ⟨sturdy.code, sturdy.shaped, fit, fun f mem => ?_, sturdy.pins, sturdy.result⟩
  obtain ⟨g, live, same⟩ := List.mem_map.1 (continues.contexts.mem_iff.1 (List.mem_map_of_mem mem))
  have pc : g.pc = f.pc := congrArg Context.pc same
  exact pc ▸ sturdy.counters g live

theorem Goes.sturdy {canceled : Bool} (goes : m.Goes canceled m') (sturdy : m.Sturdy c P) :
    m'.Sturdy c P ∧ m'.Running ∧ m'.contexts.Perm m.contexts ∧
      m'.control.sched.nextId = m.control.sched.nextId := by
  cases goes with
  | halts ended => exact ⟨sturdy, fun _ more => absurd more ended, .refl _, rfl⟩
  | resumes _ run =>
    have decided := sturdy.fit.reschedule canceled
    have continues : m.control.sched.Resumes (m.control.sched.reschedule canceled) :=
      sturdy.fit.cons.reschedule_resumes
    rw [run] at decided continues
    exact ⟨sturdy.resume decided.1 continues, fun _ _ => decided.2, Scheduler.Continues.contexts continues,
      Scheduler.Continues.nextId continues⟩

theorem Goes.current_running {canceled : Bool} (goes : m.Goes canceled m') (sturdy : m.Sturdy c P)
    (going : m'.control.result = none) : m'.current.state = .running := by
  cases goes with
  | halts ended => exact absurd going ended
  | resumes _ run =>
    have decided := sturdy.fit.reschedule canceled
    rw [run] at decided
    exact decided.2

theorem Sturdy.treads (sturdy : m.Sturdy c P) (running : m.Running) (leads : c.Leads P) (next : m.Executes i) :
    Treads c P (fun _ m' => m.begun.Passes c P i m') (Exec.instr i) m.begun := by
  have range := next.range
  rw [sturdy.code] at range
  have place : 0 < m.current.pc + 1 ∧ m.current.pc + 1 ≤ c.size := by omega
  exact (sturdy.begun leads next).instr (running next.1 next.2.1) leads.inside
    (leads.wraps (m.current.pc + 1) (Int.le_of_lt place.1) place.2) place (leads.lands i (sturdy.code ▸ next.mem_code))

theorem Sturdy.executed (sturdy : m.Sturdy c P) (running : m.Running) (leads : c.Leads P) (next : m.Executes i)
    {canceled : Bool} (sound : ¬ m.Crashes (.step canceled)) :
    m.Course c P (.step canceled) (m.turn (.step canceled)) := by
  have treads := (sturdy.treads running leads next).yields
  cases next.ends canceled with
  | crashes _ step => exact absurd ⟨_, _, step⟩ sound
  | faults run step =>
    rw [run] at treads
    rw [turn_of_run step]
    exact .fails (Sturdy.congr treads rfl rfl rfl rfl) rfl step
  | goes run goes step =>
    rw [run] at treads
    rw [turn_of_run step]
    exact .goes next run treads goes
  | @stalls _ m₁ _ run _ decided step =>
    rw [run] at treads
    have passes : m.begun.Passes c P i m₁ := treads
    have fit := passes.sturdy.fit.reschedule canceled
    rw [decided] at fit
    rw [turn_of_run step]
    have continues := passes.sturdy.fit.cons.continues_of_error decided
    exact .fails (Sturdy.congr (passes.sturdy.resume fit continues) rfl rfl rfl rfl) rfl step

/-- What a turn does, if it does not crash. -/
theorem Sturdy.course (sturdy : m.Sturdy c P) (running : m.Running) (leads : c.Leads P) (t : Turn)
    (sound : ¬ m.Crashes t) : m.Course c P t (m.turn t) := by
  cases t with
  | collect =>
    cases run : Heap.collect (m.control.visit m.heap.stats.collections) m.heap with
    | ok n h =>
      have plain := sturdy.shaped.collect_visit m.rootThunk sturdy.start run
      have grows := sturdy.shaped.collect sturdy.start plain
      obtain ⟨_, collected⟩ := sturdy.shaped.collected sturdy.start plain
      rw [turn_of_run (perform_collect run)]
      refine .rests (sturdy.grow grows) rfl (fun a n s _ before _ => ?_) nofun collected.drift
      exact grows.shows s (.inr (List.mem_append_left _ (activation_root before)))
    | error e h =>
      obtain ⟨x, rfl⟩ := Heap.collect_crashes run
      refine absurd ⟨x, { m with heap := h }, ?_⟩ sound
      simp only [perform, run]
  | step canceled =>
    have idle : ∀ {e}, Machine.step canceled m = .error e m → (∀ i, ¬ m.Executes i) →
        m.Course c P (.step canceled) (m.turn (.step canceled)) := by
      intro e run none
      rw [turn_of_run (t := .step canceled) run]
      exact .rests sturdy rfl (.of_heap rfl) (fun _ i _ => none i) (.refl _)
    cases m.attempt canceled with
    | failed _ none step => exact idle step none
    | ended _ _ none step => exact idle step none
    | executes next => exact sturdy.executed running leads next sound
    | stuck _ _ _ step =>
      have stuck : perform (.step canceled) m = _ := step
      rw [turn_of_run stuck]
      exact .fails (sturdy.congr rfl rfl rfl rfl) rfl stuck

theorem Course.sturdy (course : m.Course c P t m') (running : m.Running) : m'.Sturdy c P ∧ m'.Running := by
  cases course with
  | rests sturdy control =>
    refine ⟨sturdy, ?_⟩
    rw [Running, control]
    exact running
  | goes _ _ passes goes =>
    obtain ⟨sturdy, running, -⟩ := goes.sturdy passes.sturdy
    exact ⟨sturdy, running⟩
  | fails sturdy failed => exact ⟨sturdy, .of_failed failed⟩

end Turns

/-- `A` holds of every turn. -/
def Along (A : Machine → Turn → Prop) (m : Machine) : List Turn → Prop
  | [] => True
  | t :: ts => A m t ∧ Along A (m.turn t) ts

theorem along_append {A : Machine → Turn → Prop} {m : Machine} {ts us : List Turn} :
    m.Along A (ts ++ us) ↔ m.Along A ts ∧ (m.play ts).Along A us := by
  induction ts generalizing m with
  | nil => simp [Along, play]
  | cons t ts ih => exact (and_congr_right fun _ => ih).trans and_assoc.symm

theorem Sturdy.play {c : Code} {P : Int → Prop} {m : Machine} {A : Machine → Turn → Prop} (sturdy : m.Sturdy c P)
    (running : m.Running) (leads : c.Leads P) (sound : ∀ m t, A m t → ¬ m.Crashes t) {ts : List Turn}
    (along : m.Along A ts) : (m.play ts).Sturdy c P ∧ (m.play ts).Running := by
  induction ts generalizing m with
  | nil => exact ⟨sturdy, running⟩
  | cons t ts ih =>
    obtain ⟨sturdy', running'⟩ := (sturdy.course running leads t (sound m t along.1)).sturdy running
    exact ih sturdy' running' along.2

end Machine

end FiberVm
