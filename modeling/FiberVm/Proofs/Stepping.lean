import FiberVm.Proofs.Debugger
import FiberVm.Proofs.Machine.CallReturn

/-!
# Stepping over a call and out of one

A debugger that steps over a call looks for its fiber behind the call, with a runtime stack that is no higher. One
that steps out looks for it with fewer calls on its stack. Both look at the current fiber only, and that is enough:
the frame of a call stays where it is until the fiber itself takes it off, and a fiber that is not current stays
where it is.
-/

set_option autoImplicit false

namespace FiberVm

open Heap (Shows Has tagAt)

namespace Machine

/-- The frame `a` of a call is on the runtime stack of a fiber, or the fiber has gone back to where the frame says. -/
def Returning (m : Machine) (a : Addr) (k : Context) : Prop :=
  (∃ pc : Nat, k.pc = pc ∧ m.Guards k.id a (.callframe pc k.env) k.frames) ∨ k ∈ m.contexts

/-- The frames below that of the call, which are what they were in `m₀`, stay too. -/
structure Leaving (m₀ m : Machine) (a : Addr) (k : Context) : Prop where
  returning : m.Returning a k
  below : ∀ l x rest n, k.frames = l ++ x :: rest → n.IsActivation → Shows m₀.heap.words x n → m.Guards k.id x n rest

section Turns

variable {c : Code} {P : Int → Prop} {m₀ m m' : Machine} {t : Turn} {a : Addr} {k : Context}

theorem Course.waits (course : m.Course c P t m') (smooth : m.Smooth t) (mem : k ∈ m.contexts)
    (other : m.current.id ≠ k.id) : k ∈ m'.contexts := by
  cases course with
  | rests _ control =>
    rw [contexts, fibers, control]
    exact mem
  | fails _ _ failed =>
    rw [Smooth, failed] at smooth
    cases smooth
  | @goes _ i m₁ _ _ _ passes goes =>
    obtain ⟨f, live, rfl⟩ := List.mem_map.1 mem
    have table : f ∈ m.control.sched.others :=
      (Scheduler.mem_live.1 live).resolve_left fun own => other (congrArg Fiber.id own.1.symm)
    have kept : f.context ∈ m.begun.control.sched.others.map Fiber.context := List.mem_map_of_mem table
    obtain ⟨-, -, perm, -⟩ := goes.sturdy passes.sturdy
    refine perm.mem_iff.2 ?_
    cases passes.advances with
    | goes _ new _ _ _ after => exact after.mem_iff.2 (List.mem_cons_of_mem _ (List.mem_append_right new kept))
    | ends _ after => exact after.mem_iff.2 kept

theorem Sturdy.current_context (sturdy : m.Sturdy c P) (mem : k ∈ m.contexts) (own : m.current.id = k.id) :
    m.current.context = k := by
  obtain ⟨f, live, rfl⟩ := List.mem_map.1 mem
  rcases Scheduler.mem_live.1 live with ⟨rfl, -⟩ | other
  · rfl
  · exact absurd own.symm (sturdy.fit.cons.apart f other)

/-- Where the fiber is until it has returned, and then. -/
theorem Returning.cases (returning : m.Returning a k) (sturdy : m.Sturdy c P) {x : Context} (mem : x ∈ m.contexts)
    (own : x.id = k.id) :
    (Has m.heap.words a .callframe ∧ ∃ above, x.frames = above ++ a :: k.frames) ∨ x = k := by
  rcases returning with ⟨pc, -, guards⟩ | there
  · obtain ⟨s, above⟩ := guards.under x mem own
    exact .inl ⟨s.has, above⟩
  · exact .inr (sturdy.eq_of_id there mem own)

theorem Returning.high (returning : m.Returning a k) (sturdy : m.Sturdy c P) {x : Context} (mem : x ∈ m.contexts)
    (own : x.id = k.id) : k.frames.length ≤ x.frames.length := by
  rcases returning.cases sturdy mem own with ⟨-, above, frames⟩ | rfl
  · rw [frames, List.length_append, List.length_cons]
    omega
  · exact Nat.le_refl _

theorem Returning.turn (returning : m.Returning a k) (away : k ∈ m.contexts → m.current.id ≠ k.id)
    (running : m.Running) (smooth : m.Smooth t) (course : m.Course c P t m') : m'.Returning a k := by
  rcases returning with ⟨pc, place, guards⟩ | there
  · rcases guards.course (.inl rfl) running smooth course with guards | ⟨i, -, x, mem, own, departs⟩
    · exact .inl ⟨pc, place, guards⟩
    · obtain ⟨frames, counter, env⟩ := departs.call pc k.env rfl
      have counter := counter.trans place.symm
      have same : x = k := by
        cases x
        cases k
        cases own
        cases frames
        cases counter
        cases env
        rfl
      exact .inr (same ▸ mem)
  · exact .inr (course.waits smooth there (away there))

/-- What one turn preserves. A frame further down is not taken off, for that would leave less than the call does. -/
theorem Leaving.turn (leaving : Leaving m₀ m a k) (away : k ∈ m.contexts → m.current.id ≠ k.id)
    (running : m.Running) (smooth : m.Smooth t) (course : m.Course c P t m') : Leaving m₀ m' a k := by
  have returning := leaving.returning.turn away running smooth course
  refine ⟨returning, fun l x rest n split activation s => ?_⟩
  refine ((leaving.below l x rest n split activation s).course activation running smooth course).resolve_right ?_
  rintro ⟨i, -, y, mem, own, departs⟩
  have high := returning.high (course.sturdy running).1 mem own
  have low := departs.length
  rw [split, List.length_append, List.length_cons] at high
  omega

theorem Sturdy.leaving (sturdy : m.Sturdy c P) (returning : m.Returning a k) {x : Context} (mem : x ∈ m.contexts)
    (own : x.id = k.id) {above : List Addr} (frames : x.frames = above ++ k.frames) : Leaving m m a k := by
  refine ⟨returning, fun l y rest n split activation s => ?_⟩
  rw [split, ← List.append_assoc] at frames
  exact own ▸ sturdy.guards mem frames s

end Turns

/-- So many steps go well. -/
def Strides (m : Machine) (n : Nat) : Prop := ∀ k < n, step false (m.walk k) = .ok () (m.walk (k + 1))

theorem walk_succ (m : Machine) (k : Nat) : m.walk (k + 1) = (m.walk k).turn (.step false) := by
  rw [walk_add, walk_one]

theorem walk_walk_one (m : Machine) (k : Nat) : (m.walk 1).walk k = m.walk (k + 1) := by
  rw [← walk_add, Nat.add_comm]

section Walks

variable {c : Code} {P : Int → Prop} {m : Machine} {n : Nat} {a : Addr} {k : Context}

theorem Strides.smooth (strides : m.Strides n) {j : Nat} (below : j < n) : (m.walk j).Smooth (.step false) := by
  rw [Smooth, show perform (.step false) (m.walk j) = .ok () (m.walk (j + 1)) from strides j below]
  trivial

theorem Strides.tail (strides : m.Strides (n + 1)) : (m.walk 1).Strides n := fun j below => by
  rw [walk_walk_one, walk_walk_one]
  exact strides (j + 1) (Nat.succ_lt_succ below)

variable (sturdy : m.Sturdy c P) (running : m.Running) (leads : c.Leads P) (strides : m.Strides n)

include sturdy running leads strides

theorem Sturdy.walk {j : Nat} (le : j ≤ n) : (m.walk j).Sturdy c P ∧ (m.walk j).Running := by
  induction j with
  | zero => exact ⟨sturdy, running⟩
  | succ j ih =>
    obtain ⟨sturdy', running'⟩ := ih (Nat.le_of_succ_le le)
    rw [walk_succ]
    exact sturdy'.turn running' leads (strides.smooth le)

theorem Sturdy.walk_course {j : Nat} (below : j < n) : (m.walk j).Course c P (.step false) (m.walk (j + 1)) := by
  obtain ⟨sturdy', running'⟩ := sturdy.walk running leads strides (Nat.le_of_lt below)
  rw [walk_succ]
  exact sturdy'.course running' leads (.step false) (strides.smooth below).not_crashes

theorem Sturdy.walk_alive {j : Nat} (below : j < n) (going : (m.walk (j + 1)).control.result = none) :
    (m.walk (j + 1)).current ∈ (m.walk (j + 1)).fibers := by
  have course := sturdy.walk_course running leads strides below
  obtain ⟨i, next⟩ := executes_of_step (strides j below)
  refine Scheduler.mem_live.2 (.inl ⟨rfl, ?_⟩)
  generalize m.walk (j + 1) = m' at course going
  cases course with
  | rests _ _ _ none => exact absurd next (none false i rfl)
  | goes _ _ passes goes =>
    have runs : m'.control.sched.current.state = .running := goes.current_running passes.sturdy going
    rw [runs]
    decide
  | fails _ _ failed => cases (strides j below).symm.trans failed

theorem Leaving.walk {m₀ : Machine} (start : Leaving m₀ m a k)
    (away : ∀ j < n, Leaving m₀ (m.walk j) a k → k ∈ (m.walk j).contexts → (m.walk j).current.id ≠ k.id) {j : Nat}
    (le : j ≤ n) : Leaving m₀ (m.walk j) a k := by
  induction j with
  | zero => exact start
  | succ j ih =>
    have here := ih (Nat.le_of_succ_le le)
    obtain ⟨-, running'⟩ := sturdy.walk running leads strides (Nat.le_of_succ_le le)
    exact here.turn (away j le here) running' (strides.smooth le) (sturdy.walk_course running leads strides le)

theorem Sturdy.waits {i j : Nat} (there : k ∈ (m.walk i).contexts)
    (away : ∀ j < n, k ∈ (m.walk j).contexts → (m.walk j).current.id ≠ k.id) (later : i ≤ j) (le : j ≤ n) :
    k ∈ (m.walk j).contexts := by
  induction j, later using Nat.le_induction with
  | base => exact there
  | succ j _ ih =>
    have here := ih (Nat.le_of_succ_le le)
    exact (sturdy.walk_course running leads strides le).waits (strides.smooth le) here (away j le here)

end Walks

/-- In `n` steps the current fiber comes back from the call that it was about to make. The call has returned after
`r` of them, and none of the others are made by that fiber. -/
structure ComesBack (m : Machine) (r n : Nat) : Prop where
  pos : 0 < r
  le : r ≤ n
  /-- Until the call returns the runtime stack is higher. -/
  inside : ∀ j, 0 < j → j < r → ∀ f ∈ (m.walk j).fibers, f.id = m.current.id →
    m.current.frames.length < f.frames.length
  returned : (m.walk r).Stacked m.current.id m.current.frames
  waits : ∀ j, r ≤ j → j < n → (m.walk j).current.id ≠ m.current.id
  first : ∀ j, 0 < j → j < n → (m.walk j).current.id = m.current.id →
    m.current.frames.length < (m.walk j).current.frames.length
  current : (m.walk n).current.id = m.current.id
  frames : (m.walk n).current.frames = m.current.frames
  pc : (m.walk n).current.pc = m.current.pc + 1

/-- After `n` steps, and not before, the current fiber is current again and has left the call with the frame `a`. -/
structure ComesOut (m : Machine) (a : Addr) (rest : List Addr) (n : Nat) : Prop where
  pos : 0 < n
  /-- Whenever the fiber is current before, the frame is where it was. -/
  inside : ∀ j < n, (m.walk j).current.id = m.current.id → ∃ above, (m.walk j).current.frames = above ++ a :: rest
  current : (m.walk n).current.id = m.current.id
  frames : (m.walk n).current.frames = rest
  pc : Heap.callframePc a m.heap = .ok (m.walk n).current.pc m.heap
  env : Heap.callframeEnv a m.heap = .ok (m.walk n).current.env m.heap

section Returns

variable {c : Code} {P : Int → Prop} {m : Machine} {n : Nat}

/-- Where a call returns to. -/
def behind (m : Machine) : Context := ⟨m.current.id, m.current.pc + 1, m.current.env, m.current.frames⟩

/-- A call of a closure leaves a frame, and one of a builtin has returned at once. -/
theorem Sturdy.calls (sturdy : m.Sturdy c P) (running : m.Running) (leads : c.Leads P) {arity : Int}
    (next : m.Executes (.call arity)) (small : m.current.pc + 1 < UInt32.size) (strides : m.Strides (n + 1)) :
    ∃ a, Leaving (m.walk 1) (m.walk 1) a m.behind := by
  obtain ⟨sturdy₁, -⟩ := sturdy.walk running leads strides (Nat.le_add_left 1 n)
  obtain ⟨⟨x, mem, own, footing⟩, -⟩ := sturdy.footing running leads next nofun (strides.smooth (Nat.succ_pos n))
  by_cases calls : m.begun.CallsClosure arity
  · obtain ⟨a, frames, s⟩ := footing.1 calls
    have frames : x.frames = [a] ++ m.current.frames := frames
    have place : ((UInt32.ofInt (m.current.pc + 1)).toNat : Int) = m.current.pc + 1 :=
      toNat_ofInt_of_lt (Int.le_trans next.range.1 (Int.le_add_one (Int.le_refl _))) small
    have guards := sturdy₁.guards mem (frames.trans (List.nil_append _).symm) s
    rw [own] at guards
    exact ⟨a, sturdy₁.leaving (.inl ⟨_, place.symm, guards⟩) mem own frames⟩
  · obtain rfl : x = m.behind := footing.2 calls
    exact ⟨0, sturdy₁.leaving (.inr mem) mem rfl (List.nil_append _).symm⟩

/-- The first time that the fiber is current behind the call with a stack that is no higher, it has come back. -/
theorem Sturdy.comesBack (sturdy : m.Sturdy c P) (running : m.Running) (leads : c.Leads P) {arity : Int}
    (next : m.Executes (.call arity)) (small : m.current.pc + 1 < UInt32.size) (strides : m.Strides (n + 1))
    (going : (m.walk (n + 1)).control.result = none) (current : (m.walk (n + 1)).current.id = m.current.id)
    (low : (m.walk (n + 1)).current.frames.length ≤ m.current.frames.length)
    (first : ∀ j < n, (m.walk (j + 1)).current.id = m.current.id → (m.walk (j + 1)).current.pc = m.current.pc + 1 →
      ¬ (m.walk (j + 1)).current.frames.length ≤ m.current.frames.length) : ∃ r, m.ComesBack r (n + 1) := by
  obtain ⟨a, start⟩ := sturdy.calls running leads next small strides
  obtain ⟨sturdy₁, running₁⟩ := sturdy.walk running leads strides (Nat.le_add_left 1 n)
  have away : ∀ j < n, m.behind ∈ ((m.walk 1).walk j).contexts → ((m.walk 1).walk j).current.id ≠ m.behind.id := by
    intro j below there own
    have here := (sturdy₁.walk running₁ leads strides.tail (Nat.le_of_lt below)).1.current_context there own
    rw [walk_walk_one] at here own
    refine first j below own (congrArg Context.pc here) (Nat.le_of_eq ?_)
    exact congrArg (fun k : Context => k.frames.length) here
  have placed : ∀ j ≤ n, ∀ f ∈ (m.walk (j + 1)).fibers, f.id = m.current.id →
      (∃ above, f.frames = above ++ a :: m.current.frames) ∨ f.context = m.behind := by
    intro j le f live own
    have leaving := start.walk sturdy₁ running₁ leads strides.tail (fun j below _ => away j below) le
    rw [walk_walk_one] at leaving
    exact (leaving.returning.cases (sturdy.walk running leads strides (Nat.succ_le_succ le)).1
      (List.mem_map_of_mem live) own).imp_left And.right
  have higher : ∀ {f : Fiber}, (∃ above, f.frames = above ++ a :: m.current.frames) →
      m.current.frames.length < f.frames.length := by
    rintro f ⟨above, frames⟩
    rw [frames, List.length_append, List.length_cons]
    omega
  have alive := sturdy.walk_alive running leads strides n.lt_succ_self going
  have last : (m.walk (n + 1)).current.context = m.behind :=
    (placed n (Nat.le_refl n) _ alive current).resolve_left fun above => Nat.not_le.2 (higher above) low
  -- The call has returned when the fiber is behind it for the first time, which may be before it is current again.
  have back : ∃ j, m.behind ∈ (m.walk (j + 1)).contexts := ⟨n, last ▸ List.mem_map_of_mem alive⟩
  classical
  have le : Nat.find back ≤ n := Nat.find_min' back (last ▸ List.mem_map_of_mem alive)
  refine ⟨Nat.find back + 1, Nat.succ_pos _, Nat.succ_le_succ le, fun j pos below f live own => ?_,
    stacked_of_mem (Nat.find_spec back), fun j ge below own => ?_, fun j pos below own => ?_, current,
    congrArg Context.frames last, congrArg Context.pc last⟩
  · obtain ⟨j, rfl⟩ := Nat.exists_eq_succ_of_ne_zero (Nat.pos_iff_ne_zero.1 pos)
    have below : j < Nat.find back := Nat.lt_of_succ_lt_succ below
    refine higher ((placed j (Nat.le_trans (Nat.le_of_lt below) le) f live own).resolve_right fun same => ?_)
    exact Nat.find_min back below (same ▸ List.mem_map_of_mem live)
  · obtain ⟨j, rfl⟩ := Nat.exists_eq_succ_of_ne_zero (Nat.pos_iff_ne_zero.1 (Nat.lt_of_lt_of_le (Nat.succ_pos _) ge))
    have below : j < n := Nat.lt_of_succ_lt_succ below
    have there := Nat.find_spec back
    rw [← walk_walk_one] at own there
    exact away j below (sturdy₁.waits running₁ leads strides.tail there away (Nat.le_of_succ_le_succ ge)
      (Nat.le_of_lt below)) own
  · obtain ⟨j, rfl⟩ := Nat.exists_eq_succ_of_ne_zero (Nat.pos_iff_ne_zero.1 pos)
    obtain ⟨i, more⟩ := executes_of_step (strides (j + 1) below)
    have live := sturdy.walk_alive running leads strides (Nat.lt_of_succ_lt below) more.2.1
    refine higher ((placed j (Nat.le_of_lt (Nat.lt_of_succ_lt_succ below)) _ live own).resolve_right fun here => ?_)
    have there : m.behind ∈ (m.walk (j + 1)).contexts := here ▸ List.mem_map_of_mem live
    rw [← walk_walk_one] at own there
    exact away j (Nat.lt_of_succ_lt_succ below) there own

end Returns

end Machine

namespace Debugger

open Machine

section Depth

variable {h h' : Heap} {frames frames' : List Addr}

theorem callDepth_eq (h : Heap) (frames : List Addr) :
    callDepth h frames = frames.countP fun a => decide (tagAt h.words a = .callframe) := by
  refine List.countP_congr fun a _ => ?_
  rw [beq_iff_eq, decide_eq_true_iff]
  exact ⟨fun same => congrArg Tag.mk same, fun same => congrArg Tag.number same⟩

theorem callDepth_append : callDepth h (frames ++ frames') = callDepth h frames + callDepth h frames' :=
  List.countP_append

theorem callDepth_call {a : Addr} (call : Has h.words a .callframe) :
    callDepth h (a :: frames) = callDepth h frames + 1 := by
  rw [callDepth_eq, callDepth_eq, List.countP_cons_of_pos (by simpa using call.2)]

theorem callDepth_blocks (none : ∀ a ∈ frames, tagAt h.words a ≠ .callframe) : callDepth h frames = 0 := by
  rw [callDepth_eq]
  exact List.countP_eq_zero.2 fun a mem => by simpa using none a mem

/-- The blocks above the topmost call do not count. -/
theorem callDepth_topmost {blocks rest : List Addr} {a : Addr} (none : ∀ b ∈ blocks, tagAt h.words b ≠ .callframe)
    (call : Has h.words a .callframe) : callDepth h (blocks ++ a :: rest) = callDepth h rest + 1 := by
  rw [callDepth_append, callDepth_call call, callDepth_blocks none, Nat.zero_add]

theorem callDepth_congr (same : ∀ a ∈ frames, tagAt h'.words a = tagAt h.words a) :
    callDepth h' frames = callDepth h frames := by
  rw [callDepth_eq, callDepth_eq]
  refine List.countP_congr fun a mem => ?_
  rw [same a mem]

end Depth

end Debugger

namespace Machine

open Debugger (callDepth)

section Returns

variable {c : Code} {P : Int → Prop} {m₀ m : Machine} {n : Nat} {a : Addr} {k : Context} {blocks rest : List Addr}

/-- The frames below the call are calls and blocks as they were. -/
theorem Leaving.depth (leaving : Leaving m₀ m a k) (below : ∀ x ∈ k.frames, ∃ n, Shows m₀.heap.words x n ∧ n.IsActivation)
    {x : Context} (mem : x ∈ m.contexts) (own : x.id = k.id) :
    callDepth m.heap k.frames = callDepth m₀.heap k.frames := by
  refine Debugger.callDepth_congr fun y inside => ?_
  obtain ⟨l, rest, split⟩ := List.append_of_mem inside
  obtain ⟨n, s, activation⟩ := below y inside
  rw [s.tagAt]
  exact ((leaving.below l y rest n split activation s).under x mem own).1.tagAt

/-- The first time that the fiber is current with fewer calls on its stack, it has come out of the topmost. -/
theorem Sturdy.comesOut (sturdy : m.Sturdy c P) (running : m.Running) (leads : c.Leads P)
    (alive : m.current.state ≠ .terminated) (frames : m.current.frames = blocks ++ a :: rest)
    (none : ∀ b ∈ blocks, ¬ Has m.heap.words b .callframe) (call : Has m.heap.words a .callframe)
    (strides : m.Strides (n + 1)) (going : (m.walk (n + 1)).control.result = Option.none)
    (current : (m.walk (n + 1)).current.id = m.current.id)
    (fewer : callDepth (m.walk (n + 1)).heap (m.walk (n + 1)).current.frames < callDepth m.heap m.current.frames)
    (first : ∀ j < n, (m.walk (j + 1)).current.id = m.current.id →
      ¬ callDepth (m.walk (j + 1)).heap (m.walk (j + 1)).current.frames < callDepth m.heap m.current.frames) :
    m.ComesOut a rest (n + 1) := by
  have mem := context_mem alive
  have activations : ∀ x ∈ m.current.frames, ∃ n, Shows m.heap.words x n ∧ n.IsActivation := fun x =>
    (sturdy.poised alive .nop).activation
  rw [frames] at activations
  obtain ⟨node, s, -, tag⟩ := sturdy.shaped.has call nofun
  obtain ⟨pc, env, rfl⟩ := s.callframe_of_tag tag
  let k : Context := ⟨m.current.id, pc, env, rest⟩
  have guards : m.Guards m.current.id a (.callframe pc env) rest := sturdy.guards mem frames s
  have start : Leaving m m a k :=
    sturdy.leaving (.inl ⟨pc, rfl, guards⟩) mem rfl (frames.trans (List.append_cons _ _ _))
  have calls : callDepth m.heap m.current.frames = callDepth m.heap rest + 1 := by
    rw [frames]
    refine Debugger.callDepth_topmost (fun b inside tag => ?_) call
    obtain ⟨n, s, -⟩ := activations b (List.mem_append_left _ inside)
    exact none b inside ⟨s.node, tag⟩
  have depth : ∀ j, Leaving m (m.walk j) a k → ∀ x ∈ (m.walk j).contexts, x.id = k.id →
      callDepth (m.walk j).heap rest = callDepth m.heap rest := fun j leaving x mem own =>
    leaving.depth (fun x inside => activations x (List.mem_append_right _ (List.mem_cons_of_mem _ inside))) mem own
  have first : ∀ j < n + 1, (m.walk j).current.id = m.current.id →
      ¬ callDepth (m.walk j).heap (m.walk j).current.frames < callDepth m.heap m.current.frames := fun j below own =>
    match j with
    | 0 => Nat.lt_irrefl _
    | j + 1 => first j (Nat.lt_of_succ_lt_succ below) own
  have alive : ∀ j ≤ n + 1, (m.walk j).control.result = Option.none → (m.walk j).current ∈ (m.walk j).fibers :=
    fun j le going =>
      match j with
      | 0 => Scheduler.mem_live.2 (.inl ⟨rfl, alive⟩)
      | j + 1 => sturdy.walk_alive running leads strides le going
  -- Where the fiber would be current and out of the call, the debugger would have stopped before.
  have away : ∀ j < n + 1, Leaving m (m.walk j) a k → k ∈ (m.walk j).contexts → (m.walk j).current.id ≠ k.id := by
    intro j below leaving there own
    have here := (sturdy.walk running leads strides (Nat.le_of_lt below)).1.current_context there own
    have stack : (m.walk j).current.frames = rest := congrArg Context.frames here
    refine first j below own ?_
    rw [stack, depth j leaving k there rfl, calls]
    exact Nat.lt_succ_self _
  have leaving : ∀ j ≤ n + 1, Leaving m (m.walk j) a k := fun j le => start.walk sturdy running leads strides away le
  have stack_cases : ∀ j ≤ n + 1, (m.walk j).current ∈ (m.walk j).fibers → (m.walk j).current.id = m.current.id →
      (Has (m.walk j).heap.words a .callframe ∧ ∃ above, (m.walk j).current.frames = above ++ a :: rest) ∨
        (m.walk j).current.context = k := fun j le live own =>
    (leaving j le).returning.cases (sturdy.walk running leads strides le).1 (List.mem_map_of_mem live) own
  have lives := alive (n + 1) (Nat.le_refl _) going
  have last : (m.walk (n + 1)).current.context = k := by
    refine (stack_cases (n + 1) (Nat.le_refl _) lives current).resolve_left ?_
    rintro ⟨call, above, frames⟩
    have same := depth (n + 1) (leaving (n + 1) (Nat.le_refl _)) _ (List.mem_map_of_mem lives) current
    rw [frames, Debugger.callDepth_append, Debugger.callDepth_call call, same, calls] at fewer
    omega
  refine ⟨Nat.succ_pos n, fun j below own => ?_, current, congrArg Context.frames last, ?_, ?_⟩
  · obtain ⟨i, next⟩ := executes_of_step (strides j below)
    have lives := alive j (Nat.le_of_lt below) next.2.1
    refine ((stack_cases j (Nat.le_of_lt below) lives own).resolve_right fun here => ?_).2
    exact away j below (leaving j (Nat.le_of_lt below)) (here ▸ List.mem_map_of_mem lives) own
  · rw [show (m.walk (n + 1)).current.pc = pc from congrArg Context.pc last]
    exact Heap.callframePc_shows s
  · rw [show (m.walk (n + 1)).current.env = env from congrArg Context.env last]
    exact Heap.callframeEnv_shows s

end Returns

end Machine

namespace Debugger

variable {d d' : Debugger}

/-- A movement that stops by itself stops the first time that it may. -/
theorem runUntil_step {stop : Machine → Bool} {fuel : Nat} (run : runUntil false stop fuel d = .ok .step d') :
    ∃ n, d'.machine = d.machine.walk (n + 1) ∧ d.machine.Strides (n + 1) ∧ d'.machine.halted = false ∧
      stop d'.machine = true ∧ ∀ j < n, stop (d.machine.walk (j + 1)) = false := by
  induction fuel generalizing d with
  | zero => cases run
  | succ fuel ih =>
    unfold runUntil at run
    rcases d.stepOnce_cases False with ⟨d₁, once, passes, -⟩ | ⟨e, d₁, once, other, -⟩ | ⟨e, d₁, once, -⟩
    · rw [bind_of_ok once] at run
      have first : d.machine.walk 1 = d₁.machine := Machine.walk_of_step passes.step 0
      have next : ∀ k, d.machine.walk (k + 1) = d₁.machine.walk k := Machine.walk_of_step passes.step
      have well : Machine.step false (d.machine.walk 0) = .ok () (d.machine.walk 1) := first ▸ passes.step
      change (if stop d₁.machine then (return .step : Command StopEvent) else runUntil false stop fuel) d₁ = _ at run
      split at run
      · next done =>
        cases run
        refine ⟨0, first.symm, fun j below => ?_, passes.going, done, fun j below => absurd below (Nat.not_lt_zero j)⟩
        obtain rfl := Nat.lt_one_iff.1 below
        exact well
      · next more =>
        obtain ⟨n, last, strides, going, done, before⟩ := ih run
        refine ⟨n + 1, last.trans (next (n + 1)).symm, fun j below => ?_, going, done, fun j below => ?_⟩
        · cases j with
          | zero => exact well
          | succ j =>
            rw [next, next]
            exact strides j (Nat.lt_of_succ_lt_succ below)
        · rw [next]
          cases j with
          | zero => exact Bool.eq_false_iff.2 more
          | succ j => exact before j (Nat.lt_of_succ_lt_succ below)
    · rw [bind_of_ok once] at run
      cases run
      exact absurd rfl other
    · rw [bind_of_error once] at run
      cases run

/-- A debugger that steps over a call stops the first time that the fiber is current again with a runtime stack that
is no higher, and one that steps out stops the first time that it is current and has left its topmost call. The fiber
is behind the call then, or where the frame of the call says, with the stack below it. A call frame keeps 32 bits of
the place to return to. -/
theorem stops_at_return {size : Int} {code : Code} {options : Options} {clock : Clock} {sink : Sink}
    {order : Enumeration} {m : Machine} (made : Machine.create size code options clock sink order = .ok m)
    (ts : List Turn) (sound : m.Along (fun m t => ¬ m.Crashes t) ts) (here : d.machine = m.play ts) :
    (∀ arity, d.machine.Executes (.call arity) → d.machine.current.pc + 1 < UInt32.size →
      stepOver false d = .ok .step d' → ∃ r n, d'.machine = d.machine.walk n ∧ d.machine.ComesBack r n) ∧
    ∀ blocks c rest, d.machine.control.failed = none → d.machine.control.result = none →
      d.machine.current.frames = blocks ++ c :: rest → (∀ b ∈ blocks, ¬ Has d.machine.heap.words b .callframe) →
      Has d.machine.heap.words c .callframe → stepOut false d = .ok .step d' →
      ∃ n, d'.machine = d.machine.walk n ∧ d.machine.ComesOut c rest n := by
  have leads := code.leads_anywhere
  obtain ⟨sturdy, running⟩ := Machine.create_sturdy leads made
  obtain ⟨sturdy, running⟩ := sturdy.play running leads (fun _ _ sound => sound) sound
  rw [← here] at sturdy running
  refine ⟨fun arity next small run => ?_, fun blocks c rest fine more frames none call run => ?_⟩
  · have range := next.range
    unfold stepOver at run
    dsimp only at run
    rw [if_neg (Int.not_le.2 range.2), if_neg (Int.not_lt.2 range.1), next.getElem?] at run
    dsimp only at run
    rw [if_pos (show (Instr.call arity).opcode = .call from rfl)] at run
    obtain ⟨n, last, strides, going, stop, first⟩ := runUntil_step run
    rw [last] at stop going
    simp only [Bool.and_eq_true, beq_iff_eq, decide_eq_true_eq] at stop
    have going := Option.isNone_iff_eq_none.1 (Option.isSome_eq_false_iff.1 going)
    refine (sturdy.comesBack running leads next small strides going stop.1.1 stop.2 ?_).imp fun r comes =>
      ⟨n + 1, last, comes⟩
    intro j below own pc low
    have unmet := first j below
    simp [own, pc, low] at unmet
  · have alive : d.machine.current.state ≠ .terminated := by
      rw [show d.machine.current.state = .running from running fine more]
      decide
    unfold stepOut at run
    dsimp only at run
    have some : callDepth d.machine.heap d.machine.current.frames ≠ 0 := by
      rw [frames, callDepth_append, callDepth_call call]
      omega
    rw [if_neg some] at run
    obtain ⟨n, last, strides, going, stop, first⟩ := runUntil_step run
    rw [last] at stop going
    simp only [Bool.and_eq_true, beq_iff_eq, decide_eq_true_eq] at stop
    have going := Option.isNone_iff_eq_none.1 (Option.isSome_eq_false_iff.1 going)
    refine ⟨n + 1, last, sturdy.comesOut running leads alive frames none call strides going stop.1 stop.2 ?_⟩
    intro j below own fewer
    have unmet := first j below
    simp [own, fewer] at unmet

/-- The debugger that a command leaves behind when it has stopped by itself. -/
def stopped : EStateM.Result Machine.Error Debugger StopEvent → Option Debugger
  | .ok .step d => some d
  | _ => none

theorem eq_of_stopped {r : EStateM.Result Machine.Error Debugger StopEvent} (stops : stopped r = some d') :
    r = .ok .step d' := by
  unfold stopped at stops
  split at stops
  · rw [Option.some.inj stops]
  · cases stops

theorem stops_at_return_tail : ∃ m d d', Machine.create 368 Machine.tailCode {} = .ok m ∧
    stepOver false { machine := m.play [.step false] } = .ok .step d ∧
    stepOut false { machine := m.play [.step false, .step false] } = .ok .step d' ∧
    (∃ r n, d.machine = (m.play [.step false]).walk n ∧ (m.play [.step false]).ComesBack r n) ∧
    ∃ n, d'.machine = (m.play [.step false, .step false]).walk n ∧
      (m.play [.step false, .step false]).ComesOut 288 [] n := by
  obtain ⟨m, made, run, ready, small, past, fine, more, frames, inside, call, out⟩ : ∃ m : Machine,
      Machine.create 368 Machine.tailCode {} = .ok m ∧ m.makes false 2 ∧ (m.play [.step false]).atCall ∧
      (m.play [.step false]).current.pc + 1 < UInt32.size ∧
      (stopped (stepOver false { machine := m.play [.step false] })).isSome ∧
      (m.play [.step false, .step false]).control.failed = none ∧
      (m.play [.step false, .step false]).control.result = none ∧
      (m.play [.step false, .step false]).current.frames = [288] ∧
      288 + Heap.nodeSize ≤ (m.play [.step false, .step false]).heap.words.size ∧
      tagAt (m.play [.step false, .step false]).heap.words 288 = .callframe ∧
      (stopped (stepOut false { machine := m.play [.step false, .step false] })).isSome :=
    ⟨_, Machine.create_listed rfl, by decide +kernel⟩
  obtain ⟨d, past⟩ := Option.isSome_iff_exists.1 past
  obtain ⟨d', out⟩ := Option.isSome_iff_exists.1 out
  obtain ⟨first, second, -⟩ := Machine.along_smooth_of_makes run
  obtain ⟨next, -⟩ := Machine.calls_of_atCall ready
  refine ⟨m, d, d', made, eq_of_stopped past, eq_of_stopped out, ?_, ?_⟩
  · exact (stops_at_return (d := { machine := m.play [.step false] }) made [.step false]
      ⟨first.not_crashes, trivial⟩ rfl).1 0 next small (eq_of_stopped past)
  · exact (stops_at_return (d := { machine := m.play [.step false, .step false] }) made [.step false, .step false]
      ⟨first.not_crashes, second.not_crashes, trivial⟩ rfl).2 [] 288 [] fine more frames nofun ⟨⟨rfl, inside⟩, call⟩
      (eq_of_stopped out)

end Debugger

end FiberVm
