import FiberVm.Proofs.Machine.Deeds

/-!
# Entering a scope

A block and a call of a closure extend an environment by one frame. They take two or three nodes for that, and each
time a collection may be due. What has been taken before is pinned or in a register by then, so it is still there when
the scope is entered. Nobody is woken or parked.
-/

set_option autoImplicit false

namespace FiberVm

open Heap (Shows Drift Fresh Traceable Reaches Allocates bottom)

/-- The current fiber is at `pc` with these operands. Its environment has these frames, and one more with these slots. -/
structure Machine.Opened (m : Machine) (frames slots operands : List Addr) (pc : Int) : Prop where
  operands : m.current.operands = operands
  pc : m.current.pc = pc
  env : ∃ frame, Shows m.heap.words m.current.env (.environment (frames ++ [frame])) ∧
    Shows m.heap.words frame (.frame slots)

/-- Code that comes to its end arrives in `D`. -/
def Arrives {α : Type} (D : α → Machine → Prop) (x : Exec α) (m : Machine) : Prop := ∀ a m', x m = .ok a m' → D a m'

namespace Arrives

variable {α β : Type} {D D' : β → Machine → Prop} {R : α → Machine → Prop} {m m₁ : Machine} {x : Exec α}
  {k : α → Exec β}

theorem bind (first : Arrives R x m) (rest : ∀ a m₁, R a m₁ → Arrives D (k a) m₁) : Arrives D (x >>= k) m := by
  intro b m' run
  cases ran : x m with
  | error e m₁ =>
    rw [bind_of_error ran] at run
    cases run
  | ok a m₁ =>
    rw [bind_of_ok ran] at run
    exact rest a m₁ (first a m₁ ran) b m' run

theorem imp {y : Exec β} (arrives : Arrives D y m) (weaker : ∀ b m', D b m' → D' b m') : Arrives D' y m :=
  fun b m' run => weaker b m' (arrives b m' run)

theorem fault {c : Cause} : Arrives D (FiberVm.fault c) m := fun _ _ run => by cases run

theorem of_ok {y : Exec β} {b : β} (run : y m = .ok b m₁) (holds : D b m₁) : Arrives D y m := by
  intro b' m' run'
  cases run.symm.trans run'
  exact holds

theorem step {a : α} (run : x m = .ok a m₁) (rest : Arrives D (k a) m₁) : Arrives D (x >>= k) m := by
  intro b m' run'
  rw [bind_of_ok run] at run'
  exact rest b m' run'

theorem read (still : Still x) (rest : ∀ a, x m = .ok a m → Arrives D (k a) m) : Arrives D (x >>= k) m := by
  intro b m' run'
  have same := still m
  cases run : x m with
  | error e m₁ =>
    rw [bind_of_error run] at run'
    cases run'
  | ok a m₁ =>
    rw [run] at same
    obtain rfl : m₁ = m := same
    rw [bind_of_ok run] at run'
    exact rest a run b m' run'

theorem drop {i : Nat} {k : Unit → Exec β} (rest : Arrives D (k ()) (m.withFiber (m.control.sched.current.drop i))) :
    Arrives D (Exec.drop i >>= k) m := by
  by_cases enough : i ≤ m.control.sched.current.operands.length
  · exact step (Exec.drop_ok enough) rest
  · intro b m' run
    cases (bind_of_error (Exec.drop_short (Nat.lt_of_not_le enough))).symm.trans run

end Arrives

/-- The code is calm, and when it comes to its end it arrives in `D`. -/
structure Calmly {α : Type} (D : α → Machine → Prop) (x : Exec α) (m : Machine) : Prop where
  calm : Calm x m
  arrives : Arrives D x m

namespace Calmly

section Rules

variable {α β : Type} {D : β → Machine → Prop} {m m₁ : Machine} {x : Exec α} {k : α → Exec β}

theorem bind (first : Calm x m) (rest : ∀ a m₁, x m = .ok a m₁ → Calmly D (k a) m₁) : Calmly D (x >>= k) m :=
  ⟨first.bind fun a m₁ run => (rest a m₁ run).calm,
    .bind (R := fun a m₁ => x m = .ok a m₁) (fun _ _ run => run) fun a m₁ run => (rest a m₁ run).arrives⟩

theorem step (calm : Calm x m) {a : α} (run : x m = .ok a m₁) (rest : Calmly D (k a) m₁) : Calmly D (x >>= k) m :=
  bind calm fun b m₂ ran => by
    cases run.symm.trans ran
    exact rest

theorem last {y : Exec β} (calm : Calm y m) {b : β} (run : y m = .ok b m₁) (holds : D b m₁) : Calmly D y m :=
  ⟨calm, .of_ok run holds⟩

theorem drop {n : Nat} {k : Unit → Exec β} (rest : Calmly D (k ()) (m.withFiber (m.control.sched.current.drop n))) :
    Calmly D (Exec.drop n >>= k) m := by
  by_cases enough : n ≤ m.control.sched.current.operands.length
  · exact step (.drop n) (Exec.drop_ok enough) rest
  · exact bind (.drop n) fun _ _ run => by cases (Exec.drop_short (Nat.lt_of_not_le enough)).symm.trans run

theorem take {op : Heap.Roots → HeapM Addr} {k : Addr → Exec β} {K : List Addr} {P : Heap → Addr → Prop}
    (drifts : Leaves (Drift [] m.heap) (op m.rootThunk m.heap))
    (alloc : Allocates K m.heap P (op m.rootThunk m.heap))
    (rest : ∀ a h, Fresh K m.heap h a → P h a → Calmly D (k a) { m with heap := h }) :
    Calmly D (Exec.allocating op >>= k) m := by
  refine bind (.allocating drifts) fun a m₁ made => ?_
  obtain ⟨h, run, rfl⟩ := allocating_inv made
  obtain ⟨fresh, holds⟩ := alloc.ok run
  exact rest a h fresh holds

theorem withPins {as : List Addr} {x : Exec Unit} {D : Unit → Machine → Prop} (body : Calmly D x (m.addPins as))
    (release : ∀ m' mark, D () m' → D () (m'.release mark)) : Calmly D (Exec.withPins as x) m := by
  refine ⟨.withPins body.calm, fun u m' run => ?_⟩
  rw [withPins_eq] at run
  cases ran : x (m.addPins as) with
  | error e m₁ =>
    rw [ran] at run
    cases run
  | ok u m₁ =>
    rw [ran] at run
    cases run
    exact release m₁ _ (body.arrives () m₁ ran)

end Rules

end Calmly

theorem Machine.Holding.pushFrame {m : Machine} {a : Addr} {as : List Addr} (holding : m.Holding (a :: as))
    (alive : m.control.sched.current.state ≠ .terminated) :
    (m.withFiber { m.control.sched.current with frames := a :: m.control.sched.current.frames }).Holding as := by
  refine (holding.withFiber (f := { m.control.sched.current with
    frames := a :: m.control.sched.current.frames }) fun x mem => ?_).subset fun x mem => ?_
  · simp only [Fiber.roots, List.mem_cons, List.mem_append] at mem
    rcases mem with env | operand | rfl | frame
    · exact .inl (Machine.mem_roots alive (by simp [Fiber.roots, env]))
    · exact .inl (Machine.mem_roots alive (by simp [Fiber.roots, operand]))
    · exact .inr List.mem_cons_self
    · exact .inl (Machine.mem_roots alive (by simp [Fiber.roots, frame]))
  · exact .inr (.inr (List.mem_cons_of_mem a mem))

theorem Exec.fromCallframe_subset {l l' : List Addr} {m m' : Machine}
    (run : fromCallframe l m = .ok (some l') m') : l' ⊆ l := by
  induction l with
  | nil => cases run
  | cons a l ih =>
    have still := still_tagOf a m
    unfold fromCallframe at run
    cases first : tagOf a m with
    | error e m₁ =>
      rw [bind_of_error first] at run
      cases run
    | ok tag m₁ =>
      rw [first] at still
      obtain rfl : m₁ = m := still
      rw [bind_of_ok first] at run
      split at run
      · cases run
        exact List.Subset.refl _
      · exact List.subset_cons_of_subset a (ih run)

theorem Exec.dropBlockframes_inv {m m' : Machine} (run : Exec.dropBlockframes m = .ok () m') :
    ∃ frames, frames ⊆ m.control.sched.current.frames ∧
      m' = m.withFiber { m.control.sched.current with frames := frames } := by
  have asked : Exec.asksFiber (·.frames) m = .ok m.control.sched.current.frames m := rfl
  have still := Exec.still_fromCallframe m.control.sched.current.frames m
  unfold Exec.dropBlockframes at run
  rw [bind_of_ok asked] at run
  cases found : Exec.fromCallframe m.control.sched.current.frames m with
  | error e m₁ =>
    rw [bind_of_error found] at run
    cases run
  | ok l m₁ =>
    rw [found] at still
    obtain rfl : m₁ = m := still
    rw [bind_of_ok found] at run
    cases l with
    | none =>
      cases run
      exact ⟨_, List.Subset.refl _, rfl⟩
    | some frames =>
      cases run
      exact ⟨frames, Exec.fromCallframe_subset found, rfl⟩

namespace Calmly

variable {m : Machine} {D : Unit → Machine → Prop} {fn frame : Addr} {args frames slots : List Addr}

/-- A frame that is too large is not made. -/
theorem newFrame {k : Addr → Exec Unit} (holding : m.Holding []) (size : Int)
    (rest : 0 ≤ size → ∀ frame h, Fresh (m.rootThunk.get ++ (m.heap.pinned ++ [])) m.heap h frame →
      Shows h.words frame (.frame (List.replicate size.toNat Heap.unassigned)) →
      Calmly D (k frame) { m with heap := h }) :
    Calmly D (Exec.allocating (fun roots => Heap.newFrame roots size) >>= k) m := by
  refine bind (.allocating (Heap.newFrame_drifts holding.sound holding.start size)) fun frame m₁ made => ?_
  obtain ⟨h, run, rfl⟩ := allocating_inv made
  have fits : 0 ≤ size ∧ size ≤ 15 := by
    have most : Heap.maxChildren = 15 := rfl
    unfold Heap.newFrame at run
    split at run
    · cases run
    · omega
  obtain ⟨fresh, s⟩ := (Heap.newFrame_allocates holding.sound holding.start fits).ok run
  exact rest fits.1 frame h (by rwa [List.append_nil]) s

/-- An environment with too many frames is not extended. -/
theorem extend {k : Addr → Exec Unit} {env : Addr} (holding : m.Holding [env, frame])
    (s : Shows m.heap.words env (.environment frames)) (t : Shows m.heap.words frame (.frame slots))
    (rest : ∀ e h, Fresh (m.rootThunk.get ++ (m.heap.pinned ++ [env, frame])) m.heap h e →
      Shows h.words e (.environment (frames ++ [frame])) → Shows h.words frame (.frame slots) →
      Calmly D (k e) { m with heap := h }) :
    Calmly D (Exec.allocating (fun roots => Heap.extend roots env frame) >>= k) m := by
  refine bind (.allocating (Heap.extend_drifts holding.sound holding.traceable s)) fun e m₁ made => ?_
  obtain ⟨h, run, rfl⟩ := allocating_inv made
  have fits : frames.length < 15 := by
    have most : Heap.maxChildren = 15 := rfl
    unfold Heap.extend at run
    rw [bind_of_ok (s.lists (.inr rfl)).childCount] at run
    split at run
    · cases run
    · omega
  obtain ⟨fresh, made⟩ := (Heap.extend_allocates holding.sound holding.traceable (s.lists (.inr rfl)) fits).ok run
  exact rest e h fresh made (fresh.toKept.shows (by simp) t)

theorem enterScope (holding : m.Holding []) (alive : m.control.sched.current.state ≠ .terminated)
    (s : Shows m.heap.words m.control.sched.current.env (.environment frames)) (size : Int) :
    Calmly (fun _ m' => 0 ≤ size ∧ m'.Opened frames (List.replicate size.toNat Heap.unassigned)
      m.control.sched.current.operands m.control.sched.current.pc) (Exec.enterScope size) m := by
  have root := Machine.env_mem_roots alive
  have start : m.Holding [m.control.sched.current.env] := holding.subset fun x mem => .inl (List.mem_singleton.1 mem ▸ root)
  refine step (.still (Exec.still_asks _)) rfl ?_
  refine take (Heap.newBlockframe_drifts start.sound start.traceable)
    (Heap.newBlockframe_allocates start.sound start.traceable) fun b h₁ fresh₁ s₁ => ?_
  have env₁ := fresh₁.toKept.shows (List.mem_append_left _ root) s
  have holding₁ := (start.take fresh₁ s₁ fun c mem => .inr (List.mem_append_right _ (List.mem_append_right _ mem))).pushFrame
    alive
  refine step (.pushFrame b) rfl ?_
  have bare : Machine.Holding _ [] := holding₁.subset nofun
  refine newFrame bare size fun pos frame h₂ fresh₂ s₂ => ?_
  have root₁ := Machine.env_mem_roots (m := Machine.withFiber { m with heap := h₁ } { m.control.sched.current with
    frames := b :: m.control.sched.current.frames }) alive
  have env₂ := fresh₂.toKept.shows (List.mem_append_left _ root₁) env₁
  have holding₂ := bare.take fresh₂ s₂ fun c mem => .inl (List.eq_of_mem_replicate mem ▸ by decide)
  have both : Machine.Holding _ [m.control.sched.current.env, frame] := holding₂.subset fun x mem => by
    simp only [List.mem_cons, List.not_mem_nil, or_false] at mem
    rcases mem with rfl | rfl
    · exact .inl root₁
    · exact .inr (.inr List.mem_cons_self)
  exact extend both env₂ s₂ fun e h₃ _ env₃ s₃ => last (.setEnv e) rfl ⟨pos, rfl, rfl, frame, env₃, s₃⟩

/-- The last part of a call. The function is still an operand, so its environment is still there. -/
theorem enterBody {k pc : Nat} {e : Addr} (holding : m.Holding [frame])
    (alive : m.control.sched.current.state ≠ .terminated) (mem : fn ∈ m.control.sched.current.operands)
    (high : bottom ≤ fn) (closure : Shows m.heap.words fn (.closure k pc e))
    (env : Shows m.heap.words e (.environment frames)) (s : Shows m.heap.words frame (.frame slots)) (size : Nat) :
    Calmly (fun _ m' => m'.Opened frames slots (m.control.sched.current.operands.drop size) pc) (do
      let captured ← Exec.onHeap (Heap.closureEnv fn)
      let env ← Exec.allocating fun roots => Heap.extend roots captured frame
      Exec.drop size
      Exec.setEnv env
      Exec.jump (← Exec.onHeap (Heap.closurePc fn))) m := by
  have root : fn ∈ m.control.roots := Machine.operand_mem_roots alive mem
  have reach : Reaches m.heap.words (m.rootThunk.get ++ (m.heap.pinned ++ [frame])) e := by
    refine .step (.root (List.mem_append_left _ root)) high ?_
    rw [Heap.refers_iff closure.node closure.layout, closure.refs]
    exact List.mem_singleton_self e
  have both : m.Holding [e, frame] := ⟨holding.sound, Heap.traceable_insert holding.traceable (.inr reach)
    fun x inside => by
      simp only [List.mem_append, List.mem_cons, List.not_mem_nil, or_false] at inside ⊢
      tauto⟩
  refine step (.still (Exec.still_onHeap (Heap.still_child fn 0))) (onHeap_ok (Heap.closureEnv_shows closure)) ?_
  refine extend both env s fun env' h fresh env' s' => drop (step (.setEnv _) rfl ?_)
  have closure' := fresh.toKept.shows (List.mem_append_left _ root) closure
  refine step (.still (Exec.still_onHeap (Heap.still_closurePc fn))) (onHeap_ok (Heap.closurePc_shows closure')) ?_
  exact last (.jump pc) rfl ⟨rfl, rfl, frame, env', s'⟩

/-- A closure finds its arguments in the frame that its environment is extended by. -/
theorem enterClosure {k pc : Nat} {e : Addr} (holding : m.Holding [])
    (alive : m.control.sched.current.state ≠ .terminated) (mem : fn ∈ m.control.sched.current.operands)
    (high : bottom ≤ fn) (closure : Shows m.heap.words fn (.closure k pc e))
    (env : Shows m.heap.words e (.environment frames)) (sub : args ⊆ m.control.sched.current.operands)
    (tail : Bool) :
    Calmly (fun _ m' => m'.Opened frames args (m.control.sched.current.operands.drop (args.length + 1)) pc)
      (Exec.enterClosure fn args tail) m := by
  have operand : ∀ {x}, x ∈ m.control.sched.current.operands → x ∈ m.rootThunk.get ++ (m.heap.pinned ++ []) :=
    fun mem => List.mem_append_left _ (Machine.operand_mem_roots alive mem)
  refine newFrame holding args.length fun _ frame h₁ fresh s => ?_
  -- Writing the arguments touches the new frame only, so the closure and its environment are still there.
  obtain ⟨h₂, run, u⟩ := Heap.forM_zipIdx_setChild [] s (show _ = args.length by simp)
  have before : Heap.tagAt h₁.words frame = .frame := s.tagAt
  have after : Heap.tagAt h₂.words frame = .frame := u.shows.tagAt
  have drift := u.toOnly.drift (by rw [after]; decide) (by rw [before]; decide)
  refine step (.onHeap (.of_ok run drift)) (onHeap_ok run) ?_
  have fresh₂ := fresh.only (by rw [before]; decide) u.toOnly u.shows.not_marked
  have closure₂ := fresh₂.toKept.shows (operand mem) closure
  have env₂ := fresh₂.toKept.shows_reference (operand mem) high closure (List.mem_singleton_self e) env
  have pinned := (holding.take fresh₂ u.shows fun c inside => .inr (operand (sub inside))).addPins
  refine withPins ?_ fun m' mark opened => ⟨opened.operands, opened.pc, opened.env⟩
  cases tail with
  | true =>
    refine bind .dropBlockframes fun _ m₃ dropped => ?_
    obtain ⟨frames, sub, rfl⟩ := Exec.dropBlockframes_inv dropped
    have kept := pinned.withFiber (f := { m.control.sched.current with frames := frames }) fun x inside => by
      simp only [Fiber.roots, List.mem_cons, List.mem_append] at inside
      refine .inl (Machine.mem_roots alive ?_)
      simp only [Fiber.roots, List.mem_cons, List.mem_append]
      exact inside.imp_right fun either => either.imp_right (sub ·)
    exact enterBody (kept.subset fun x inside => .inr (.inl (List.mem_append_right _ inside))) alive mem high
      closure₂ env₂ u.shows _
  | false =>
    simp only [Bool.false_eq_true, if_false]
    refine step (.still (Exec.still_asks _)) rfl (step (.still (Exec.still_asks _)) rfl ?_)
    -- The call frame is one more node to be taken, and all of the above has to survive that, too.
    have root : m.control.sched.current.env ∈ m.control.roots := Machine.env_mem_roots alive
    have start : Machine.Holding _ [m.control.sched.current.env] := pinned.subset fun x mem => .inl (List.mem_singleton.1 mem ▸ root)
    refine take (Heap.newCallframe_drifts start.sound start.traceable _)
      (Heap.newCallframe_allocates start.sound start.traceable _) fun b h₃ fresh₃ s₃ => ?_
    have live : fn ∈ m.control.roots := Machine.operand_mem_roots alive mem
    have closure₃ := fresh₃.toKept.shows (List.mem_append_left _ live) closure₂
    have env₃ := fresh₃.toKept.shows_reference (List.mem_append_left _ live) high closure₂
      (List.mem_singleton_self e) env₂
    have arguments := fresh₃.toKept.shows (List.mem_append_right _ (List.mem_append_left _
      (List.mem_append_right _ List.mem_cons_self))) u.shows
    have pushed := (start.take fresh₃ s₃ fun c mem => .inr (List.mem_append_right _ (List.mem_append_right _ mem))).pushFrame
      alive
    refine step (.pushFrame b) rfl ?_
    refine enterBody (pushed.subset fun x inside => ?_) alive mem high closure₃ env₃ arguments _
    refine .inr (.inl ?_)
    rw [show (Machine.withFiber _ _).heap.pinned = h₃.pinned from rfl, fresh₃.pinned]
    exact List.mem_append_right _ inside

end Calmly

end FiberVm
