import FiberVm.Proofs.Machine.Builtins

/-!
# Scopes and calls on two machines

A call makes its frame and its environment while the function and its arguments are still operands, and
the frame is pinned while the rest is made. So what is known at the start of a call is known at its end.
-/

set_option autoImplicit false

namespace FiberVm

open Heap (Shows Updates Kept bottom)

section

variable {q : Terms} {w w' : World} {m₁ m₂ : Machine} {a env frame fn : Addr} {args : List Addr}

theorem Machine.mem_roots {m : Machine} (alive : m.control.sched.current.state ≠ .terminated)
    (mem : a ∈ m.control.sched.current.roots) : a ∈ m.control.roots :=
  List.mem_append_left _ (Scheduler.mem_roots_current alive mem)

theorem Machine.env_mem_roots {m : Machine} (alive : m.control.sched.current.state ≠ .terminated) :
    m.control.sched.current.env ∈ m.control.roots :=
  m.mem_roots alive (by simp [Fiber.roots])

theorem Machine.operand_mem_roots {m : Machine} (alive : m.control.sched.current.state ≠ .terminated)
    (mem : a ∈ m.control.sched.current.operands) : a ∈ m.control.roots :=
  m.mem_roots alive (by simp [Fiber.roots, mem])

theorem World.Extends.value {K : List Addr} (ext : w.Extends w' K) (mem : a ∈ K) (value : IsValue w.role a) :
    IsValue w'.role a :=
  value.imp (ext.role a _ (.inl mem)) (ext.role a _ (.inl mem))

theorem subset_pins (l l' as : List Addr) : l ++ l' ⊆ l ++ (l' ++ as) := by
  intro x mem
  rw [← List.append_assoc]
  exact List.mem_append_left as mem

theorem Sim.newFrame {size : Int} {k₁ k₂ : Addr → Exec Unit} (alike : m₁.Alike q w m₂)
    (alive : m₁.control.sched.current.state ≠ .terminated)
    (rest : ∀ a h₁ h₂ w', w.Extends w' (m₁.control.roots ++ m₁.heap.pinned) → w'.role a .frame →
      bottom ≤ a → Kept (m₁.control.roots ++ m₁.heap.pinned) m₁.heap h₁ →
      Shows h₁.words a (.frame (List.replicate size.toNat Heap.unassigned)) →
      Shows h₂.words (w'.image a) (.frame (List.replicate size.toNat Heap.unassigned)) →
      Machine.Alike q w' { m₁ with heap := h₁ } { m₂ with heap := h₂ } →
      Sim q w' (k₁ a) (k₂ (w'.image a)) { m₁ with heap := h₁ } { m₂ with heap := h₂ }) :
    Sim q w (Exec.allocating (fun roots => Heap.newFrame roots size) >>= k₁)
      (Exec.allocating (fun roots => Heap.newFrame roots size) >>= k₂) m₁ m₂ := by
  by_cases out : size < 0 ∨ (Heap.maxChildren : Int) < size
  · refine .rejectFault alike (if_pos out) (if_pos out) ?_
    rfl
  · have fits : 0 ≤ size ∧ size ≤ 15 := by
      unfold Heap.maxChildren at out
      omega
    refine .take alike alive (alike.shared.newFrame fits) (List.Subset.refl _) ?_
    intro a h₁ h₂ w' gives s₁ s₂ alike
    exact rest a h₁ h₂ w' gives.ext gives.role gives.high gives.kept₁ s₁ s₂ alike

/-- The environment at an address in that role. -/
theorem Mirror.environment {h₁ h₂ : Heap} (m : Mirror w h₁ h₂) (role : w.role env .environment) :
    ∃ frames, Shows h₁.words env (.environment frames) ∧ w.Admits env .environment (.environment frames) ∧
      Shows h₂.words (w.image env) (.environment (frames.map w.image)) := by
  obtain ⟨n, s₁, admits, s₂⟩ := m.nodes env _ role
  have fits := admits.fits
  cases n with
  | environment frames => exact ⟨frames, s₁, admits, s₂⟩
  | _ => exact fits.elim

theorem Heap.extend_full {h : Heap} {frames : List Addr} (s : Shows h.words env (.environment frames))
    (full : ¬ frames.length < 15) (thunk : Heap.Roots) (frame : Addr) :
    Heap.extend thunk env frame h = .error (.fault .environmentCapacity) h ∧
      ∀ v, Commutes (Heap.pin v) (Heap.extend thunk env frame) h := by
  have run := Heap.childCount_shows s
  have excess : ((Node.environment frames).size : Int) - 1 + 1 > Heap.maxChildren := by
    simp only [Node.size, Heap.maxChildren]
    omega
  refine ⟨?_, fun v => (Heap.Blind.childCount env v h).bind_ok run ?_⟩
  · rw [Heap.extend, bind_of_ok run, if_pos excess]
    rfl
  · rw [if_pos excess]
    exact Heap.Blind.fault _ v h

theorem Sim.extend {k₁ k₂ : Addr → Exec Unit} (alike : m₁.Alike q w m₂)
    (alive : m₁.control.sched.current.state ≠ .terminated) (role : w.role env .environment)
    (frameRole : w.role frame .frame) (high : bottom ≤ frame)
    (rest : ∀ a h₁ h₂ w', w.Extends w' (m₁.control.roots ++ (m₁.heap.pinned ++ [env, frame])) →
      w'.role a .environment → Kept (m₁.control.roots ++ m₁.heap.pinned) m₁.heap h₁ →
      Machine.Alike q w' { m₁ with heap := h₁ } { m₂ with heap := h₂ } →
      Sim q w' (k₁ a) (k₂ (w'.image a)) { m₁ with heap := h₁ } { m₂ with heap := h₂ }) :
    Sim q w (Exec.allocating (fun roots => Heap.extend roots env frame) >>= k₁)
      (Exec.allocating (fun roots => Heap.extend roots (w.image env) (w.image frame)) >>= k₂) m₁ m₂ := by
  obtain ⟨frames, s₁, admits, s₂⟩ := alike.heap.environment role
  by_cases room : frames.length < 15
  · refine .take alike alive (alike.shared.extend role frameRole high s₁ admits s₂ room)
      (subset_pins _ _ _) ?_
    intro a h₁ h₂ w' gives _ _ alike
    exact rest a h₁ h₂ w' gives.ext gives.role (gives.kept₁.subset (subset_pins _ _ _)) alike
  · have full₁ := Heap.extend_full s₁ room m₁.rootThunk frame
    have full₂ := Heap.extend_full s₂ (by simpa using room) m₂.rootThunk (w.image frame)
    exact .reject alike full₁.1 full₂.1 full₁.2 full₂.2 rfl

theorem Sim.enterScope {size : Int} (alike : m₁.Alike q w m₂)
    (alive : m₁.control.sched.current.state ≠ .terminated) :
    Sim q w (Exec.enterScope size) (Exec.enterScope size) m₁ m₂ := by
  unfold Exec.enterScope
  refine .asksFiber alike ?_
  rw [Fiber.rename_env]
  generalize entered : m₁.control.sched.current.env = env
  have role : w.role env .environment := entered ▸ (alike.typed alive).env
  refine .take alike alive (alike.shared.newBlockframe role) (subset_pins _ _ _) ?_
  intro b h₁ h₂ w₁ gives _ _ alike
  refine .pushFrame alike gives.role fun n₂ alike _ => ?_
  have live : env ∈ m₁.control.roots ++ (m₁.heap.pinned ++ [env]) := by simp
  have role₁ := gives.ext.role env _ (.inl live) role
  rw [← gives.ext.image env (.inl live)]
  refine .newFrame alike alive fun f h₁ h₂ w₂ ext frameRole high _ _ _ alike => ?_
  -- The environment is still a register, so a collection in between has found it.
  have live₁ : w₁.Extends w₂ [env] := by
    refine ext.subset (List.cons_subset.2 ⟨List.mem_append_left _ ?_, List.nil_subset _⟩)
    rw [← entered]
    exact Machine.env_mem_roots alive
  rw [← live₁.image env (.inl List.mem_cons_self)]
  refine .extend alike alive (live₁.role env _ (.inl List.mem_cons_self) role₁) frameRole high ?_
  intro e h₁ h₂ w₃ _ role _ alike
  exact .last (.setEnv alike role fun n₂ alike _ => .pure alike)

theorem Sim.exitScope (alike : m₁.Alike q w m₂) (alive : m₁.control.sched.current.state ≠ .terminated) :
    Sim q w Exec.exitScope Exec.exitScope m₁ m₂ := by
  unfold Exec.exitScope
  refine .popFrame alike alive fun top frames n₂ role alike heap => ?_
  obtain ⟨n, s₁, admits, s₂⟩ := alike.heap.nodes top _ role
  refine .tagOf s₁ s₂ ?_
  by_cases block : n.tag = .blockframe
  · rw [if_pos block, if_pos block]
    obtain ⟨e, rfl⟩ := s₁.blockframe_of_tag block
    refine .read (.child _ _) (.child _ _) (Heap.blockframeEnv_shows s₁) (Heap.blockframeEnv_shows s₂) ?_
    exact .last (.setEnv alike admits.fits fun n₂ alike _ => .pure alike)
  · rw [if_neg block, if_neg block]
    exact .raise alike rfl

theorem Sim.reset (alike : m₁.Alike q w m₂) (alive : m₁.control.sched.current.state ≠ .terminated) :
    Sim q w Exec.reset Exec.reset m₁ m₂ := by
  unfold Exec.reset
  refine .popFrame alike alive fun top frames n₂ role alike heap => ?_
  obtain ⟨n, s₁, admits, s₂⟩ := alike.heap.nodes top _ role
  refine .tagOf s₁ s₂ ?_
  by_cases call : n.tag = .callframe
  · rw [if_pos call, if_pos call]
    obtain ⟨pc, e, rfl⟩ := s₁.callframe_of_tag call
    refine .read (.callframePc _) (.callframePc _) (Heap.callframePc_shows s₁) (Heap.callframePc_shows s₂) ?_
    refine .jump alike _ fun n₂ alike heap' => ?_
    rw [← heap'] at s₂
    refine .read (.child _ _) (.child _ _) (Heap.callframeEnv_shows s₁) (Heap.callframeEnv_shows s₂) ?_
    exact .last (.setEnv alike admits.fits fun n₂ alike _ => .pure alike)
  · rw [if_neg call, if_neg call]
    by_cases block : n.tag = .blockframe
    · rw [if_pos block]
      exact .asksFiber alike (.last (.jump alike _ fun n₂ alike _ => .pure alike))
    · rw [if_neg block]
      exact .raise alike rfl

theorem Exec.Blind.fromCallframe (l : List Addr) : Exec.Blind (Exec.fromCallframe l) := by
  induction l with
  | nil => exact .pure _
  | cons a l ih =>
    refine (Exec.Blind.onHeap (.tagOf a)).bind fun tag => ?_
    split
    · exact .pure _
    · exact ih

theorem Machine.Alike.fromCallframe (alike : m₁.Alike q w m₂) {l : List Addr}
    (roles : ∀ a ∈ l, w.role a .activation) :
    ∃ found, Exec.fromCallframe l m₁ = .ok found m₁ ∧
      Exec.fromCallframe (l.map w.image) m₂ = .ok (found.map (List.map w.image)) m₂ ∧
      ∀ l', found = some l' → l' ⊆ l := by
  induction l with
  | nil => exact ⟨none, rfl, rfl, nofun⟩
  | cons a l ih =>
    obtain ⟨n, s₁, -, s₂⟩ := alike.heap.nodes a _ (roles a List.mem_cons_self)
    have tag₁ := onHeap_ok (Heap.tagOf_shows s₁)
    have tag₂ := onHeap_ok (Heap.tagOf_shows s₂)
    rw [Node.tag_map] at tag₂
    by_cases call : n.tag = .callframe
    · refine ⟨some (a :: l), (bind_of_ok tag₁).trans ?_, (bind_of_ok tag₂).trans ?_, ?_⟩
      · rw [if_pos call]
        rfl
      · rw [if_pos call]
        rfl
      · rintro l' ⟨⟩
        exact List.Subset.refl _
    · obtain ⟨found, run₁, run₂, sub⟩ := ih fun x mem => roles x (List.mem_cons_of_mem a mem)
      refine ⟨found, (bind_of_ok tag₁).trans ?_, (bind_of_ok tag₂).trans ?_, fun l' e => ?_⟩
      · rw [if_neg call]
        exact run₁
      · rw [if_neg call]
        exact run₂
      · exact List.Subset.trans (sub l' e) (List.subset_cons_self a l)

theorem Sim.dropBlockframes {k₁ k₂ : Unit → Exec Unit} (alike : m₁.Alike q w m₂)
    (alive : m₁.control.sched.current.state ≠ .terminated)
    (rest : ∀ frames n₂, (m₁.withFiber { m₁.control.sched.current with frames := frames }).Alike q w n₂ →
      n₂.heap = m₂.heap →
      Sim q w (k₁ ()) (k₂ ()) (m₁.withFiber { m₁.control.sched.current with frames := frames }) n₂) :
    Sim q w (Exec.dropBlockframes >>= k₁) (Exec.dropBlockframes >>= k₂) m₁ m₂ := by
  have typed := alike.typed alive
  obtain ⟨found, run₁, run₂, sub⟩ := alike.fromCallframe typed.frames
  simp only [Exec.dropBlockframes, bind_assoc]
  refine .asksFiber alike (.step (.fromCallframe _) (.fromCallframe _) run₁ run₂ rfl ?_)
  cases found with
  | none => exact .step (.pure _) (.pure _) rfl rfl rfl (rest m₁.control.sched.current.frames m₂ alike rfl)
  | some frames =>
    refine .modifyFiber alike rfl rfl rfl (fun _ => ?_) fun alike => rest frames _ alike rfl
    exact ⟨typed.env, typed.operands, fun x mem => typed.frames x (sub frames rfl mem)⟩

theorem Machine.Alike.closure (alike : m₁.Alike q w m₂) (value : IsValue w.role fn)
    (tag : Heap.tagAt m₁.heap.words fn = .closure) :
    ∃ k pc e, Shows m₁.heap.words fn (.closure k pc e) ∧ w.role e .environment ∧
      Shows m₂.heap.words (w.image fn) (.closure k pc (w.image e)) := by
  obtain ⟨n, r, role, s₁, admits, s₂⟩ := alike.node value
  obtain ⟨k, pc, e, rfl⟩ := s₁.closure_of_tag (s₁.tagAt.symm.trans tag)
  have fits := admits.fits
  cases r with
  | value => exact ⟨k, pc, e, s₁, fits, s₂⟩
  | _ => exact fits.elim

theorem Heap.Kept.tagAt {K : List Addr} {h h' : Heap} (kept : Kept K h h') (node : Heap.NodeIn h.words a)
    (mem : a ∈ K) : Heap.tagAt h'.words a = Heap.tagAt h.words a := by
  rw [Heap.tagAt, Heap.tagAt, kept.same a node (.inr (.root mem)) 0 (by decide)]

/-- The last part of a call: the frame is filled and the caller is on the runtime stack. -/
theorem Sim.enterBody {size : Nat} (alike : m₁.Alike q w m₂)
    (alive : m₁.control.sched.current.state ≠ .terminated) (value : IsValue w.role fn)
    (mem : fn ∈ m₁.control.sched.current.operands) (tag : Heap.tagAt m₁.heap.words fn = .closure)
    (frameRole : w.role frame .frame) (high : bottom ≤ frame) :
    Sim q w
      (do
        let captured ← Exec.onHeap (Heap.closureEnv fn)
        let env ← Exec.allocating fun roots => Heap.extend roots captured frame
        Exec.drop size
        Exec.setEnv env
        Exec.jump (← Exec.onHeap (Heap.closurePc fn)))
      (do
        let captured ← Exec.onHeap (Heap.closureEnv (w.image fn))
        let env ← Exec.allocating fun roots => Heap.extend roots captured (w.image frame)
        Exec.drop size
        Exec.setEnv env
        Exec.jump (← Exec.onHeap (Heap.closurePc (w.image fn)))) m₁ m₂ := by
  obtain ⟨k, pc, e, s₁, role, s₂⟩ := alike.closure value tag
  refine .read (.child _ _) (.child _ _) (Heap.closureEnv_shows s₁) (Heap.closureEnv_shows s₂) ?_
  refine .extend alike alive role frameRole high fun env h₁ h₂ w' ext envRole kept alike => ?_
  -- The function is still an operand, so the new environment has not taken its node.
  have live : fn ∈ m₁.control.roots := Machine.operand_mem_roots alive mem
  have tag' := (kept.tagAt s₁.node (List.mem_append_left _ live)).trans tag
  have value' := ext.value (List.mem_append_left _ live) value
  obtain ⟨k', pc', e', s₁', -, s₂'⟩ := alike.closure value' tag'
  rw [← ext.image fn (.inl (List.mem_append_left _ live))]
  refine .drop alike fun n₂ alike heap => ?_
  refine .setEnv alike envRole fun n₃ alike heap' => ?_
  rw [show h₂ = n₃.heap from (heap'.trans heap).symm] at s₂'
  refine .read (.closurePc _) (.closurePc _) (Heap.closurePc_shows s₁') (Heap.closurePc_shows s₂') ?_
  exact .last (.jump alike _ fun n₂ alike _ => .pure alike)

theorem Sim.fillFrame {k₁ k₂ : Unit → Exec Unit} (alike : m₁.Alike q w m₂) (role : w.role frame .frame)
    (high : bottom ≤ frame) (values : ∀ x ∈ args, IsValue w.role x ∧ ¬ w.recent x)
    (s₁ : Shows m₁.heap.words frame (.frame (List.replicate args.length Heap.unassigned)))
    (s₂ : Shows m₂.heap.words (w.image frame) (.frame (List.replicate args.length Heap.unassigned)))
    (rest : ∀ h₁ h₂, Updates m₁.heap h₁ frame (.frame args) →
      Machine.Alike q w { m₁ with heap := h₁ } { m₂ with heap := h₂ } →
      Sim q w (k₁ ()) (k₂ ()) { m₁ with heap := h₁ } { m₂ with heap := h₂ }) :
    Sim q w (Exec.onHeap (List.forM args.zipIdx fun (x, i) => Heap.setChild frame i x) >>= k₁)
      (Exec.onHeap (List.forM (args.map w.image).zipIdx fun (x, i) => Heap.setChild (w.image frame) i x) >>= k₂)
      m₁ m₂ := by
  have admits : w.Admits frame .frame (.frame args) :=
    ⟨fun x mem => (values x mem).1, fun low => absurd low (UInt32.not_lt.2 high),
      fun _ x mem => (values x mem).2⟩
  exact .update alike role admits (.forM fun (x, i) => .setChild _ _ x) (.forM fun (x, i) => .setChild _ _ x)
    (Heap.forM_zipIdx_setChild [] s₁ (by simp)) (Heap.forM_zipIdx_setChild [] s₂ (by simp))
    fun h₁ h₂ u₁ _ alike => rest h₁ h₂ u₁ alike

theorem Sim.pushCaller {k₁ k₂ : Unit → Exec Unit} (alike : m₁.Alike q w m₂)
    (alive : m₁.control.sched.current.state ≠ .terminated)
    (rest : ∀ a h₁ w' n₂, w.Extends w' (m₁.control.roots ++ m₁.heap.pinned) →
      Kept (m₁.control.roots ++ m₁.heap.pinned) m₁.heap h₁ →
      Machine.Alike q w' (Machine.withFiber ⟨h₁, m₁.control⟩ { m₁.control.sched.current with
        frames := a :: m₁.control.sched.current.frames }) n₂ →
      Sim q w' (k₁ ()) (k₂ ()) (Machine.withFiber ⟨h₁, m₁.control⟩ { m₁.control.sched.current with
        frames := a :: m₁.control.sched.current.frames }) n₂) :
    Sim q w
      (do
        let pc ← Exec.asksFiber (·.pc)
        let env ← Exec.asksFiber (·.env)
        let a ← Exec.allocating fun roots => Heap.newCallframe roots pc env
        Exec.pushFrame a >>= k₁)
      (do
        let pc ← Exec.asksFiber (·.pc)
        let env ← Exec.asksFiber (·.env)
        let a ← Exec.allocating fun roots => Heap.newCallframe roots pc env
        Exec.pushFrame a >>= k₂) m₁ m₂ := by
  refine .asksFiber alike (.asksFiber alike ?_)
  rw [Fiber.rename_env, Fiber.rename_pc]
  refine .take alike alive (alike.shared.newCallframe (alike.typed alive).env _) (subset_pins _ _ _) ?_
  intro a h₁ h₂ w' gives _ _ alike
  refine .pushFrame alike gives.role fun n₂ alike _ => ?_
  exact rest a h₁ w' n₂ (gives.ext.subset (subset_pins _ _ _)) (gives.kept₁.subset (subset_pins _ _ _)) alike

theorem Sim.enterClosure {tail : Bool} (alike : m₁.Alike q w m₂)
    (alive : m₁.control.sched.current.state ≠ .terminated) (value : IsValue w.role fn)
    (mem : fn ∈ m₁.control.sched.current.operands) (tag : Heap.tagAt m₁.heap.words fn = .closure)
    (sub : args ⊆ m₁.control.sched.current.operands) (settled : ∀ x, ¬ w.recent x) :
    Sim q w (Exec.enterClosure fn args tail) (Exec.enterClosure (w.image fn) (args.map w.image) tail)
      m₁ m₂ := by
  unfold Exec.enterClosure
  rw [List.length_map]
  obtain ⟨_, _, _, closure, -⟩ := alike.closure value tag
  have operand : ∀ {x}, x ∈ m₁.control.sched.current.operands → x ∈ m₁.control.roots ++ m₁.heap.pinned :=
    fun mem => List.mem_append_left _ (Machine.operand_mem_roots alive mem)
  have values := (alike.typed alive).operands
  refine .newFrame alike alive fun frame h₁ h₂ w₁ ext role high kept s₁ s₂ alike => ?_
  have value₁ := ext.value (operand mem) value
  have images : args.map w.image = args.map w₁.image :=
    List.map_congr_left fun x inside => (ext.image x (.inl (operand (sub inside)))).symm
  rw [images, ← ext.image fn (.inl (operand mem))]
  refine .fillFrame alike role high (fun x inside => ⟨?_, fun recent => ?_⟩) s₁ s₂ ?_
  · exact ext.value (operand (sub inside)) (values x (sub inside))
  · exact settled x (ext.recent x (operand (sub inside)) recent)
  intro h₁' h₂' u₁ alike'
  -- The frame is another node than the function.
  have apart : fn ≠ frame := by
    rintro rfl
    rcases value₁ with int | value
    · cases alike.heap.unique fn _ _ int role
    · cases alike.heap.unique fn _ _ value role
  obtain ⟨k, pc, e, t₁, -⟩ := alike.closure value₁ ((kept.tagAt closure.node (operand mem)).trans tag)
  have tag₁ : Heap.tagAt h₁'.words fn = .closure := (u₁.toOnly.shows apart t₁).tagAt
  refine .withPins alike' (fun x mem => ⟨_, List.mem_singleton.1 mem ▸ role⟩) fun alike => ?_
  cases tail with
  | true => exact .dropBlockframes alike alive fun frames n₂ alike _ =>
      .enterBody alike alive value₁ mem tag₁ role high
  | false =>
    simp only [Bool.false_eq_true, if_false]
    refine .pushCaller alike alive fun b h₁'' w₂ n₂ ext' kept' alike₂ => ?_
    have live : fn ∈ (Machine.addPins ⟨h₁', m₁.control⟩ [frame]).control.roots := Machine.operand_mem_roots alive mem
    have pinned : frame ∈ (Machine.addPins ⟨h₁', m₁.control⟩ [frame]).heap.pinned :=
      List.mem_append_right _ List.mem_cons_self
    have node : Heap.NodeIn h₁'.words fn := (u₁.toOnly.shows apart t₁).node
    rw [← ext'.image fn (.inl (List.mem_append_left _ live)),
      ← ext'.image frame (.inl (List.mem_append_right _ pinned))]
    refine .enterBody alike₂ alive (ext'.value (List.mem_append_left _ live) value₁) mem ?_ ?_ high
    · exact (kept'.tagAt node (List.mem_append_left _ live)).trans tag₁
    · exact ext'.role frame _ (.inl (List.mem_append_right _ pinned)) role

theorem Node.Fits.row {D : Typing} {r : Role} {b : Builtin} {k : Nat} (fits : (Node.builtin b k).Fits D r) :
    Builtin.table[b.number.toNat]?.map (·.2) = some k := by
  cases r with
  | value => exact fits
  | _ => exact fits.elim

theorem operands_of_unary {operands : List Addr} {k : Nat} {x : Addr} (one : k = 1)
    (get : operands[k]? = some fn) (mem : x ∈ (operands.take k).reverse) :
    ∃ rest, operands = x :: fn :: rest := by
  subst one
  cases operands with
  | nil => cases get
  | cons y operands =>
    cases operands with
    | nil => cases get
    | cons z rest =>
      obtain rfl : x = y := by simpa using mem
      obtain rfl : z = fn := by simpa using get
      exact ⟨rest, rfl⟩

theorem Sim.call {arity : Int} {tail : Bool} (alike : m₁.Alike q w m₂)
    (running : m₁.control.sched.current.state = .running) (settled : ∀ x, ¬ w.recent x)
    (prints : q.quiet → arity = 1 → ∀ x f rest, m₁.control.sched.current.operands = x :: f :: rest →
      Shows m₁.heap.words f (.builtin .println 1) → ∀ n, Shows m₁.heap.words x n → ¬ n.IsReference) :
    Sim q w (Exec.call arity tail) (Exec.call arity tail) m₁ m₂ := by
  have alive : m₁.control.sched.current.state ≠ .terminated := by rw [running]; decide
  unfold Exec.call
  by_cases negative : arity < 0
  · rw [if_pos negative]
    exact .raise alike rfl
  rw [if_neg negative]
  refine .peek alike alive fun fn get value => .asksFiber alike ?_
  obtain ⟨n, r, role, s₁, admits, s₂⟩ := alike.node value
  have sub : (m₁.control.sched.current.operands.take arity.toNat).reverse ⊆
      m₁.control.sched.current.operands := fun x mem => List.mem_of_mem_take (List.mem_reverse.1 mem)
  have images : ((m₁.control.sched.current.rename w.image).operands.take arity.toNat).reverse =
      (m₁.control.sched.current.operands.take arity.toNat).reverse.map w.image := by
    rw [Fiber.rename_operands, List.map_reverse, List.map_take]
  have length : (m₁.control.sched.current.operands.take arity.toNat).reverse.length = arity.toNat := by
    have lt := (List.getElem?_eq_some_iff.1 get).1
    rw [List.length_reverse, List.length_take]
    omega
  have values := (alike.typed alive).operands
  rw [images]
  refine .tagOf s₁ s₂ ?_
  by_cases builtin : n.tag = .builtin
  · rw [if_pos builtin, if_pos builtin]
    obtain ⟨b, k, rfl⟩ := s₁.builtin_of_tag builtin
    refine .read (.builtinAt _) (.builtinAt _) (Heap.builtinAt_shows s₁) (Heap.builtinAt_shows s₂) ?_
    dsimp only
    by_cases other : arity.toNat ≠ k
    · rw [if_pos other, if_pos other]
      exact .raise alike rfl
    · rw [if_neg other, if_neg other]
      obtain rfl := Classical.not_not.1 other
      have row := admits.fits.row
      refine .drop alike fun n₂ alike _ => .builtin alike running ?_ (row.trans (congrArg some length.symm)) ?_
      · exact fun x mem => values x (sub mem)
      · rintro h rfl x mem
        have one : 1 = arity.toNat := Option.some.inj row
        obtain ⟨rest, operands⟩ := operands_of_unary one.symm get mem
        exact prints h (by omega) x fn rest operands (one ▸ s₁)
  · rw [if_neg builtin, if_neg builtin]
    by_cases closure : n.tag = .closure
    · rw [if_pos closure, if_pos closure]
      obtain ⟨k, pc, e, rfl⟩ := s₁.closure_of_tag closure
      refine .read (.closureArity _) (.closureArity _) (Heap.closureArity_shows s₁)
        (Heap.closureArity_shows s₂) ?_
      by_cases other : arity.toNat ≠ k
      · rw [if_pos other, if_pos other]
        exact .raise alike rfl
      · rw [if_neg other, if_neg other]
        exact .enterClosure alike alive value (List.mem_of_getElem? get) s₁.tagAt sub settled
    · rw [if_neg closure, if_neg closure]
      exact .raise alike rfl

end

end FiberVm
