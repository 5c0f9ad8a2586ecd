import FiberVm.Proofs.Machine.Level
import FiberVm.Proofs.Machine.Orderly

/-!
# What an instruction does to the runtime stack

A call of a closure and the opening of a block put one frame on the stack. A return and the closing of a
block take one off, and go on from what is saved in it. A tail call takes off the blocks above the topmost
call. Everything else leaves the stack alone, and nothing changes a frame that stays on some stack. An
instruction that does not assign, and by which fibers do not meet, writes to new nodes only.
-/

set_option autoImplicit false

namespace FiberVm

open Heap (Shows Has IsAddress NodeIn Shaped Linked Updates IsSync tagAt)

theorem toNat_ofInt_of_lt {k : Int} (nonneg : 0 ≤ k) (small : k < UInt32.size) : ((UInt32.ofInt k).toNat : Int) = k := by
  have size : UInt32.size = 4294967296 := rfl
  rw [UInt32.ofInt, UInt32.toNat_ofNat']
  omega

/-- What is left of a runtime stack without the blocks above its topmost call, if there is a call. -/
inductive Unwinds (is : Addr → Tag → Prop) : List Addr → Option (List Addr) → Prop
  | outside : Unwinds is [] none
  | call {a : Addr} {rest : List Addr} : is a .callframe → Unwinds is (a :: rest) (some (a :: rest))
  | block {b : Addr} {frames : List Addr} {left : Option (List Addr)} : is b .blockframe → Unwinds is frames left →
    Unwinds is (b :: frames) left

namespace Unwinds

variable {is is' : Addr → Tag → Prop} {frames : List Addr} {left : Option (List Addr)}

theorem suffix (unwinds : Unwinds is frames left) : left.getD frames <:+ frames := by
  induction unwinds with
  | outside => exact List.suffix_refl _
  | call => exact List.suffix_refl _
  | @block b frames left _ _ ih =>
    cases left with
    | none => exact List.suffix_refl _
    | some left => exact ih.trans (List.suffix_cons b frames)

theorem imp (unwinds : Unwinds is frames left) (weaker : ∀ a ∈ frames, ∀ t, is a t → is' a t) :
    Unwinds is' frames left := by
  induction unwinds with
  | outside => exact .outside
  | call here => exact .call (weaker _ List.mem_cons_self _ here)
  | block here _ ih =>
    exact .block (weaker _ List.mem_cons_self _ here) (ih fun a mem => weaker a (List.mem_cons_of_mem _ mem))

end Unwinds

/-- The function below the arguments of a call is a closure. -/
def Machine.CallsClosure (m : Machine) (arity : Int) : Prop :=
  ∃ fn, m.control.sched.current.operands[arity.toNat]? = some fn ∧ Has m.heap.words fn .closure

namespace Treads

variable {β : Type} {c : Code} {P : Int → Prop} {v : Scene} {m : Machine} {Q : β → Machine → Prop} {fn : Addr}
  {args : List Addr}

theorem popFrame {k : Addr → Exec β} (poised : m.Poised c P v)
    (rest : ∀ a l, v.own.frames = a :: l →
      (m.withFiber { m.control.sched.current with frames := l }).Poised c P
        { v with own := { v.own with frames := l } } →
      Treads c P Q (k a) (m.withFiber { m.control.sched.current with frames := l })) :
    Treads c P Q (Exec.popFrame >>= k) m := by
  have frames := poised.current_frames
  unfold Exec.popFrame
  rw [bind_assoc]
  refine asksFiber ?_
  rw [frames]
  cases top : v.own.frames with
  | nil => exact fault poised.toSturdy
  | cons a l => exact step rfl (rest a l top (poised.setFrames (top ▸ List.subset_cons_self a l)))

theorem fromCallframe {k : Option (List Addr) → Exec β} (sturdy : m.Sturdy c P) (frames : List Addr)
    (all : ∀ a ∈ frames, Has m.heap.words a .callframe ∨ Has m.heap.words a .blockframe)
    (rest : ∀ left, Unwinds (Has m.heap.words) frames left → Treads c P Q (k left) m) :
    Treads c P Q (Exec.fromCallframe frames >>= k) m := by
  induction frames generalizing k with
  | nil => exact rest none .outside
  | cons a frames ih =>
    unfold Exec.fromCallframe
    rw [bind_assoc]
    have node : NodeIn m.heap.words a := (all a List.mem_cons_self).elim And.left And.left
    refine tagOf sturdy (.inr node) fun t has => ?_
    split
    · next call => exact rest (some (a :: frames)) (.call (call ▸ has))
    · next other =>
      have block : Has m.heap.words a .blockframe :=
        (all a List.mem_cons_self).resolve_left fun call => other (has.2.symm.trans call.2)
      exact ih (fun b mem => all b (List.mem_cons_of_mem a mem)) fun left unwinds => rest left (.block block unwinds)

theorem dropBlockframes {k : Unit → Exec β} (poised : m.Poised c P v)
    (rest : ∀ left, Unwinds (Has m.heap.words) v.own.frames left →
      (m.withFiber { m.control.sched.current with frames := left.getD v.own.frames }).Poised c P
        { v with own := { v.own with frames := left.getD v.own.frames } } →
      Treads c P Q (k ()) (m.withFiber { m.control.sched.current with frames := left.getD v.own.frames })) :
    Treads c P Q (Exec.dropBlockframes >>= k) m := by
  have frames := poised.current_frames
  have all := poised.typed.frames
  unfold Exec.dropBlockframes
  rw [bind_assoc]
  refine asksFiber ?_
  rw [frames] at all ⊢
  rw [bind_assoc]
  refine fromCallframe poised.toSturdy v.own.frames all fun left unwinds => ?_
  have onward := rest left unwinds (poised.setFrames unwinds.suffix.subset)
  cases left with
  | some left => exact step rfl onward
  | none =>
    have same : m.withFiber { m.control.sched.current with frames := v.own.frames } = m := by rw [← frames]; rfl
    rw [Option.getD_none, same] at onward
    exact step rfl onward

/-- The last part of entering a closure. The closure is still an operand, and the frame of its arguments is
pinned. -/
theorem enterBody {frame : Addr} {n : Nat} (poised : m.Poised c P v) (mem : fn ∈ m.control.sched.current.operands)
    (has : Has m.heap.words fn .closure) (arguments : Has m.heap.words frame .frame) :
    Treads c P (fun _ m' => ∃ pc env, m'.Poised c P { v with own := { v.own with pc, env } })
      (do
        let captured ← Exec.onHeap (Heap.closureEnv fn)
        let env ← Exec.allocating fun roots => Heap.extend roots captured frame
        Exec.drop n
        Exec.setEnv env
        Exec.jump (← Exec.onHeap (Heap.closurePc fn))) m := by
  obtain ⟨node, s, linked, tag⟩ := poised.shaped.has has nofun
  obtain ⟨k, pc, captured, rfl⟩ := s.closure_of_tag tag
  have environment := linked.ties (captured, .environment) List.mem_cons_self
  have entry : P pc := linked.entries pc List.mem_cons_self
  refine onHeap (Heap.closureEnv_shows s) ?_
  obtain ⟨frames, -, makes⟩ := Heap.extend_makes poised.shaped poised.start environment arguments
  refine make poised (Heap.extend_anyOrder poised.shaped poised.start environment arguments) makes
    (show ¬ IsSync .environment by decide) fun env h grows made poised => ?_
  have root : fn ∈ m.control.roots := Machine.operand_mem_roots poised.alive mem
  have s := grows.shows s (.inr (List.mem_append_left _ root))
  refine drop poised fun poised => step rfl (step (onHeap_ok (Heap.closurePc_shows s)) ?_)
  exact of_ok rfl ⟨pc, env, (poised.setEnv made.1.has).jump entry⟩

/-- A closure has been entered: a call leaves a frame that says where it comes from, a tail call takes off the
blocks of the activation that it replaces. -/
def Entered (c : Code) (P : Int → Prop) (v : Scene) (tail : Bool) (m : Machine) : Prop :=
  ∃ pc env, if tail then
      ∃ left, Unwinds (fun a t => ∀ n, v.watched a n → n.tag = t) v.own.frames left ∧
        m.Poised c P { v with own := { v.own with frames := left.getD v.own.frames, pc, env } }
    else
      ∃ a, m.Poised c P { v.enter a (.callframe (UInt32.ofInt v.own.pc).toNat v.own.env) with
        own := { v.own with frames := a :: v.own.frames, pc, env } }

theorem enterClosure {tail : Bool} (poised : m.Poised c P v) (mem : fn ∈ m.control.sched.current.operands)
    (has : Has m.heap.words fn .closure) (values : ∀ a ∈ args, IsAddress m.heap.words a)
    (entry : P (UInt32.ofInt v.own.pc).toNat) :
    Treads c P (fun _ m' => Entered c P v tail m') (Exec.enterClosure fn args tail) m := by
  have root : fn ∈ m.control.roots := Machine.operand_mem_roots poised.alive mem
  unfold Exec.enterClosure
  refine make poised (Heap.newFrame_anyOrder poised.shaped poised.start _)
    (Heap.newFrame_makes poised.shaped poised.start args.length) (show ¬ IsSync .frame by decide)
    fun frame h grows ⟨made, mints⟩ blank => ?_
  have closure := grows.has has nofun (.inr (List.mem_append_left _ root))
  have room : (List.replicate (args.length : Int).toNat Heap.unassigned).length = args.length := by simp
  obtain ⟨h', run, u⟩ := Heap.forM_zipIdx_setChild [] made room
  -- Writing to the frame is seen together with making it: only then it is new.
  have slight : m.heap.Slight h' := (mints.only u.toOnly made.layout.tagAt_ne).slight (u.shows.tagAt ▸ show ¬ IsSync .frame by decide)
  have filled := blank.update u made.tagAt
    (.of_plain rfl rfl fun x mem => (Heap.isAddress_congr grows.size).2 (values x mem)) nofun
    (poised.meets (.of_heap slight))
  have closure : Has h'.words fn .closure := u.has made.tagAt closure
  have arguments : Has h'.words frame .frame := u.shows.has
  refine onHeap run ?_
  refine withPins (Q := fun _ m' => Entered c P v tail m') ?_ ?_
  · have pinned := filled.addPins [frame] (by simpa using .inr u.shows.node)
    cases tail with
    | true =>
      refine dropBlockframes pinned fun left unwinds poised => ?_
      refine (enterBody poised mem closure arguments).imp fun _ m' => ?_
      rintro ⟨pc, env, entered⟩
      refine ⟨pc, env, left, unwinds.imp fun a inside t has n watched => ?_, entered⟩
      have s := (pinned.watched a n watched (List.mem_append_left _ inside)).1
      exact s.tagAt.symm.trans has.2
    | false =>
      refine asksFiber (asksFiber ?_)
      have pc : (Machine.addPins ⟨h', m.control⟩ [frame]).control.sched.current.pc = v.own.pc :=
        congrArg Context.pc pinned.own
      have env : (Machine.addPins ⟨h', m.control⟩ [frame]).control.sched.current.env = v.own.env :=
        congrArg Context.env pinned.own
      rw [pc, env]
      refine make pinned (Heap.newCallframe_anyOrder pinned.shaped pinned.start pinned.env _)
        (Heap.newCallframe_makes pinned.shaped pinned.start pinned.env v.own.pc entry)
        (show ¬ IsSync .callframe by decide) ?_
      intro a h₁ grows ⟨made, _⟩ poised
      have closure := grows.has closure nofun (.inr (List.mem_append_left _ root))
      have arguments := grows.has arguments nofun (.inr (List.mem_append_right _
        (List.mem_append_right _ List.mem_cons_self)))
      refine step rfl ((enterBody (poised.pushFrame made (.inl rfl)) mem closure arguments).imp fun _ m' => ?_)
      rintro ⟨pc, env, entered⟩
      exact ⟨pc, env, a, entered⟩
  · rintro _ m' ⟨pc, env, entered⟩
    refine ⟨pc, env, ?_⟩
    cases tail with
    | true =>
      obtain ⟨left, unwinds, poised⟩ := entered
      exact ⟨left, unwinds, poised.release _⟩
    | false =>
      obtain ⟨a, poised⟩ := entered
      exact ⟨a, poised.release _⟩

theorem call {arity : Int} {tail : Bool} (free : ¬ m.CallsClosure arity → ∀ m', v.met m') (poised : m.Poised c P v)
    (running : m.control.sched.current.state = .running) (entry : P (UInt32.ofInt v.own.pc).toNat) :
    Treads c P (fun _ m' => (m.CallsClosure arity → Entered c P v tail m') ∧
      (¬ m.CallsClosure arity → m'.Poised c P v)) (Exec.call arity tail) m := by
  unfold Exec.call
  split
  · exact fault poised.toSturdy
  refine peek poised fun fn get is => asksFiber (tagOf poised.toSturdy is fun t has => ?_)
  have values : ∀ a ∈ (m.control.sched.current.operands.take arity.toNat).reverse, IsAddress m.heap.words a :=
    fun a mem => poised.operand (List.mem_of_mem_take (List.mem_reverse.1 mem))
  -- The function that is called is this one.
  have callee : m.CallsClosure arity → t = .closure := by
    rintro ⟨fn', get', closure⟩
    obtain rfl : fn = fn' := Option.some.inj (get.symm.trans get')
    exact has.2.symm.trans closure.2
  split
  · next isBuiltin =>
    have none : ¬ m.CallsClosure arity := fun calls => by cases isBuiltin.symm.trans (callee calls)
    refine read poised.toSturdy (Exec.still_onHeap (Heap.still_builtinAt fn)) fun row _ => ?_
    dsimp only
    split
    · exact fault poised.toSturdy
    · refine drop poised fun poised => (builtin (free none) poised running values).imp fun _ m' poised => ?_
      exact ⟨fun calls => absurd calls none, fun _ => poised⟩
  split
  · next closure =>
    have calls : m.CallsClosure arity := ⟨fn, get, closure ▸ has⟩
    refine read poised.toSturdy (Exec.still_onHeap ((Heap.still_field fn 3).bind fun _ => .pure _)) fun want _ => ?_
    split
    · exact fault poised.toSturdy
    · refine (enterClosure poised (List.mem_of_getElem? get) (closure ▸ has) values entry).imp fun _ m' entered => ?_
      exact ⟨fun _ => entered, fun none => absurd calls none⟩
  · exact fault poised.toSturdy

theorem enterScope {n : Int} (poised : m.Poised c P v) :
    Treads c P (fun _ m' => ∃ b env, m'.Poised c P { v.enter b (.blockframe v.own.env) with
      own := { v.own with frames := b :: v.own.frames, env } }) (Exec.enterScope n) m := by
  have own : m.control.sched.current.env = v.own.env := congrArg Context.env poised.own
  unfold Exec.enterScope
  refine asksFiber ?_
  rw [own]
  refine make poised (Heap.newBlockframe_anyOrder poised.shaped poised.start poised.env)
    (Heap.newBlockframe_makes poised.shaped poised.start poised.env) (show ¬ IsSync .blockframe by decide)
    fun b h _ ⟨made, _⟩ poised => ?_
  have entered := poised.pushFrame made (.inr rfl)
  refine step rfl (make entered (Heap.newFrame_anyOrder entered.shaped entered.start n)
    (Heap.newFrame_makes entered.shaped entered.start n) (show ¬ IsSync .frame by decide) ?_)
  intro frame h₁ _ ⟨made, _⟩ poised
  obtain ⟨frames, -, makes⟩ := Heap.extend_makes poised.shaped poised.start poised.env made.has
  refine make poised (Heap.extend_anyOrder poised.shaped poised.start poised.env made.has) makes
    (show ¬ IsSync .environment by decide) fun env h₂ _ ⟨made, _⟩ poised => ?_
  exact of_ok rfl ⟨b, env, poised.setEnv made.has⟩

theorem exitScope (poised : m.Poised c P v) :
    Treads c P (fun _ m' => ∃ b l env, v.own.frames = b :: l ∧ Shows m.heap.words b (.blockframe env) ∧
      m'.Poised c P { v with own := { v.own with frames := l, env } }) Exec.exitScope m := by
  unfold Exec.exitScope
  refine popFrame poised fun b l frames popped => ?_
  obtain ⟨n, s, -⟩ := poised.activation (frames ▸ List.mem_cons_self)
  refine tagOf popped.toSturdy (.inr s.node) fun t has => ?_
  split
  · next block =>
    obtain ⟨n, s, linked, tag⟩ := popped.shaped.has has (block ▸ nofun)
    obtain ⟨env, rfl⟩ := s.blockframe_of_tag (tag.trans block)
    refine onHeap (Heap.blockframeEnv_shows s) (of_ok rfl ⟨b, l, env, frames, s, ?_⟩)
    exact popped.setEnv (linked.ties (env, .environment) List.mem_cons_self)
  · exact fault popped.toSturdy

theorem reset (poised : m.Poised c P v) (back : P (v.own.pc - 1)) :
    Treads c P (fun _ m' => ∃ a l, v.own.frames = a :: l ∧
      ((∃ (pc : Nat) (env : Addr), Shows m.heap.words a (.callframe pc env) ∧
          m'.Poised c P { v with own := { v.own with frames := l, pc, env } }) ∨
        Has m.heap.words a .blockframe ∧
          m'.Poised c P { v with own := { v.own with frames := l, pc := v.own.pc - 1 } })) Exec.reset m := by
  unfold Exec.reset
  refine popFrame poised fun a l frames popped => ?_
  obtain ⟨n, s, -⟩ := poised.activation (frames ▸ List.mem_cons_self)
  refine tagOf popped.toSturdy (.inr s.node) fun t has => ?_
  split
  · next call =>
    obtain ⟨n, s, linked, tag⟩ := popped.shaped.has has (call ▸ nofun)
    obtain ⟨pc, env, rfl⟩ := s.callframe_of_tag (tag.trans call)
    have entry : P pc := linked.entries pc List.mem_cons_self
    refine onHeap (Heap.callframePc_shows s) (step rfl (onHeap (Heap.callframeEnv_shows s) (of_ok rfl ?_)))
    refine ⟨a, l, frames, .inl ⟨pc, env, s, ?_⟩⟩
    exact (popped.jump entry).setEnv (linked.ties (env, .environment) List.mem_cons_self)
  split
  · next block =>
    refine asksFiber (of_ok rfl ⟨a, l, frames, .inr ⟨block ▸ has, ?_⟩⟩)
    have pc : m.control.sched.current.pc = v.own.pc := congrArg Context.pc poised.own
    rw [← pc] at back
    exact pc ▸ popped.jump back
  · exact fault popped.toSturdy

theorem startFiber {stop : Int} (free : ∀ m', v.met m') (poised : m.Poised c P v)
    (inside : ∀ pc : Int, 0 ≤ pc → pc ≤ c.size → P pc) (pos : 0 ≤ v.own.pc) :
    Treads c P (fun _ m' => ∃ others pc, others.Perm (⟨v.nextId, v.own.pc, v.own.env, []⟩ :: v.others) ∧
      m'.Poised c P { v with own := { v.own with pc }, others, nextId := v.nextId + 1 }) (Exec.startFiber stop) m := by
  have starts : ∀ last : Int, Treads c P (fun _ m' => ∃ others pc,
      others.Perm (⟨v.nextId, v.own.pc, v.own.env, []⟩ :: v.others) ∧
        m'.Poised c P { v with own := { v.own with pc }, others, nextId := v.nextId + 1 })
      (do
        if last < v.own.pc ∨ (← Exec.asks fun c => (c.code.size : Int)) ≤ last then FiberVm.fault (.stopOutOfRange last)
        else
          let env ← Exec.asksFiber (·.env)
          Exec.modifySched fun s => s.spawn v.own.pc env
          Exec.jump (last + 1)) m := by
    intro last
    refine asks (fun _ _ => rfl) ?_
    split
    · exact fault poised.toSturdy
    · next fits =>
      rw [poised.code] at fits
      obtain ⟨others, perm, spawned⟩ := poised.spawn free
      have env : m.control.sched.current.env = v.own.env := congrArg Context.env poised.own
      refine asksFiber ?_
      rw [env]
      exact step rfl (of_ok rfl ⟨others, last + 1, perm, spawned.jump (inside _ (by omega) (by omega))⟩)
  have own : m.control.sched.current.pc = v.own.pc := congrArg Context.pc poised.own
  unfold Exec.startFiber
  refine asksFiber ?_
  rw [own]
  dsimp only
  split
  · exact read poised.toSturdy (Exec.still_findStop _) fun last _ => starts last
  · exact read poised.toSturdy (.pure stop) fun last _ => starts last

theorem done (poised : m.Poised c P v) : Treads c P (fun _ m' => m'.Poised c P v) (Exec.instr .done) m := by
  refine asksFiber (of_ok rfl ?_)
  refine ⟨⟨poised.code, poised.shaped, poised.fit, poised.counters, poised.pins, ?_⟩, poised.alive, poised.own,
    poised.others, poised.nextId, poised.watched, fun m' slight => poised.met m' ⟨slight.heap, slight.sched⟩⟩
  rintro a ⟨⟩
  cases top : m.control.sched.current.operands.head? with
  | none => exact show IsAddress m.heap.words Heap.unassigned from reserved poised (by decide) (by decide)
  | some a => exact poised.operand (List.mem_of_head? top)

end Treads

/-- What an instruction of the current fiber does to its runtime stack. The program counter is already at the
next instruction. -/
def Footing (m : Machine) (h : Heap) (k : Context) : Instr → Prop
  | .call arity =>
    (m.CallsClosure arity → ∃ a, k.frames = a :: m.current.frames ∧
      Shows h.words a (.callframe (UInt32.ofInt m.current.pc).toNat m.current.env)) ∧
    (¬ m.CallsClosure arity → k = m.current.context)
  | .tailCall arity =>
    (m.CallsClosure arity → ∃ left, Unwinds (Has m.heap.words) m.current.frames left ∧
      k.frames = left.getD m.current.frames) ∧
    (¬ m.CallsClosure arity → k = m.current.context)
  | .reset => ∃ a, m.current.frames = a :: k.frames ∧
    ((∃ pc : Nat, k.pc = pc ∧ Shows m.heap.words a (.callframe pc k.env)) ∨ Has m.heap.words a .blockframe)
  | .enterScope _ => ∃ b, k.frames = b :: m.current.frames ∧ Shows h.words b (.blockframe m.current.env)
  | .exitScope => ∃ b, m.current.frames = b :: k.frames ∧ Shows m.heap.words b (.blockframe k.env)
  | _ => k.frames = m.current.frames

/-- Where an instruction leads to, and the entry of a function that it makes, satisfy `P`. -/
def Instr.Lands (P : Int → Prop) : Instr → Prop
  | .jumpOnFalse target | .goto target => P target
  | .loadFunc _ entry => P (UInt32.ofInt entry).toNat
  | _ => True

namespace Machine

/-- The instruction neither assigns nor is one by which fibers start, end or meet. -/
def Light (m : Machine) : Instr → Prop
  | .assign _ _ | .send | .recv | .startFiber _ | .stopFiber | .makeWaitGroup => False
  | .call arity | .tailCall arity => m.CallsClosure arity
  | _ => True

/-- Where the fibers are. -/
def contexts (m : Machine) : List Context := m.fibers.map Fiber.context

/-- The entries of all runtime stacks. -/
def activations (m : Machine) : List Addr := m.contexts.flatMap Context.frames

/-- The entries that stay on some runtime stack are what they were. -/
def Keeps (m m' : Machine) : Prop :=
  ∀ a n, Shows m.heap.words a n → n.IsActivation → a ∈ m.activations → a ∈ m'.activations → Shows m'.heap.words a n

/-- What an instruction does to the fibers. -/
inductive Advances (i : Instr) (m m' : Machine) : Prop
  /-- The current fiber goes on somewhere, and others may have been started. -/
  | goes (k : Context) (new : List Context) : k.id = m.current.id → Footing m m'.heap k i →
    (∀ x ∈ new, m.control.sched.nextId ≤ x.id) →
    m'.contexts.Perm (k :: (new ++ m.control.sched.others.map Fiber.context)) → Advances i m m'
  | ends : i = .stopFiber → m'.contexts.Perm (m.control.sched.others.map Fiber.context) → Advances i m m'

/-- What an instruction does. -/
structure Passes (c : Code) (P : Int → Prop) (i : Instr) (m m' : Machine) : Prop where
  sturdy : m'.Sturdy c P
  keeps : m.Keeps m'
  advances : m.Advances i m'
  nextId : m.control.sched.nextId ≤ m'.control.sched.nextId
  slight : m.Light i → m.Slight m'

/-- All that is on a runtime stack is in view when an instruction begins. -/
def scene (m : Machine) (i : Instr) : Scene :=
  { own := m.current.context
    others := m.control.sched.others.map Fiber.context
    nextId := m.control.sched.nextId
    watched := fun a n => Shows m.heap.words a n ∧ n.IsActivation
    met := fun m' => m.Light i → m.Slight m' }

section

variable {c : Code} {P : Int → Prop} {v : Scene} {m m' : Machine} {i : Instr}

theorem Sturdy.poised (sturdy : m.Sturdy c P) (alive : m.current.state ≠ .terminated) (i : Instr) :
    m.Poised c P (m.scene i) :=
  ⟨sturdy, alive, rfl, rfl, rfl, fun _ _ watched _ => watched, fun _ slight _ => slight⟩

theorem Poised.perm (poised : m.Poised c P v) : m.contexts.Perm (v.own :: v.others) := by
  have table := m.control.sched.perm_live.map Fiber.context
  rw [if_neg poised.alive, List.singleton_append, List.map_cons, poised.own, poised.others] at table
  exact table

theorem Poised.mem_activations (poised : m.Poised c P v) {a : Addr} (mem : a ∈ m.activations) :
    a ∈ v.activations := by
  obtain ⟨k, live, frame⟩ := List.mem_flatMap.1 mem
  rcases List.mem_cons.1 (poised.perm.mem_iff.1 live) with rfl | other
  · exact List.mem_append_left _ frame
  · exact List.mem_append_right _ (List.mem_flatMap.2 ⟨k, other, frame⟩)

/-- An instruction is over, and what was on the runtime stacks is still watched. -/
theorem Poised.passes (start : m.Poised c P (m.scene i)) (poised : m'.Poised c P v)
    (kept : ∀ a n, (m.scene i).watched a n → a ∈ (m.scene i).activations → v.watched a n)
    (id : v.own.id = m.current.id) (footing : Footing m m'.heap v.own i) (new : List Context)
    (fresh : ∀ x ∈ new, m.control.sched.nextId ≤ x.id)
    (others : v.others.Perm (new ++ (m.scene i).others)) (nextId : m.control.sched.nextId ≤ v.nextId)
    (same : v.met = (m.scene i).met) : m.Passes c P i m' := by
  refine ⟨poised.toSturdy, fun a n s activation before after => ?_, ?_, poised.nextId ▸ nextId, fun light => ?_⟩
  · refine (poised.watched a n (kept a n ⟨s, activation⟩ ?_) (poised.mem_activations after)).1
    exact start.mem_activations before
  · exact .goes v.own new id footing fresh (poised.perm.trans (others.cons _))
  · have met := poised.met m' (.refl m')
    rw [same] at met
    exact met light

/-- An instruction that takes nothing off the runtime stack but what its footing says. -/
theorem Poised.passes_own (start : m.Poised c P (m.scene i)) {k : Context}
    (poised : m'.Poised c P { m.scene i with own := k }) (id : k.id = m.current.id) (footing : Footing m m'.heap k i) :
    m.Passes c P i m' :=
  start.passes poised (fun _ _ watched _ => watched) id footing [] nofun (.refl _) (Nat.le_refl _) rfl

/-- An instruction that puts the frame `a` on the runtime stack. -/
theorem Poised.passes_entered (start : m.Poised c P (m.scene i)) {a : Addr} {n : Node} {k : Context}
    (poised : m'.Poised c P { (m.scene i).enter a n with own := k }) (id : k.id = m.current.id) (top : a ∈ k.frames)
    (footing : Shows m'.heap.words a n → Footing m m'.heap k i) : m.Passes c P i m' := by
  have frame : Shows m'.heap.words a n := (poised.watched a n (.inr ⟨rfl, rfl⟩) (List.mem_append_left _ top)).1
  exact start.passes poised (fun b n watched mem => .inl ⟨watched, mem⟩) id (footing frame) [] nofun (.refl _)
    (Nat.le_refl _) rfl

theorem Poised.passes_level (start : m.Poised c P (m.scene i)) (poised : m'.Poised c P (m.scene i))
    (footing : Footing m m'.heap (m.scene i).own i) : m.Passes c P i m' := start.passes_own poised rfl footing

/-- An entry that the view says to have a tag has it. -/
theorem Poised.has (start : m.Poised c P (m.scene i)) {a : Addr} (mem : a ∈ m.current.frames) {t : Tag}
    (is : ∀ n, (m.scene i).watched a n → n.tag = t) : Has m.heap.words a t := by
  obtain ⟨n, s, activation⟩ := start.activation mem
  exact is n ⟨s, activation⟩ ▸ s.has

theorem Sturdy.instr (sturdy : m.Sturdy c P) (running : m.current.state = .running)
    (inside : ∀ pc : Int, 0 ≤ pc → pc ≤ c.size → P pc) (entry : P (UInt32.ofInt m.current.pc).toNat)
    (range : 0 < m.current.pc ∧ m.current.pc ≤ c.size) (lands : i.Lands P) :
    Treads c P (fun _ m' => m.Passes c P i m') (Exec.instr i) m := by
  have start := sturdy.poised (by rw [running]; decide) i
  unfold Exec.instr
  cases i with
  | loadConst v =>
    refine .build start (Heap.box_anyOrder start.shaped start.start v) ?_ fun a h is poised =>
      (Treads.push poised is).imp fun _ m' poised => start.passes_level poised rfl
    exact Heap.box_builds start.shaped start.start v
  | load pos sym =>
    refine .asksFiber (.load start fun a is => ?_)
    split
    · exact .fault sturdy
    · exact (Treads.push start is).imp fun _ m' poised => start.passes_level poised rfl
  | loadFunc arity entry =>
    refine .asksFiber (.build start (Heap.newClosure_anyOrder start.shaped start.start start.env arity entry) ?_
      fun a h is poised => (Treads.push poised is).imp fun _ m' poised => start.passes_level poised rfl)
    have makes := Heap.newClosure_makes start.shaped start.start start.env arity entry lands
    exact makes.builds (show ¬ IsSync .closure by decide)
  | assign pos sym =>
    refine .peek start fun a _ is => .asksFiber ((Treads.assign (fun _ => False.elim) start is).imp fun _ m' poised => ?_)
    exact start.passes_level poised rfl
  | binary op =>
    refine .peek start fun y _ _ => .peek start fun x _ _ => .binary start fun a h is poised => ?_
    refine .drop poised fun poised => (Treads.push poised is).imp fun _ m' poised => ?_
    exact start.passes_level poised rfl
  | unary op =>
    refine .peek start fun x _ _ => .unary start fun a h is poised => ?_
    refine .drop poised fun poised => (Treads.push poised is).imp fun _ m' poised => ?_
    exact start.passes_level poised rfl
  | jumpOnFalse target =>
    refine .pop start fun a is poised => ?_
    split
    · exact .pure (start.passes_level poised rfl)
    split
    · exact .of_ok rfl (start.passes_own (poised.jump lands) rfl rfl)
    · exact .read poised.toSturdy (Exec.still_tagOf a) fun t _ => .fault poised.toSturdy
  | goto target => exact .of_ok rfl (start.passes_own (start.jump lands) rfl rfl)
  | call arity =>
    refine (Treads.call (fun none _ calls => absurd calls none) start running entry).imp fun _ m' after => ?_
    by_cases calls : m.CallsClosure arity
    · obtain ⟨pc, env, a, poised⟩ := after.1 calls
      refine start.passes_entered poised rfl List.mem_cons_self fun frame => ?_
      exact ⟨fun _ => ⟨a, rfl, frame⟩, fun none => absurd calls none⟩
    · exact start.passes_level (after.2 calls) ⟨fun is => absurd is calls, fun _ => rfl⟩
  | tailCall arity =>
    refine (Treads.call (fun none _ calls => absurd calls none) start running entry).imp fun _ m' after => ?_
    by_cases calls : m.CallsClosure arity
    · obtain ⟨pc, env, left, unwinds, poised⟩ := after.1 calls
      refine start.passes_own poised rfl ⟨fun _ => ⟨left, ?_, rfl⟩, fun none => absurd calls none⟩
      exact unwinds.imp fun a mem t is => start.has mem is
    · exact start.passes_level (after.2 calls) ⟨fun is => absurd is calls, fun _ => rfl⟩
  | done => exact (Treads.done start).imp fun _ m' poised => start.passes_level poised rfl
  | pop => exact .pop start fun a _ poised => .pure (start.passes_level poised rfl)
  | reset =>
    refine (Treads.reset start (inside (m.current.pc - 1) (by omega) (by omega))).imp fun _ m' after => ?_
    obtain ⟨a, l, frames, ⟨pc, env, s, poised⟩ | ⟨block, poised⟩⟩ := after
    · exact start.passes_own poised rfl ⟨a, frames, .inl ⟨pc, rfl, s⟩⟩
    · exact start.passes_own poised rfl ⟨a, frames, .inr block⟩
  | nop => exact .pure (start.passes_level start rfl)
  | enterScope n =>
    refine (Treads.enterScope start).imp fun _ m' after => ?_
    obtain ⟨b, env, poised⟩ := after
    exact start.passes_entered poised rfl List.mem_cons_self fun frame => ⟨b, rfl, frame⟩
  | exitScope =>
    refine (Treads.exitScope start).imp fun _ m' after => ?_
    obtain ⟨b, l, env, frames, s, poised⟩ := after
    exact start.passes_own poised rfl ⟨b, frames, s⟩
  | startFiber stop =>
    refine (Treads.startFiber (fun _ => False.elim) start inside (Int.le_of_lt range.1)).imp fun _ m' after => ?_
    obtain ⟨others, pc, perm, poised⟩ := after
    refine start.passes poised (fun _ _ watched _ => watched) rfl rfl [_] ?_ perm (Nat.le_succ _) rfl
    exact List.forall_mem_singleton.2 (Nat.le_refl _)
  | stopFiber =>
    refine .of_ok rfl ⟨⟨sturdy.code, sturdy.shaped, sturdy.fit.stop running m.control.sched.timers, fun f mem => ?_,
      sturdy.pins, sturdy.result⟩, fun _ _ s _ _ _ => s, .ends rfl (.refl _), Nat.le_refl _, False.elim⟩
    exact sturdy.counters f (Scheduler.mem_live.2 (.inr mem))
  | send => exact (Treads.send (fun _ => False.elim) start running).imp fun _ m' poised => start.passes_level poised rfl
  | recv => exact (Treads.recv (fun _ => False.elim) start running).imp fun _ m' poised => start.passes_level poised rfl
  | makeWaitGroup =>
    refine .allocating start (Heap.newWaitGroup_anyOrder start.shaped start.start)
      (Heap.newWaitGroup_makes start.shaped start.start) (fun _ _ _ _ _ => False.elim) fun a h _ made poised => ?_
    exact (Treads.push poised (.inr made.1.node)).imp fun _ m' poised => start.passes_level poised rfl
  | foreign op typeName => exact .fault sturdy

end

end Machine

end FiberVm
