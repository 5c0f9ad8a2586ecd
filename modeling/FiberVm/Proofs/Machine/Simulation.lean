import FiberVm.Proofs.Machine.Alike

/-!
# Running the same program on two machines

`Sim` says how two runs of a piece of code from machines that are alike can end: both finish, or both
fault in the same way, and the machines are alike again; or one of them is out of memory, and then that
one is at least alike to itself. Along the way everything known that is not recent could have been pinned
without making a difference. The rules follow the code from instruction to instruction; only the one for
allocation changes the world.
-/

set_option autoImplicit false

namespace FiberVm

namespace Exec

/-- The operation does not look at the pins. -/
def Blind {α : Type} (x : Exec α) : Prop := ∀ v m, Commutes (Machine.pin v) x m

namespace Blind

variable {α β : Type}

theorem bind {x : Exec α} {k : α → Exec β} (first : Blind x) (rest : ∀ a, Blind (k a)) :
    Blind (x >>= k) := fun v m => (first v m).bind fun a m' _ => rest a v m'

theorem pure (a : α) : Blind (Pure.pure a : Exec α) := fun _ _ => rfl

theorem fault (c : Cause) : Blind (FiberVm.fault c : Exec α) := fun _ _ => rfl

theorem asks (f : Control → α) : Blind (Exec.asks f) := fun _ _ => rfl

theorem modifyControl (f : Control → Control) : Blind (Exec.modifyControl f) := fun _ _ => rfl

theorem onHeap {op : HeapM α} (blind : Heap.Blind op) : Blind (Exec.onHeap op) := by
  intro v m
  have commutes := blind v m.heap
  unfold Commutes Exec.onHeap at *
  dsimp only [Machine.pin]
  rw [commutes]
  cases op m.heap <;> rfl

end Blind

end Exec

/-- The two runs are over and the machines are alike again. -/
structure Ends (q : Terms) (w : World) (x₁ x₂ : Exec Unit) (m₁ m₂ m₁' m₂' : Machine) (w' : World) :
    Prop where
  alike : m₁'.Alike q w' m₂'
  pinned : m₁'.heap.pinned = m₁.heap.pinned
  keeps : w.Keeps w' fun v =>
    Commutes (Machine.pin v) x₁ m₁ ∧ Commutes (Machine.pin (w.image v)) x₂ m₂

/-- The run is out of memory and the machine is in good order. -/
structure Starves (q : Terms) (w : World) (x : Exec Unit) (m : Machine) (n : Nat) (m' : Machine)
    (w' : World) : Prop where
  run : x m = .error (.fault (.outOfMemory n)) m'
  alike : m'.Alike q w' m'
  keeps : w.Keeps w' fun v => Commutes (Machine.pin v) x m

/-- How two runs can end. -/
inductive Sim (q : Terms) (w : World) (x₁ x₂ : Exec Unit) (m₁ m₂ : Machine) : Prop
  | ok {m₁' m₂' : Machine} {w' : World} :
    x₁ m₁ = .ok () m₁' → x₂ m₂ = .ok () m₂' → Ends q w x₁ x₂ m₁ m₂ m₁' m₂' w' → Sim q w x₁ x₂ m₁ m₂
  | fault {e₁ e₂ : Cause} {m₁' m₂' : Machine} {w' : World} :
    x₁ m₁ = .error (.fault e₁) m₁' → x₂ m₂ = .error (.fault e₂) m₂' → e₂.kind = e₁.kind →
    Ends q w x₁ x₂ m₁ m₂ m₁' m₂' w' → Sim q w x₁ x₂ m₁ m₂
  | left {n : Nat} {m₁' : Machine} {w' : World} :
    Starves q w.left x₁ m₁ n m₁' w' → Sim q w x₁ x₂ m₁ m₂
  | right {n : Nat} {m₂' : Machine} {w' : World} :
    Starves q w.right x₂ m₂ n m₂' w' → Sim q w x₁ x₂ m₁ m₂

namespace World

variable {w w' : World}

theorem Keeps.refl {P : Addr → Prop} (holds : ∀ x, P x) : w.Keeps w P :=
  fun x known old => ⟨known, old, rfl, holds x⟩

theorem Keeps.left {P : Addr → Prop} (keeps : w.Keeps w' P) : w.left.Keeps w'.left P := by
  intro x known old
  obtain ⟨known, old, -, holds⟩ := keeps x known old
  exact ⟨known, old, rfl, holds⟩

end World

section Rules

variable {q : Terms} {w : World} {m₁ m₂ n₁ n₂ : Machine}

theorem Starves.bind {x : Exec Unit} {k : Unit → Exec Unit} {m m' : Machine} {n : Nat} {w' : World}
    (starves : Starves q w x m n m' w') : Starves q w (x >>= k) m n m' w' :=
  ⟨bind_of_error starves.run, starves.alike,
    starves.keeps.imp fun _ _ _ _ commutes => commutes.bind_error starves.run⟩

theorem Starves.after {α : Type} {x : Exec α} {k : α → Exec Unit} {m m' m'' : Machine} {a : α} {n : Nat}
    {w' w'' : World} (run : x m = .ok a m') (keeps : w.Keeps w' fun v => Commutes (Machine.pin v) x m)
    (starves : Starves q w' (k a) m' n m'' w'') : Starves q w (x >>= k) m n m'' w'' :=
  ⟨(bind_of_ok run).trans starves.run, starves.alike, (keeps.trans starves.keeps).imp fun _ _ _ _ commutes =>
    commutes.1.bind_ok run commutes.2⟩

theorem Sim.seq {α₁ α₂ : Type} {x₁ : Exec α₁} {x₂ : Exec α₂} {k₁ : α₁ → Exec Unit} {k₂ : α₂ → Exec Unit}
    {a₁ : α₁} {a₂ : α₂} {w' : World} (run₁ : x₁ m₁ = .ok a₁ n₁) (run₂ : x₂ m₂ = .ok a₂ n₂)
    (pinned : n₁.heap.pinned = m₁.heap.pinned)
    (keeps : w.Keeps w' fun v => Commutes (Machine.pin v) x₁ m₁ ∧ Commutes (Machine.pin (w.image v)) x₂ m₂)
    (keeps₂ : w.right.Keeps w'.right fun v => Commutes (Machine.pin v) x₂ m₂)
    (rest : Sim q w' (k₁ a₁) (k₂ a₂) n₁ n₂) : Sim q w (x₁ >>= k₁) (x₂ >>= k₂) m₁ m₂ := by
  have all : ∀ {w''}, w'.Keeps w'' (fun v => Commutes (Machine.pin v) (k₁ a₁) n₁ ∧
        Commutes (Machine.pin (w'.image v)) (k₂ a₂) n₂) →
      w.Keeps w'' fun v => Commutes (Machine.pin v) (x₁ >>= k₁) m₁ ∧
        Commutes (Machine.pin (w.image v)) (x₂ >>= k₂) m₂ := by
    intro w'' later v known old
    obtain ⟨known, old, image, c₁', c₂'⟩ := later v known old
    obtain ⟨known, old, image', c₁, c₂⟩ := keeps v known old
    rw [image'] at c₂'
    exact ⟨known, old, image.trans image', c₁.bind_ok run₁ c₁', c₂.bind_ok run₂ c₂'⟩
  cases rest with
  | left starves => exact .left (starves.after run₁ (keeps.left.imp fun _ _ _ _ commutes => commutes.1))
  | right starves => exact .right (starves.after run₂ keeps₂)
  | fault run₁' run₂' kind ends =>
    exact .fault ((bind_of_ok run₁).trans run₁') ((bind_of_ok run₂).trans run₂') kind
      ⟨ends.alike, ends.pinned.trans pinned, all ends.keeps⟩
  | ok run₁' run₂' ends =>
    exact .ok ((bind_of_ok run₁).trans run₁') ((bind_of_ok run₂).trans run₂')
      ⟨ends.alike, ends.pinned.trans pinned, all ends.keeps⟩

theorem Sim.bind {x₁ x₂ : Exec Unit} {k₁ k₂ : Unit → Exec Unit} (alike : m₁.Alike q w m₂)
    (first : Sim q w x₁ x₂ m₁ m₂)
    (rest : ∀ m₁' m₂' w', x₁ m₁ = .ok () m₁' → Ends q w x₁ x₂ m₁ m₂ m₁' m₂' w' →
      Sim q w' (k₁ ()) (k₂ ()) m₁' m₂') :
    Sim q w (x₁ >>= k₁) (x₂ >>= k₂) m₁ m₂ := by
  cases first with
  | left starves => exact .left starves.bind
  | right starves => exact .right starves.bind
  | fault run₁ run₂ kind ends =>
    refine .fault (bind_of_error run₁) (bind_of_error run₂) kind ⟨ends.alike, ends.pinned, ?_⟩
    exact ends.keeps.imp fun _ _ _ _ commutes => ⟨commutes.1.bind_error run₁, commutes.2.bind_error run₂⟩
  | @ok m₁' m₂' w' run₁ run₂ ends =>
    exact .seq run₁ run₂ ends.pinned ends.keeps (ends.keeps.right alike.heap fun _ commutes => commutes.2)
      (rest m₁' m₂' w' run₁ ends)

/-- An operation that succeeds on both sides and does not allocate. -/
theorem Sim.step {α₁ α₂ : Type} {x₁ : Exec α₁} {x₂ : Exec α₂} {k₁ : α₁ → Exec Unit} {k₂ : α₂ → Exec Unit}
    {a₁ : α₁} {a₂ : α₂} (blind₁ : Exec.Blind x₁) (blind₂ : Exec.Blind x₂) (run₁ : x₁ m₁ = .ok a₁ n₁)
    (run₂ : x₂ m₂ = .ok a₂ n₂) (pinned : n₁.heap.pinned = m₁.heap.pinned)
    (rest : Sim q w (k₁ a₁) (k₂ a₂) n₁ n₂) : Sim q w (x₁ >>= k₁) (x₂ >>= k₂) m₁ m₂ :=
  .seq run₁ run₂ pinned (.refl fun v => ⟨blind₁ v m₁, blind₂ _ m₂⟩) (.refl fun v => blind₂ v m₂) rest

theorem Sim.pure (alike : m₁.Alike q w m₂) : Sim q w (Pure.pure ()) (Pure.pure ()) m₁ m₂ :=
  .ok rfl rfl ⟨alike, rfl, .refl fun _ => ⟨rfl, rfl⟩⟩

theorem Sim.last {x₁ x₂ : Exec Unit} (sim : Sim q w (x₁ >>= Pure.pure) (x₂ >>= Pure.pure) m₁ m₂) :
    Sim q w x₁ x₂ m₁ m₂ := by
  rwa [bind_pure, bind_pure] at sim

theorem Sim.fails {α₁ α₂ : Type} {x₁ : Exec α₁} {x₂ : Exec α₂} {k₁ : α₁ → Exec Unit} {k₂ : α₂ → Exec Unit}
    {e₁ e₂ : Cause} (alike : m₁.Alike q w m₂) (blind₁ : Exec.Blind x₁) (blind₂ : Exec.Blind x₂)
    (run₁ : x₁ m₁ = .error (.fault e₁) m₁) (run₂ : x₂ m₂ = .error (.fault e₂) m₂) (kind : e₂.kind = e₁.kind) :
    Sim q w (x₁ >>= k₁) (x₂ >>= k₂) m₁ m₂ := by
  refine .fault (bind_of_error run₁) (bind_of_error run₂) kind ⟨alike, rfl, .refl fun v => ?_⟩
  exact ⟨(blind₁ v m₁).bind_error run₁, (blind₂ _ m₂).bind_error run₂⟩

theorem Sim.raise {e₁ e₂ : Cause} (alike : m₁.Alike q w m₂) (kind : e₂.kind = e₁.kind) :
    Sim q w (FiberVm.fault e₁) (FiberVm.fault e₂) m₁ m₂ :=
  .last (.fails alike (.fault e₁) (.fault e₂) rfl rfl kind)

section Heap

variable {α₁ α₂ : Type} {op₁ : HeapM α₁} {op₂ : HeapM α₂} {k₁ : α₁ → Exec Unit} {k₂ : α₂ → Exec Unit}
  {a₁ : α₁} {a₂ : α₂} {h₁ h₂ : Heap}

theorem onHeap_ok {α : Type} {op : HeapM α} {m : Machine} {a : α} {h : Heap} (run : op m.heap = .ok a h) :
    Exec.onHeap op m = .ok a { m with heap := h } := by
  unfold Exec.onHeap
  dsimp only
  rw [run]

theorem onHeap_error {α : Type} {op : HeapM α} {m : Machine} {e : Failure} {h : Heap}
    (run : op m.heap = .error e h) : Exec.onHeap op m = .error e { m with heap := h } := by
  unfold Exec.onHeap
  dsimp only
  rw [run]

theorem Sim.write (blind₁ : Heap.Blind op₁) (blind₂ : Heap.Blind op₂) (run₁ : op₁ m₁.heap = .ok a₁ h₁)
    (run₂ : op₂ m₂.heap = .ok a₂ h₂) (pinned : h₁.pinned = m₁.heap.pinned)
    (rest : Sim q w (k₁ a₁) (k₂ a₂) { m₁ with heap := h₁ } { m₂ with heap := h₂ }) :
    Sim q w (Exec.onHeap op₁ >>= k₁) (Exec.onHeap op₂ >>= k₂) m₁ m₂ :=
  .step (.onHeap blind₁) (.onHeap blind₂) (onHeap_ok run₁) (onHeap_ok run₂) pinned rest

theorem Sim.read (blind₁ : Heap.Blind op₁) (blind₂ : Heap.Blind op₂) (run₁ : op₁ m₁.heap = .ok a₁ m₁.heap)
    (run₂ : op₂ m₂.heap = .ok a₂ m₂.heap) (rest : Sim q w (k₁ a₁) (k₂ a₂) m₁ m₂) :
    Sim q w (Exec.onHeap op₁ >>= k₁) (Exec.onHeap op₂ >>= k₂) m₁ m₂ :=
  .write blind₁ blind₂ run₁ run₂ rfl rest

theorem Sim.refuse {e₁ e₂ : Cause} (alike : m₁.Alike q w m₂) (blind₁ : Heap.Blind op₁)
    (blind₂ : Heap.Blind op₂) (run₁ : op₁ m₁.heap = .error (.fault e₁) m₁.heap)
    (run₂ : op₂ m₂.heap = .error (.fault e₂) m₂.heap) (kind : e₂.kind = e₁.kind) :
    Sim q w (Exec.onHeap op₁ >>= k₁) (Exec.onHeap op₂ >>= k₂) m₁ m₂ :=
  .fails alike (.onHeap blind₁) (.onHeap blind₂) (onHeap_error run₁) (onHeap_error run₂) kind

theorem Sim.tagOf {n : Node} {x₁ x₂ : Addr} {k₁ k₂ : Tag → Exec Unit} {ρ : Addr → Addr}
    (s₁ : Heap.Shows m₁.heap.words x₁ n) (s₂ : Heap.Shows m₂.heap.words x₂ (n.map ρ))
    (rest : Sim q w (k₁ n.tag) (k₂ n.tag) m₁ m₂) :
    Sim q w (Exec.tagOf x₁ >>= k₁) (Exec.tagOf x₂ >>= k₂) m₁ m₂ := by
  have run₂ := Heap.tagOf_shows s₂
  rw [Node.tag_map] at run₂
  exact .read (.tagOf x₁) (.tagOf x₂) (Heap.tagOf_shows s₁) run₂ rest

end Heap

section Control

variable {k₁ k₂ : Unit → Exec Unit}

theorem Sim.asks {α : Type} {f : Control → α} {k₁ k₂ : α → Exec Unit}
    (rest : Sim q w (k₁ (f m₁.control)) (k₂ (f m₂.control)) m₁ m₂) :
    Sim q w (Exec.asks f >>= k₁) (Exec.asks f >>= k₂) m₁ m₂ :=
  .step (.asks f) (.asks f) rfl rfl rfl rest

/-- The current fiber of the second machine is that of the first one, renamed. -/
theorem Sim.asksFiber {α : Type} {f : Fiber → α} {k₁ k₂ : α → Exec Unit} (alike : m₁.Alike q w m₂)
    (rest : Sim q w (k₁ (f m₁.control.sched.current)) (k₂ (f (m₁.control.sched.current.rename w.image)))
      m₁ m₂) :
    Sim q w (Exec.asksFiber f >>= k₁) (Exec.asksFiber f >>= k₂) m₁ m₂ := by
  rw [← alike.current] at rest
  exact .asks rest

theorem Sim.modifySched {f₁ f₂ : Scheduler → Scheduler} (alike : m₁.Alike q w m₂)
    (same : f₂ (m₁.control.sched.rename w.image) = (f₁ m₁.control.sched).rename w.image)
    (fit : (f₁ m₁.control.sched).Fit w.role)
    (rest : (m₁.withSched (f₁ m₁.control.sched)).Alike q w
        (m₂.withSched ((f₁ m₁.control.sched).rename w.image)) →
      Sim q w (k₁ ()) (k₂ ()) (m₁.withSched (f₁ m₁.control.sched))
        (m₂.withSched ((f₁ m₁.control.sched).rename w.image))) :
    Sim q w (Exec.modifySched f₁ >>= k₁) (Exec.modifySched f₂ >>= k₂) m₁ m₂ := by
  have run₂ : Exec.modifySched f₂ m₂ = .ok () (m₂.withSched ((f₁ m₁.control.sched).rename w.image)) := by
    rw [← same, ← alike.control.sched]
    rfl
  exact .step (.modifyControl _) (.modifyControl _) rfl run₂ rfl (rest (alike.withSched fit))

def Scheduler.withCurrent (s : Scheduler) (f : Fiber) : Scheduler := { s with current := f }

theorem Sim.modifyFiber {f₁ f₂ : Fiber → Fiber} (alike : m₁.Alike q w m₂)
    (same : f₂ (m₁.control.sched.current.rename w.image) = (f₁ m₁.control.sched.current).rename w.image)
    (id : (f₁ m₁.control.sched.current).id = m₁.control.sched.current.id)
    (state : (f₁ m₁.control.sched.current).state = m₁.control.sched.current.state)
    (typed : m₁.control.sched.current.state ≠ .terminated → (f₁ m₁.control.sched.current).Typed w.role)
    (rest : (m₁.withSched (m₁.control.sched.withCurrent (f₁ m₁.control.sched.current))).Alike q w
        (m₂.withSched ((m₁.control.sched.withCurrent (f₁ m₁.control.sched.current)).rename w.image)) →
      Sim q w (k₁ ()) (k₂ ()) (m₁.withSched (m₁.control.sched.withCurrent (f₁ m₁.control.sched.current)))
        (m₂.withSched ((m₁.control.sched.withCurrent (f₁ m₁.control.sched.current)).rename w.image))) :
    Sim q w (Exec.modifyFiber f₁ >>= k₁) (Exec.modifyFiber f₂ >>= k₂) m₁ m₂ := by
  refine .modifySched alike ?_ (alike.control.fit.of_current rfl rfl rfl id state typed) rest
  simp only [Scheduler.rename, same]

end Control

section Registers

variable {k₁ k₂ : Unit → Exec Unit}

def Machine.withFiber (m : Machine) (f : Fiber) : Machine :=
  m.withSched (m.control.sched.withCurrent f)

theorem Machine.Alike.typed (alike : m₁.Alike q w m₂)
    (alive : m₁.control.sched.current.state ≠ .terminated) : m₁.control.sched.current.Typed w.role :=
  alike.control.fit.typed.current alive

theorem Sim.jump (alike : m₁.Alike q w m₂) (pc : Int)
    (rest : ∀ n₂, (m₁.withFiber { m₁.control.sched.current with pc := pc }).Alike q w n₂ →
      n₂.heap = m₂.heap →
      Sim q w (k₁ ()) (k₂ ()) (m₁.withFiber { m₁.control.sched.current with pc := pc }) n₂) :
    Sim q w (Exec.jump pc >>= k₁) (Exec.jump pc >>= k₂) m₁ m₂ := by
  refine .modifyFiber alike rfl rfl rfl (fun alive => ?_) fun alike => rest _ alike rfl
  obtain ⟨env, operands, frames⟩ := alike.typed alive
  exact ⟨env, operands, frames⟩

theorem Sim.setEnv {env : Addr} (alike : m₁.Alike q w m₂) (role : w.role env .environment)
    (rest : ∀ n₂, (m₁.withFiber { m₁.control.sched.current with env := env }).Alike q w n₂ →
      n₂.heap = m₂.heap →
      Sim q w (k₁ ()) (k₂ ()) (m₁.withFiber { m₁.control.sched.current with env := env }) n₂) :
    Sim q w (Exec.setEnv env >>= k₁) (Exec.setEnv (w.image env) >>= k₂) m₁ m₂ := by
  refine .modifyFiber alike rfl rfl rfl (fun alive => ?_) fun alike => rest _ alike rfl
  obtain ⟨-, operands, frames⟩ := alike.typed alive
  exact ⟨role, operands, frames⟩

theorem Sim.pushFrame {a : Addr} (alike : m₁.Alike q w m₂) (role : w.role a .activation)
    (rest : ∀ n₂, (m₁.withFiber { m₁.control.sched.current with
        frames := a :: m₁.control.sched.current.frames }).Alike q w n₂ → n₂.heap = m₂.heap →
      Sim q w (k₁ ()) (k₂ ()) (m₁.withFiber { m₁.control.sched.current with
        frames := a :: m₁.control.sched.current.frames }) n₂) :
    Sim q w (Exec.pushFrame a >>= k₁) (Exec.pushFrame (w.image a) >>= k₂) m₁ m₂ := by
  refine .modifyFiber alike rfl rfl rfl (fun alive => ?_) fun alike => rest _ alike rfl
  obtain ⟨env, operands, frames⟩ := alike.typed alive
  exact ⟨env, operands, List.forall_mem_cons.2 ⟨role, frames⟩⟩

theorem Sim.push {a : Addr} (alike : m₁.Alike q w m₂) (value : IsValue w.role a)
    (rest : ∀ n₂, (m₁.withSched (m₁.control.sched.push a)).Alike q w n₂ → n₂.heap = m₂.heap →
      Sim q w (k₁ ()) (k₂ ()) (m₁.withSched (m₁.control.sched.push a)) n₂) :
    Sim q w (Exec.push a >>= k₁) (Exec.push (w.image a) >>= k₂) m₁ m₂ :=
  .modifySched alike (Scheduler.push_rename _ _ _) (alike.control.fit.push value) fun alike =>
    rest _ alike rfl

theorem Exec.peek_eq (n : Nat) (m : Machine) :
    Exec.peek n m = match m.control.sched.current.operands[n]? with
      | some a => .ok a m
      | none => .error (.fault .operandUnderflow) m := by
  unfold Exec.peek
  rw [bind_of_ok (show Exec.asksFiber (·.operands) m = .ok m.control.sched.current.operands m from rfl)]
  cases m.control.sched.current.operands[n]? <;> rfl

theorem Exec.Blind.peek (n : Nat) : Exec.Blind (Exec.peek n) := by
  refine (Exec.Blind.asks _).bind fun operands => ?_
  split
  · exact .pure _
  · exact .fault _

theorem Sim.peek {n : Nat} {k₁ k₂ : Addr → Exec Unit} (alike : m₁.Alike q w m₂)
    (alive : m₁.control.sched.current.state ≠ .terminated)
    (rest : ∀ a, m₁.control.sched.current.operands[n]? = some a → IsValue w.role a →
      Sim q w (k₁ a) (k₂ (w.image a)) m₁ m₂) :
    Sim q w (Exec.peek n >>= k₁) (Exec.peek n >>= k₂) m₁ m₂ := by
  have run₁ := Exec.peek_eq n m₁
  have run₂ := Exec.peek_eq n m₂
  rw [alike.current, Fiber.rename_operands, List.getElem?_map] at run₂
  cases get : m₁.control.sched.current.operands[n]? with
  | none =>
    rw [get] at run₁ run₂
    exact .fails alike (.peek n) (.peek n) run₁ run₂ rfl
  | some a =>
    rw [get] at run₁ run₂
    exact .step (.peek n) (.peek n) run₁ run₂ rfl
      (rest a get ((alike.typed alive).operands a (List.mem_of_getElem? get)))

theorem Sim.drop {n : Nat} (alike : m₁.Alike q w m₂)
    (rest : ∀ n₂, (m₁.withFiber (m₁.control.sched.current.drop n)).Alike q w n₂ → n₂.heap = m₂.heap →
      Sim q w (k₁ ()) (k₂ ()) (m₁.withFiber (m₁.control.sched.current.drop n)) n₂) :
    Sim q w (Exec.drop n >>= k₁) (Exec.drop n >>= k₂) m₁ m₂ := by
  unfold Exec.drop
  rw [bind_assoc, bind_assoc]
  refine .asksFiber alike ?_
  simp only [Fiber.rename_operands, List.length_map]
  by_cases short : m₁.control.sched.current.operands.length < n
  · rw [if_pos short]
    exact .fails alike (.fault _) (.fault _) rfl rfl rfl
  · rw [if_neg short]
    refine .modifyFiber alike (Fiber.drop_rename _ _ _) rfl rfl (fun alive => ?_) fun alike =>
      rest _ alike rfl
    obtain ⟨env, operands, frames⟩ := alike.typed alive
    exact ⟨env, fun a mem => operands a (List.mem_of_mem_drop mem), frames⟩

theorem Sim.pop {k₁ k₂ : Addr → Exec Unit} (alike : m₁.Alike q w m₂)
    (alive : m₁.control.sched.current.state ≠ .terminated)
    (rest : ∀ a n₂, IsValue w.role a → (m₁.withFiber (m₁.control.sched.current.drop 1)).Alike q w n₂ →
      n₂.heap = m₂.heap →
      Sim q w (k₁ a) (k₂ (w.image a)) (m₁.withFiber (m₁.control.sched.current.drop 1)) n₂) :
    Sim q w (Exec.pop >>= k₁) (Exec.pop >>= k₂) m₁ m₂ := by
  simp only [Exec.pop, bind_assoc, pure_bind]
  exact .peek alike alive fun a _ value => .drop alike fun n₂ alike heap => rest a n₂ value alike heap

theorem Sim.popFrame {k₁ k₂ : Addr → Exec Unit} (alike : m₁.Alike q w m₂)
    (alive : m₁.control.sched.current.state ≠ .terminated)
    (rest : ∀ a tail n₂, w.role a .activation →
      (m₁.withFiber { m₁.control.sched.current with frames := tail }).Alike q w n₂ → n₂.heap = m₂.heap →
      Sim q w (k₁ a) (k₂ (w.image a)) (m₁.withFiber { m₁.control.sched.current with frames := tail }) n₂) :
    Sim q w (Exec.popFrame >>= k₁) (Exec.popFrame >>= k₂) m₁ m₂ := by
  unfold Exec.popFrame
  rw [bind_assoc, bind_assoc]
  refine .asksFiber alike ?_
  have typed := alike.typed alive
  cases frames : m₁.control.sched.current.frames with
  | nil =>
    simp only [Fiber.rename_frames, frames, List.map_nil]
    exact .fails alike (.fault _) (.fault _) rfl rfl rfl
  | cons a tail =>
    simp only [Fiber.rename_frames, frames, List.map_cons, bind_assoc, pure_bind]
    refine .modifyFiber alike rfl rfl rfl (fun _ => ?_) fun alike => rest a tail _ ?_ alike rfl
    · exact ⟨typed.env, typed.operands, fun x mem => typed.frames x (frames ▸ List.mem_cons_of_mem a mem)⟩
    · exact typed.frames a (frames ▸ List.mem_cons_self)

end Registers

section Allocating

variable {op₁ op₂ : Heap.Roots → HeapM Addr} {K : List Addr} {r : Role}
  {P : Array Word → Addr → Prop}

/-- The addresses of a machine, looked at only if a collection is due. -/
abbrev Machine.rootThunk (m : Machine) : Heap.Roots := m.control.heapRoots

theorem allocating_ok {op : Heap.Roots → HeapM Addr} {m : Machine} {a : Addr} {h : Heap}
    (run : op m.rootThunk m.heap = .ok a h) : Exec.allocating op m = .ok a { m with heap := h } := by
  obtain ⟨h₀, c⟩ := m
  simp only [Exec.allocating, show op c.heapRoots h₀ = .ok a h from run]

theorem allocating_error {op : Heap.Roots → HeapM Addr} {m : Machine} {e : Failure} {h : Heap}
    (run : op m.rootThunk m.heap = .error e h) : Exec.allocating op m = .error e { m with heap := h } := by
  obtain ⟨h₀, c⟩ := m
  simp only [Exec.allocating, show op c.heapRoots h₀ = .error e h from run]

theorem allocating_commutes {op : Heap.Roots → HeapM Addr} {m : Machine} {v : Addr}
    (commutes : Commutes (Heap.pin v) (op m.rootThunk) m.heap) :
    Commutes (Machine.pin v) (Exec.allocating op) m := by
  unfold Commutes at *
  cases run : op m.rootThunk m.heap with
  | ok a h =>
    rw [run] at commutes
    rw [allocating_ok run, allocating_ok (m := m.pin v) commutes]
    rfl
  | error e h =>
    rw [run] at commutes
    rw [allocating_error run, allocating_error (m := m.pin v) commutes]
    rfl

theorem Starves.allocating {op : Heap.Roots → HeapM Addr} {k : Addr → Exec Unit} {m : Machine}
    {n : Nat} {h' : Heap} {w' : World} (alike : m.Alike q w m)
    (alive : m.control.sched.current.state ≠ .terminated) (sub : m.control.roots ++ m.heap.pinned ⊆ K)
    (ex : Exhausts w K (op m.rootThunk) m.heap n h' w') :
    Starves q w (Exec.allocating op >>= k) m n { m with heap := h' } w' := by
  have run := allocating_error ex.run
  refine ⟨bind_of_error run, ⟨ex.mirror, ?_, ?_, ?_⟩, ex.keeps.imp fun v _ _ _ commutes =>
    (allocating_commutes commutes).bind_error run⟩
  · have same : m.heap.pinned = m.heap.pinned.map w.image := alike.pins
    have moved : m.heap.pinned.map w'.image = m.heap.pinned.map w.image := List.map_congr_left fun x mem =>
      ex.ext.image x (.inl (sub (List.mem_append_right _ mem)))
    rw [ex.kept.pinned, moved, ← same]
  · intro a mem
    rw [ex.kept.pinned] at mem
    exact ex.ext.knows (.inl (sub (List.mem_append_right _ mem))) (alike.pinned a mem)
  · exact alike.control.extend ex.ext (fun x mem => sub (List.mem_append_left _ mem)) alive

theorem Sim.take {k₁ k₂ : Addr → Exec Unit} (alike : m₁.Alike q w m₂)
    (alive : m₁.control.sched.current.state ≠ .terminated)
    (takes : Takes w K r P (op₁ m₁.rootThunk) (op₂ m₂.rootThunk) m₁.heap m₂.heap)
    (sub : m₁.control.roots ++ m₁.heap.pinned ⊆ K)
    (rest : ∀ a h₁ h₂ w', Gives w K r (op₁ m₁.rootThunk) (op₂ m₂.rootThunk) m₁.heap m₂.heap a (w'.image a)
        h₁ h₂ w' → P h₁.words a → P h₂.words (w'.image a) →
      Machine.Alike q w' { m₁ with heap := h₁ } { m₂ with heap := h₂ } →
      Sim q w' (k₁ a) (k₂ (w'.image a)) { m₁ with heap := h₁ } { m₂ with heap := h₂ }) :
    Sim q w (Exec.allocating op₁ >>= k₁) (Exec.allocating op₂ >>= k₂) m₁ m₂ := by
  have images : (m₁.control.roots ++ m₁.heap.pinned).map w.image = m₂.control.roots ++ m₂.heap.pinned := by
    rw [List.map_append, ← alike.control.roots, ← alike.pins]
  cases takes with
  | left ex => exact .left (Starves.allocating alike.left alive sub ex)
  | right ex =>
    refine .right (Starves.allocating alike.right ?_ ?_ ex)
    · rw [alike.current]
      exact alive
    · rw [← images]
      exact List.map_subset _ sub
  | @ok a a₂ h₁ h₂ w' g p₁ p₂ =>
    obtain rfl := g.image
    have run₁ := allocating_ok g.run₁
    have run₂ := allocating_ok g.run₂
    have shared := alike.shared.next sub g
    have alike' : Machine.Alike q w' { m₁ with heap := h₁ } { m₂ with heap := h₂ } :=
      ⟨g.mirror, shared.pins, fun x mem => shared.known x (List.mem_append_right _ mem),
        alike.control.extend g.ext (fun x mem => sub (List.mem_append_left _ mem)) alive⟩
    have keeps : w.Keeps w' fun v => Commutes (Machine.pin v) (Exec.allocating op₁) m₁ ∧
        Commutes (Machine.pin (w.image v)) (Exec.allocating op₂) m₂ :=
      g.keeps.imp fun v _ _ _ commutes => ⟨allocating_commutes commutes.1, allocating_commutes commutes.2⟩
    exact .seq run₁ run₂ g.kept₁.pinned keeps (keeps.right alike.heap fun _ commutes => commutes.2)
      (rest a h₁ h₂ w' g p₁ p₂ alike')

end Allocating

section Pinning

variable {as : List Addr}

/-- The machine with more addresses pinned, on top of the others. -/
def Machine.addPins (m : Machine) (as : List Addr) : Machine :=
  { m with heap := { m.heap with pinned := m.heap.pinned ++ as } }

def Machine.release (m : Machine) (mark : Nat) : Machine := { m with heap := m.heap.release mark }

theorem withPins_eq (body : Exec Unit) (m : Machine) :
    Exec.withPins as body m =
      after (fun m' => m'.release m.heap.pinned.length) (body (m.addPins as)) := by
  obtain ⟨h, c⟩ := m
  simp only [Exec.withPins, Machine.addPins]
  cases body ⟨{ h with pinned := h.pinned ++ as }, c⟩ <;> rfl

theorem withPins_commutes {body : Exec Unit} {m : Machine} {v : Addr}
    (commutes : Commutes (Machine.pin v) body (m.addPins as)) :
    Commutes (Machine.pin v) (Exec.withPins as body) m := by
  unfold Commutes at *
  rw [withPins_eq, withPins_eq]
  change after _ (body (Machine.pin v (m.addPins as))) = _
  rw [commutes]
  cases body (m.addPins as) <;> rfl

theorem Machine.Alike.addPins (alike : m₁.Alike q w m₂) (known : ∀ x ∈ as, w.Knows x) :
    (m₁.addPins as).Alike q w (m₂.addPins (as.map w.image)) := by
  refine ⟨alike.heap.with_pins _ _, ?_, fun a mem => ?_, alike.control⟩
  · simp [Machine.addPins, alike.pins]
  · rcases List.mem_append.1 mem with mem | mem
    · exact alike.pinned a mem
    · exact known a mem

theorem Machine.Alike.release (alike : m₁.Alike q w m₂) (mark : Nat) :
    (m₁.release mark).Alike q w (m₂.release mark) := by
  refine ⟨alike.heap.with_pins _ _, ?_, fun a mem => alike.pinned a (List.mem_of_mem_take mem),
    alike.control⟩
  simp [Machine.release, Heap.release, alike.pins, List.map_take]

/-- The pins of a piece of code are gone when it is over. -/
theorem Sim.withPins {x₁ x₂ : Exec Unit} (alike : m₁.Alike q w m₂) (known : ∀ x ∈ as, w.Knows x)
    (body : (m₁.addPins as).Alike q w (m₂.addPins (as.map w.image)) →
      Sim q w x₁ x₂ (m₁.addPins as) (m₂.addPins (as.map w.image))) :
    Sim q w (Exec.withPins as x₁) (Exec.withPins (as.map w.image) x₂) m₁ m₂ := by
  have same : m₂.heap.pinned.length = m₁.heap.pinned.length := by simp [alike.pins]
  have restored : ∀ m' : Machine, m'.heap.pinned = (m₁.addPins as).heap.pinned →
      (m'.release m₁.heap.pinned.length).heap.pinned = m₁.heap.pinned := by
    intro m' pinned
    change m'.heap.pinned.take _ = _
    rw [pinned]
    exact List.take_left
  have pins : ∀ {w'}, w.Keeps w' (fun v => Commutes (Machine.pin v) x₁ (m₁.addPins as) ∧
        Commutes (Machine.pin (w.image v)) x₂ (m₂.addPins (as.map w.image))) →
      w.Keeps w' fun v => Commutes (Machine.pin v) (Exec.withPins as x₁) m₁ ∧
        Commutes (Machine.pin (w.image v)) (Exec.withPins (as.map w.image) x₂) m₂ := fun keeps =>
    keeps.imp fun v _ _ _ commutes => ⟨withPins_commutes commutes.1, withPins_commutes commutes.2⟩
  cases body (alike.addPins known) with
  | left starves =>
    refine .left ⟨by rw [withPins_eq, starves.run]; rfl, starves.alike.release _, ?_⟩
    exact starves.keeps.imp fun v _ _ _ commutes => withPins_commutes commutes
  | right starves =>
    refine .right ⟨by rw [withPins_eq, starves.run]; rfl, starves.alike.release _, ?_⟩
    exact starves.keeps.imp fun v _ _ _ commutes => withPins_commutes commutes
  | fault run₁ run₂ kind ends =>
    exact .fault (by rw [withPins_eq, run₁]; rfl) (by rw [withPins_eq, run₂, same]; rfl) kind
      ⟨ends.alike.release _, restored _ ends.pinned, pins ends.keeps⟩
  | ok run₁ run₂ ends =>
    exact .ok (by rw [withPins_eq, run₁]; rfl) (by rw [withPins_eq, run₂, same]; rfl)
      ⟨ends.alike.release _, restored _ ends.pinned, pins ends.keeps⟩

end Pinning

end Rules

end FiberVm
