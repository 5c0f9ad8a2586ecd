import FiberVm.Proofs.Heap.Allocation

/-!
# Pins that make no difference

Only a collection looks at the pins. So an operation that does not allocate runs as well on a heap with
one more pin, and an allocation does too if what is pinned is reserved or reachable anyway. An address is
safe from an operation if pinning it beforehand makes no difference.
-/

set_option autoImplicit false

namespace FiberVm

section Commutes

variable {ε σ α β : Type} {f : σ → σ} {s : σ}

/-- The outcome with its state replaced. -/
def after (f : σ → σ) : EStateM.Result ε σ α → EStateM.Result ε σ α
  | .ok a s => .ok a (f s)
  | .error e s => .error e (f s)

/-- Changing the state before `x` runs from `s` is changing it afterwards. -/
def Commutes (f : σ → σ) (x : EStateM ε σ α) (s : σ) : Prop := x (f s) = after f (x s)

theorem Commutes.bind {x : EStateM ε σ α} {k : α → EStateM ε σ β} (first : Commutes f x s)
    (rest : ∀ a s', x s = .ok a s' → Commutes f (k a) s') : Commutes f (x >>= k) s := by
  have unfolded : ∀ t, (x >>= k) t = match x t with
      | .ok a t' => k a t'
      | .error e t' => .error e t' := fun _ => rfl
  unfold Commutes at first
  rw [Commutes, unfolded, unfolded, first]
  cases run : x s with
  | ok a s' => exact rest a s' run
  | error e s' => rfl

theorem Commutes.bind_ok {x : EStateM ε σ α} {k : α → EStateM ε σ β} {s' : σ} {a : α}
    (first : Commutes f x s) (run : x s = .ok a s') (rest : Commutes f (k a) s') :
    Commutes f (x >>= k) s := by
  refine first.bind fun b t run' => ?_
  obtain ⟨rfl, rfl⟩ := EStateM.Result.ok.inj (run.symm.trans run')
  exact rest

theorem Commutes.bind_error {x : EStateM ε σ α} {k : α → EStateM ε σ β} {s' : σ} {e : ε}
    (first : Commutes f x s) (run : x s = .error e s') : Commutes f (x >>= k) s := by
  refine first.bind fun b t run' => ?_
  cases run.symm.trans run'

end Commutes

namespace Heap

/-- The heap with one more address kept alive by the host. -/
def pin (v : Addr) (h : Heap) : Heap := { h with pinned := v :: h.pinned }

/-- The operation does not look at the pins. -/
def Blind {α : Type} (x : HeapM α) : Prop := ∀ v h, Commutes (pin v) x h

namespace Blind

variable {α β : Type}

theorem bind {x : HeapM α} {k : α → HeapM β} (first : Blind x) (rest : ∀ a, Blind (k a)) :
    Blind (x >>= k) := by
  intro v h
  exact (first v h).bind fun a h' _ => rest a v h'

theorem pure (a : α) : Blind (Pure.pure a : HeapM α) := fun _ _ => rfl

theorem fault (c : Cause) : Blind (FiberVm.fault c : HeapM α) := fun _ _ => rfl

theorem crash (c : Crash) : Blind (FiberVm.crash c : HeapM α) := fun _ _ => rfl

theorem ite {p : Prop} [Decidable p] {x y : HeapM α} (yes : Blind x) (no : Blind y) :
    Blind (if p then x else y) := by
  split
  · exact yes
  · exact no

theorem forM {l : List α} {body : α → HeapM Unit} (each : ∀ a, Blind (body a)) :
    Blind (l.forM body) := by
  induction l with
  | nil => exact .pure ()
  | cons a l ih => exact (each a).bind fun _ => ih

theorem mapM {l : List α} {body : α → HeapM β} (each : ∀ a, Blind (body a)) :
    Blind (l.mapM body) := by
  induction l with
  | nil => exact .pure []
  | cons a l ih =>
    rw [List.mapM_cons]
    exact (each a).bind fun _ => ih.bind fun _ => .pure _

theorem readWord (i : Int) : Blind (Heap.readWord i) := by
  intro v h
  unfold Commutes Heap.readWord
  by_cases negative : i < 0
  · rw [if_pos negative, if_pos negative]
    rfl
  · rw [if_neg negative, if_neg negative]
    dsimp only [pin]
    cases h.words[i.toNat]? <;> rfl

theorem writeWord (i : Int) (w : Word) : Blind (Heap.writeWord i w) := by
  intro v h
  unfold Commutes Heap.writeWord
  by_cases inside : 0 ≤ i ∧ i.toNat < h.words.size
  · rw [if_pos inside, if_pos (show 0 ≤ i ∧ i.toNat < (h.pin v).words.size from inside)]
    rfl
  · rw [if_neg inside, if_neg (show ¬ (0 ≤ i ∧ i.toNat < (h.pin v).words.size) from inside)]
    rfl

section Accessors

variable (a : Addr) (i : Int) (b : Nat)

theorem header : Blind (header a) := readWord _

theorem modifyHeader (f : Word → Word) : Blind (modifyHeader a f) :=
  (header a).bind fun _ => writeWord _ _

theorem tagOf : Blind (tagOf a) := (header a).bind fun _ => .pure _

theorem childCount : Blind (childCount a) :=
  ((header a).bind fun _ => .pure _).bind fun _ => .pure _

theorem field : Blind (field a b) := (header a).bind fun _ => .pure _

theorem setField (x : UInt8) : Blind (setField a b x) := modifyHeader a _

theorem wideField : Blind (wideField a) := (header a).bind fun _ => .pure _

theorem setWideField (x : UInt32) : Blind (setWideField a x) := modifyHeader a _

theorem payload : Blind (payload a i) := readWord _

theorem setPayload (w : Word) : Blind (setPayload a i w) := writeWord _ _

theorem child : Blind (child a i) := (payload a i).bind fun _ => .pure _

theorem setChild (c : Addr) : Blind (setChild a i c) := setPayload a i _

theorem intValue : Blind (intValue a) := (payload a 0).bind fun _ => .pure _

theorem builtinAt : Blind (builtinAt a) :=
  (field a 3).bind fun _ => (field a 4).bind fun _ => .pure _

theorem slotFrame (j : Int) : Blind (slotFrame a i j) := by
  refine (childCount a).bind fun _ => .ite (.fault _) ?_
  exact (child a i).bind fun f => (childCount f).bind fun _ => .ite (.fault _) (.pure f)

theorem lookup (j : Int) : Blind (lookup a i j) := (slotFrame a i j).bind fun f => child f j

theorem store (j : Int) (x : Addr) : Blind (store a i j x) :=
  (slotFrame a i j).bind fun f => setChild f j x

theorem callframePc : Blind (callframePc a) := (wideField a).bind fun _ => .pure _

theorem closureArity : Blind (closureArity a) := (field a 3).bind fun _ => .pure _

theorem closurePc : Blind (closurePc a) := (wideField a).bind fun _ => .pure _

theorem ringNext (x : UInt8) (ring : Nat) : Blind (ringNext x ring) := .ite (.crash _) (.pure _)

theorem queueLen : Blind (queueLen a) := (field a 5).bind fun _ => .pure _

theorem enqueue (w : Waiter) : Blind (enqueue a w) := by
  refine (queueLen a).bind fun n => .ite (.fault _) ?_
  refine (field a 4).bind fun tail => (setPayload a _ _).bind fun _ => ?_
  exact (ringNext tail _).bind fun _ => (setField a 4 _).bind fun _ => setField a 5 _

theorem dequeue : Blind (dequeue a) := by
  refine (queueLen a).bind fun n => .ite (.pure none) ?_
  refine (field a 3).bind fun head => (payload a _).bind fun _ => (setPayload a _ _).bind fun _ => ?_
  exact (ringNext head _).bind fun _ => (setField a 3 _).bind fun _ =>
    (setField a 5 _).bind fun _ => .pure _

theorem chanCap : Blind (chanCap a) := (field a 7).bind fun _ => .pure _

theorem chanLen : Blind (chanLen a) := (field a 6).bind fun _ => .pure _

theorem chanClosed : Blind (chanClosed a) := (field a 5).bind fun _ => .pure _

theorem chanPush (x : Addr) : Blind (chanPush a x) := by
  refine (chanCap a).bind fun _ => (field a 3).bind fun i => (setChild a _ x).bind fun _ => ?_
  refine (ringNext i _).bind fun _ => (setField a 3 _).bind fun _ => ?_
  exact (chanLen a).bind fun _ => setField a 6 _

theorem chanPop : Blind (chanPop a) := by
  refine (chanCap a).bind fun _ => (field a 4).bind fun i => (child a _).bind fun _ => ?_
  refine (setChild a _ _).bind fun _ => (ringNext i _).bind fun _ => (setField a 4 _).bind fun _ => ?_
  exact (field a 6).bind fun _ => (setField a 6 _).bind fun _ => .pure _

theorem groupCounter : Blind (groupCounter a) := (wideField a).bind fun _ => .pure _

theorem addGroupWaiter (id : Nat) : Blind (addGroupWaiter a id) :=
  (field a 3).bind fun _ => .ite (.fault _) ((setPayload a _ _).bind fun _ => setField a 3 _)

theorem drainGroupWaiters : Blind (drainGroupWaiters a) := by
  refine ((field a 3).bind fun _ => .mapM fun i => payload a _).bind fun ids => ?_
  exact (forM fun i => setPayload a _ _).bind fun _ => (setField a 3 _).bind fun _ => .pure _

theorem format : Blind (format a) := by
  refine (tagOf a).bind fun tag => ?_
  split
  case h_5 => exact (intValue a).bind fun _ => .pure _
  case h_6 => exact (builtinAt a).bind fun _ => .pure _
  case h_7 => exact (closurePc a).bind fun _ => .pure _
  all_goals exact .pure _

end Accessors

end Blind

section Collecting

variable {base words words' : Array Word} {h : Heap} {roots roots' : List Addr} {v : Addr}

/-- An extra root that is skipped or reached anyway reaches nothing new above the reserved nodes. -/
theorem reaches_insert (held : v < bottom ∨ Reaches words roots v)
    (sub : ∀ x ∈ roots', x = v ∨ x ∈ roots) {a : Addr} (reach : Reaches words roots' a) :
    a < bottom ∨ Reaches words roots a := by
  induction reach with
  | root mem =>
    rcases sub _ mem with rfl | mem
    · exact held
    · exact .inr (.root mem)
  | @step x y _ le refers ih =>
    rcases ih with low | reach
    · exact absurd low (UInt32.not_lt.2 le)
    · exact .inr (reach.step le refers)

theorem traceable_insert (traceable : Traceable words roots) (held : v < bottom ∨ Reaches words roots v)
    (sub : ∀ x ∈ roots', x = v ∨ x ∈ roots) : Traceable words roots' := by
  intro a reach
  rcases reaches_insert held sub reach with low | reach
  · exact .inl (.inr low)
  · exact traceable a reach

theorem mark_pin (sound : Sound h) (traceable : Traceable h.words (roots ++ h.pinned))
    (held : v < bottom ∨ Reaches h.words (roots ++ h.pinned) v) :
    mark h.words (roots ++ v :: h.pinned) = mark h.words (roots ++ h.pinned) := by
  have sub : ∀ x ∈ roots ++ v :: h.pinned, x = v ∨ x ∈ roots ++ h.pinned := by
    intro x mem
    simp only [List.mem_append, List.mem_cons] at mem ⊢
    rcases mem with mem | rfl | mem
    · exact .inr (.inl mem)
    · exact .inl rfl
    · exact .inr (.inr mem)
  refine mark_eq_of_reaches sound.sized sound.unmarked traceable.traced fun a le => ⟨fun reach => ?_, fun reach =>
    reach.of_subset fun x mem => ?_⟩
  · exact (reaches_insert held sub reach).resolve_left (UInt32.not_lt.2 le)
  · rw [List.mem_append, List.mem_cons]
    exact (List.mem_append.1 mem).imp_right .inr

theorem collect_pin (sound : Sound h) (traceable : Traceable h.words (roots ++ h.pinned))
    (held : v < bottom ∨ Reaches h.words (roots ++ h.pinned) v) :
    Commutes (pin v) (collect roots) h := by
  have same := mark_pin sound traceable held
  unfold Commutes collect
  dsimp only [pin]
  rw [same]
  cases mark h.words (roots ++ h.pinned) <;> rfl

theorem take_pin (tag : Tag) (size : Nat) (a : Addr) : Blind (take tag size a) := by
  intro v h
  unfold Commutes take
  dsimp only [pin]
  cases h.words[a.toNat]? with
  | none => rfl
  | some link =>
    dsimp only
    by_cases inside : a.toNat + nodeSize ≤ h.words.size
    · simp only [pin, inside, if_true, after]
    · simp only [pin, inside, if_false, after]

variable {thunk : Roots}

theorem allocate_pin (sound : Sound h) (traceable : Traceable h.words (thunk.get ++ h.pinned))
    (held : v < bottom ∨ Reaches h.words (thunk.get ++ h.pinned) v) (tag : Tag) (size : Int) :
    Commutes (pin v) (allocate thunk tag size) h := by
  have collected := collect_pin sound traceable held
  -- The extra pin changes nothing about the order in which the roots are visited.
  have visited : collect (thunk.visit h.stats.collections) (h.pin v) = after (pin v) (collect thunk.get h) := by
    rw [← collected]
    exact collect_visit thunk _ sound.sized sound.unmarked (traceable_insert traceable held (by simp [pin, or_left_comm])).traced
  unfold Commutes allocate at *
  split
  · rfl
  · rw [show (h.pin v).freeHead = h.freeHead from rfl, show (h.pin v).stats = h.stats from rfl,
      collect_visit thunk _ sound.sized sound.unmarked traceable.traced]
    cases h.freeHead with
    | some a => exact take_pin tag _ a v h
    | none =>
      dsimp only
      rw [visited]
      cases collect thunk.get h with
      | error e h' => rfl
      | ok n h' =>
        dsimp only [after]
        rw [show (h'.pin v).freeHead = h'.freeHead from rfl]
        cases h'.freeHead with
        | some a => exact take_pin tag _ a v h'
        | none => rfl

theorem Commutes.withPins {α : Type} {as : List Addr} {op : HeapM α}
    (inner : Commutes (pin v) op { h with pinned := h.pinned ++ as }) :
    Commutes (pin v) (withPins as op) h := by
  unfold Commutes Heap.withPins at *
  dsimp only [pin, List.cons_append] at *
  rw [inner]
  cases op { h with pinned := h.pinned ++ as } <;> rfl

/-- The pins of a constructor come on top. -/
theorem allocate_pin_with {env : List Addr} (sound : Sound h)
    (traceable : Traceable h.words (thunk.get ++ (h.pinned ++ env)))
    (held : v < bottom ∨ Reaches h.words (thunk.get ++ (h.pinned ++ env)) v) (tag : Tag) (size : Int)
    {α : Type} {rest : Addr → HeapM α} (blind : ∀ a, Blind (rest a)) :
    Commutes (pin v) (withPins env (allocate thunk tag size >>= rest)) h := by
  refine Commutes.withPins (FiberVm.Commutes.bind ?_ fun a h' _ => blind a v h')
  exact allocate_pin (h := { h with pinned := h.pinned ++ env })
    ⟨sound.sized, sound.unmarked, sound.list⟩ traceable held tag size

theorem newInt_pin (sound : Sound h) (traceable : Traceable h.words (thunk.get ++ h.pinned))
    (held : v < bottom ∨ Reaches h.words (thunk.get ++ h.pinned) v) (k : Int64) :
    Commutes (pin v) (newInt thunk k) h :=
  (allocate_pin sound traceable held .int 2).bind fun a h' _ =>
    ((Blind.setPayload a 0 _).bind fun _ => .pure a) v h'

theorem newFrame_pin (sound : Sound h) (traceable : Traceable h.words (thunk.get ++ h.pinned))
    (held : v < bottom ∨ Reaches h.words (thunk.get ++ h.pinned) v) (n : Int) :
    Commutes (pin v) (newFrame thunk n) h := by
  unfold newFrame
  split
  · exact Blind.fault _ v h
  · exact (allocate_pin sound traceable held .frame _).bind fun a h' _ =>
      ((Blind.forM fun i => Blind.setChild a _ _).bind fun _ => .pure a) v h'

section Env

variable {env : Addr} (sound : Sound h)
  (traceable : Traceable h.words (thunk.get ++ (h.pinned ++ [env])))
  (held : v < bottom ∨ Reaches h.words (thunk.get ++ (h.pinned ++ [env])) v)
include sound traceable held

theorem newCallframe_pin (pc : Int) : Commutes (pin v) (newCallframe thunk pc env) h :=
  allocate_pin_with sound traceable held .callframe 2 fun a =>
    (Blind.setWideField a _).bind fun _ => (Blind.setChild a _ _).bind fun _ => .pure a

theorem newBlockframe_pin : Commutes (pin v) (newBlockframe thunk env) h :=
  allocate_pin_with sound traceable held .blockframe 2 fun a =>
    (Blind.setChild a _ _).bind fun _ => .pure a

theorem newClosure_pin (arity pc : Int) : Commutes (pin v) (newClosure thunk arity pc env) h := by
  unfold newClosure
  split
  · exact Blind.fault _ v h
  · exact allocate_pin_with sound traceable held .closure 2 fun a =>
      (Blind.setField a _ _).bind fun _ => (Blind.setWideField a _).bind fun _ =>
        (Blind.setChild a _ _).bind fun _ => .pure a

end Env

theorem extend_pin {env frame : Addr} (sound : Sound h) (node : NodeIn h.words env)
    (traceable : Traceable h.words (thunk.get ++ (h.pinned ++ [env, frame])))
    (held : v < bottom ∨ Reaches h.words (thunk.get ++ (h.pinned ++ [env, frame])) v) :
    Commutes (pin v) (extend thunk env frame) h := by
  refine (Blind.childCount env v h).bind fun n h' run => ?_
  obtain ⟨-, rfl⟩ := EStateM.Result.ok.inj ((childCount_ok node).symm.trans run)
  split
  · exact Blind.fault _ v h
  · exact allocate_pin_with sound traceable held .environment _ fun a =>
      (Blind.forM fun i => (Blind.child env _).bind fun c => Blind.setChild a _ c).bind fun _ =>
        (Blind.setChild a _ _).bind fun _ => .pure a

end Collecting

end Heap

end FiberVm
