import FiberVm.Proofs.Heap.Constructors

/-!
# Environments that share frames

An environment lists frames, outermost first. It is built from the global one by adding a frame at a time, and the
frames are shared with the environment extended, so that one frame may be listed by many environments and at many
places. A variable is a slot of a frame: what is assigned through one environment is seen through all that list the
frame, wherever they list it, and no other variable changes. Nothing is assumed about the value that is assigned.
-/

set_option autoImplicit false

namespace FiberVm

namespace Heap

def IsFrame (words : Array Word) (f : Addr) : Prop := ∃ slots, Shows words f (.frame slots)

/-- The node at `e` is an environment that lists these frames. -/
structure Scope (words : Array Word) (e : Addr) (frames : List Addr) : Prop where
  env : Shows words e (.environment frames)
  frames : ∀ f ∈ frames, IsFrame words f

/-- The environment at `e` has been built by adding frames to the global one, and lists these; the heap is now `h`.
Variables may have been assigned in the meantime, and whatever spares the environment and its frames may have happened. -/
inductive Built : Heap → Addr → List Addr → Prop
  | globals {h : Heap} : Shows h.words globalEnv (.environment [builtinsFrame]) → IsFrame h.words builtinsFrame →
    Built h globalEnv [builtinsFrame]
  | extend {h h' : Heap} {thunk : Roots} {free frames : List Addr} {env f e : Addr} : Built h env frames →
    IsFrame h.words f → h.WellFormed free → Valid h.words (thunk.get ++ (h.pinned ++ [env, f])) →
    Heap.extend thunk env f h = .ok e h' → Built h' e (frames ++ [f])
  | assign {h h' : Heap} {frames frames' : List Addr} {e env v : Addr} {i j : Int} : Built h e frames →
    Built h env frames' → store env i j v h = .ok () h' → Built h' e frames
  | elsewhere {h h' : Heap} {frames : List Addr} {e : Addr} : Built h e frames → h'.words.size = h.words.size →
    (∀ a ∈ e :: frames, SameNode h.words h'.words a) → Built h' e frames

/-- The frame at index `i` of an environment that lists `frames`. -/
def frameAt (frames : List Addr) (i : Int) : Option Addr := if 0 ≤ i then frames[i.toNat]? else none

/-- What slot `j` of a frame holds. -/
def readSlot (slots : List Addr) (j : Int) : Except Failure Addr :=
  match if 0 ≤ j then slots[j.toNat]? else none with
  | some x => .ok x
  | none => .error (.fault (.slotIndex j slots.length))

/-- There is no frame at index `i`, or it has no slot at index `j`. -/
def Outside (words : Array Word) (frames : List Addr) (i j : Int) : Prop :=
  i < 0 ∨ (frames.length : Int) ≤ i ∨
    ∃ f slots, frameAt frames i = some f ∧ Shows words f (.frame slots) ∧ (j < 0 ∨ (slots.length : Int) ≤ j)

/-- The answer without the heap that is left. -/
def answer {α : Type} : EStateM.Result Failure Heap α → Except Failure α
  | .ok a _ => .ok a
  | .error e _ => .error e

/-- The operation ends with a fault of this kind. -/
def Fails {α : Type} (k : Kind) (r : EStateM.Result Failure Heap α) : Prop :=
  ∃ c h', r = .error (.fault c) h' ∧ c.kind = k

section Slots

variable {slots : List Addr} {j : Int}

theorem readSlot_inside (inside : 0 ≤ j ∧ j < slots.length) :
    ∃ x, slots[j.toNat]? = some x ∧ readSlot slots j = .ok x := by
  have lt : j.toNat < slots.length := by omega
  refine ⟨slots[j.toNat], List.getElem?_eq_getElem lt, ?_⟩
  rw [readSlot, if_pos inside.1, List.getElem?_eq_getElem lt]

theorem readSlot_outside (outside : j < 0 ∨ (slots.length : Int) ≤ j) :
    readSlot slots j = .error (.fault (.slotIndex j slots.length)) := by
  have none : (if 0 ≤ j then slots[j.toNat]? else none) = none := by
    split
    · exact List.getElem?_eq_none (by omega)
    · rfl
  rw [readSlot, none]

theorem readSlot_set {k : Int} (inside : 0 ≤ k ∧ k < slots.length) (v : Addr) :
    readSlot (slots.set k.toNat v) j = if j = k then .ok v else readSlot slots j := by
  have lt : k.toNat < slots.length := by omega
  by_cases same : j = k
  · rw [if_pos same, readSlot, same, if_pos inside.1, List.getElem?_set_self lt]
  · rw [if_neg same]
    by_cases low : 0 ≤ j
    · rw [readSlot, readSlot, if_pos low, if_pos low, List.getElem?_set_ne (by omega), List.length_set]
    · rw [readSlot, readSlot, if_neg low, if_neg low, List.length_set]

theorem frameAt_eq_none {frames : List Addr} {i : Int} :
    frameAt frames i = none ↔ i < 0 ∨ (frames.length : Int) ≤ i := by
  unfold frameAt
  split
  · rw [List.getElem?_eq_none_iff]
    omega
  · exact iff_of_true rfl (.inl (by omega))

theorem frameAt_eq_some {frames : List Addr} {i : Int} {f : Addr} :
    frameAt frames i = some f ↔ 0 ≤ i ∧ frames[i.toNat]? = some f := by
  unfold frameAt
  split
  · next low => simp [low]
  · next low => simp [low]

end Slots

section Scopes

variable {h h' : Heap} {free roots frames slots : List Addr} {e f v : Addr} {i j : Int}

theorem Scope.of_same (s : Scope h.words e frames) (size : h'.words.size = h.words.size)
    (same : ∀ a ∈ e :: frames, SameNode h.words h'.words a) : Scope h'.words e frames := by
  constructor
  · exact s.env.of_same (same e List.mem_cons_self) size
  · intro f mem
    obtain ⟨slots, shows⟩ := s.frames f mem
    exact ⟨slots, shows.of_same (same f (List.mem_cons_of_mem e mem)) size⟩

/-- A frame stays a frame when one of its slots is written, and it is no environment. -/
theorem Scope.updates {slots' : List Addr} (s : Scope h.words e frames) (t : Shows h.words f (.frame slots))
    (u : Updates h h' f (.frame slots')) : Scope h'.words e frames := by
  have apart : e ≠ f := by
    intro eq
    have tags := (eq ▸ s.env).tagAt.symm.trans t.tagAt
    cases tags
  constructor
  · exact u.toOnly.shows apart s.env
  · intro g mem
    by_cases same : g = f
    · exact ⟨slots', same ▸ u.shows⟩
    · obtain ⟨slots, shows⟩ := s.frames g mem
      exact ⟨slots, u.toOnly.shows same shows⟩

theorem Scope.refers {words : Array Word} (s : Scope words e frames) (mem : f ∈ frames) : Refers words e f := by
  rw [refers_iff s.env.node s.env.layout, s.env.refs]
  exact mem

/-- The frames of an environment that is kept alive are kept alive. -/
theorem Scope.held (s : Scope h.words e frames) (wf : h.WellFormed free) (live : e < bottom ∨ Reaches h.words roots e) :
    ∀ a ∈ e :: frames, NodeIn h.words a ∧ (a < bottom ∨ Reaches h.words roots a) := by
  intro a mem
  rcases List.mem_cons.1 mem with rfl | mem
  · exact ⟨s.env.node, live⟩
  · obtain ⟨slots, shows⟩ := s.frames a mem
    refine ⟨shows.node, ?_⟩
    have refers := s.refers mem
    by_cases low : e < bottom
    · refine .inl ((wf.low e a s.env.node low refers).resolve_left ?_)
      intro none
      exact not_nodeIn_noAddr wf.sized.small (none ▸ shows.node)
    · exact .inr ((live.resolve_left low).step (UInt32.not_lt.1 low) refers)

theorem slotFrame_none (s : Scope h.words e frames) (none : frameAt frames i = none) :
    slotFrame e i j h = .error (.fault (.frameIndex i frames.length)) h :=
  slotFrame_of_frame s.env (frameAt_eq_none.1 none)

theorem lookup_none (s : Scope h.words e frames) (none : frameAt frames i = none) :
    lookup e i j h = .error (.fault (.frameIndex i frames.length)) h := by
  rw [lookup, bind_of_error (slotFrame_none s none)]

/-- A variable is read from the frame, whatever else the environment lists. -/
theorem lookup_some (s : Scope h.words e frames) (get : frameAt frames i = some f) (t : Shows h.words f (.frame slots)) :
    lookup e i j h = match readSlot slots j with
      | .ok x => .ok x h
      | .error c => .error c h := by
  obtain ⟨low, get⟩ := frameAt_eq_some.1 get
  by_cases inside : 0 ≤ j ∧ j < slots.length
  · obtain ⟨x, slot, read⟩ := readSlot_inside inside
    rw [lookup, bind_of_ok (slotFrame_shows s.env get t low inside), read]
    exact child_frame t (Int.toNat_of_nonneg inside.1).symm slot
  · have outside : j < 0 ∨ (slots.length : Int) ≤ j := by omega
    rw [lookup, bind_of_error (slotFrame_of_slot s.env get t low outside), readSlot_outside outside]

theorem store_some (s : Scope h.words e frames) (get : frameAt frames i = some f) (t : Shows h.words f (.frame slots))
    (inside : 0 ≤ j ∧ j < slots.length) (v : Addr) :
    ∃ h', store e i j v h = .ok () h' ∧ Updates h h' f (.frame (slots.set j.toNat v)) := by
  obtain ⟨low, get⟩ := frameAt_eq_some.1 get
  have lt : j.toNat < slots.length := by omega
  obtain ⟨h', run, u⟩ := setChild_slots (.inl rfl) t (Int.toNat_of_nonneg inside.1).symm lt v
  exact ⟨h', by rw [store, bind_of_ok (slotFrame_shows s.env get t low inside), run], u⟩

/-- Writing a variable either finds it or changes nothing. -/
theorem store_cases (s : Scope h.words e frames) (i j : Int) (v : Addr) :
    (∃ c, store e i j v h = .error (.fault c) h ∧ lookup e i j h = .error (.fault c) h ∧ c.kind = .malformedProgram ∧
      Outside h.words frames i j) ∨
    ∃ f slots, frameAt frames i = some f ∧ Shows h.words f (.frame slots) ∧ 0 ≤ j ∧ j < slots.length := by
  cases get : frameAt frames i with
  | none =>
    refine .inl ⟨.frameIndex i frames.length, ?_, lookup_none s get, rfl, ?_⟩
    · rw [store, bind_of_error (slotFrame_none s get)]
    · exact (frameAt_eq_none.1 get).elim .inl fun above => .inr (.inl above)
  | some f =>
    obtain ⟨low, at_i⟩ := frameAt_eq_some.1 get
    obtain ⟨slots, t⟩ := s.frames f (List.mem_of_getElem? at_i)
    by_cases inside : 0 ≤ j ∧ j < slots.length
    · exact .inr ⟨f, slots, rfl, t, inside⟩
    · have outside : j < 0 ∨ (slots.length : Int) ≤ j := by omega
      have missing := slotFrame_of_slot s.env at_i t low outside
      refine .inl ⟨.slotIndex j slots.length, ?_, ?_, rfl, .inr (.inr ⟨f, slots, get, t, outside⟩)⟩
      · rw [store, bind_of_error missing]
      · rw [lookup, bind_of_error missing]

theorem not_outside (get : frameAt frames i = some f) (t : Shows h.words f (.frame slots))
    (inside : 0 ≤ j ∧ j < slots.length) : ¬ Outside h.words frames i j := by
  intro outside
  have within : ¬ (i < 0 ∨ (frames.length : Int) ≤ i) := by
    rw [← frameAt_eq_none, get]
    nofun
  rcases outside with below | above | ⟨g, slots', get', t', outside⟩
  · exact within (.inl below)
  · exact within (.inr above)
  · obtain rfl := Option.some.inj (get.symm.trans get')
    have sizes : slots.length + 1 = slots'.length + 1 := t.size.symm.trans t'.size
    omega

/-- A variable that is written is the same variable of every environment that lists its frame. -/
theorem lookup_updates {frames' : List Addr} {i' j' : Int} (s : Scope h.words e frames)
    (t : Shows h.words f (.frame slots)) (get : frameAt frames' i' = some f) (inside : 0 ≤ j' ∧ j' < slots.length)
    (u : Updates h h' f (.frame (slots.set j'.toNat v))) :
    answer (lookup e i j h') =
      if frameAt frames i = frameAt frames' i' ∧ j = j' then .ok v else answer (lookup e i j h) := by
  have s' := s.updates t u
  rw [get]
  cases at_i : frameAt frames i with
  | none => rw [lookup_none s at_i, lookup_none s' at_i, if_neg nofun, answer, answer]
  | some g =>
    by_cases same : g = f
    · subst same
      rw [lookup_some s at_i t, lookup_some s' at_i u.shows, readSlot_set inside]
      by_cases slot : j = j'
      · rw [if_pos slot, if_pos ⟨rfl, slot⟩, answer]
      · rw [if_neg slot, if_neg fun both => slot both.2]
        cases readSlot slots j <;> rfl
    · obtain ⟨slots', t'⟩ := s.frames g (List.mem_of_getElem? (frameAt_eq_some.1 at_i).2)
      rw [lookup_some s at_i t', lookup_some s' at_i (u.toOnly.shows same t'),
        if_neg fun both => same (Option.some.inj both.1)]
      cases readSlot slots' j <;> rfl

end Scopes

/-- All that `live` leads to is what it was. The environments among it list the frames that they listed. -/
structure Shared (live : List Addr) (h h' : Heap) : Prop extends Making.Spared live h h' where
  size : h'.words.size = h.words.size
  built : ∀ e frames, Built h e frames → e < bottom ∨ Closure h.words live e → Built h' e frames

/-- How adding the frame at `f` to the environment at `e` ends. The new environment is no node that was in use. -/
inductive Extends (thunk : Roots) (e f : Addr) (frames : List Addr) (h : Heap) : EStateM.Result Failure Heap Addr → Prop
  | made {e' : Addr} {h' : Heap} : frames.length < 15 → Built h' e' (frames ++ [f]) → bottom ≤ e' →
    ¬ Closure h.words (thunk.get ++ (h.pinned ++ [e, f])) e' → Shared (thunk.get ++ (h.pinned ++ [e, f])) h h' →
    Extends thunk e f frames h (.ok e' h')
  | full {c : Cause} : frames.length = 15 → c.kind = .nodeCapacity → Extends thunk e f frames h (.error (.fault c) h)
  | noMemory {c : Cause} {h' : Heap} : frames.length < 15 → c.kind = .outOfMemory →
    Shared (thunk.get ++ (h.pinned ++ [e, f])) h h' → Extends thunk e f frames h (.error (.fault c) h')

section Extending

variable {h h' : Heap} {thunk : Roots} {free frames live : List Addr} {e e' f : Addr}

theorem Scope.extend (s : Scope h.words e frames) (frame : IsFrame h.words f) (wf : h.WellFormed free)
    (valid : Valid h.words (thunk.get ++ (h.pinned ++ [e, f]))) (run : Heap.extend thunk e f h = .ok e' h') :
    Scope h'.words e' (frames ++ [f]) := by
  have sound := wf.sound
  have lists := s.env.lists (.inr rfl)
  by_cases room : frames.length < 15
  · have alloc := extend_allocates sound (wf.traceable valid) lists room
    rw [run] at alloc
    obtain ⟨a, h₁, eq, fresh, shows⟩ | ⟨n, h₁, eq, -⟩ := alloc
    · cases eq
      have kept : ∀ g, IsFrame h.words g → g < bottom ∨ Reaches h.words (thunk.get ++ (h.pinned ++ [e, f])) g →
          IsFrame h'.words g := by
        rintro g ⟨slots, t⟩ live
        exact ⟨slots, t.of_same (fresh.same g t.node live) fresh.size⟩
      refine ⟨shows, fun g mem => ?_⟩
      rcases List.mem_append.1 mem with mem | mem
      · exact kept g (s.frames g mem) (s.held wf (.inr (.root (by simp))) g (List.mem_cons_of_mem e mem)).2
      · obtain rfl := List.mem_singleton.1 mem
        exact kept g frame (.inr (.root (by simp)))
    · cases eq
  · rw [Heap.extend, bind_of_ok lists.childCount, if_pos (by unfold maxChildren; omega)] at run
    cases run

/-- By induction on how the environment was built and on what has happened since. -/
theorem Built.scope (b : Built h e frames) : Scope h.words e frames := by
  induction b with
  | globals env frame => exact ⟨env, List.forall_mem_singleton.2 frame⟩
  | extend _ frame wf valid run ih => exact ih.extend frame wf valid run
  | @assign h h' _ _ e env v i j _ _ run ih ih' =>
    rcases store_cases ih' i j v with ⟨c, fails, -⟩ | ⟨f, slots, get, t, inside⟩
    · rw [fails] at run
      cases run
    · obtain ⟨h₁, done, u⟩ := store_some ih' get t inside v
      rw [done] at run
      cases run
      exact ih.updates t u
  | elsewhere _ size same ih => exact ih.of_same size same

theorem Shared.of_kept (wf : h.WellFormed free) (valid : Valid h.words live) (kept : Kept live h h') :
    Shared live h h' := by
  refine ⟨.of_kept wf valid kept, kept.size, fun e frames b held => ?_⟩
  have reached : e < bottom ∨ Reaches h.words live e := by
    refine held.elim .inl fun closure => ?_
    refine (wf.reaches_of_closure valid closure).symm.imp_left fun skipped => skipped.resolve_left ?_
    intro none
    exact not_nodeIn_noAddr wf.sized.small (none ▸ b.scope.env.node)
  refine b.elsewhere kept.size fun a mem => ?_
  obtain ⟨node, alive⟩ := b.scope.held wf reached a mem
  exact kept.same a node alive

theorem Built.extends (b : Built h e frames) (frame : IsFrame h.words f) (wf : h.WellFormed free)
    (valid : Valid h.words (thunk.get ++ (h.pinned ++ [e, f]))) :
    Extends thunk e f frames h (Heap.extend thunk e f h) := by
  have sound := wf.sound
  have lists := b.scope.env.lists (.inr rfl)
  by_cases room : frames.length < 15
  · have alloc := extend_allocates sound (wf.traceable valid) lists room
    obtain ⟨e', h', run, fresh, shows⟩ | ⟨n, h', run, kept⟩ := alloc
    · rw [run]
      refine .made room (b.extend frame wf valid run) fresh.high (fun old => ?_) (.of_kept wf valid fresh.toKept)
      have node : NodeIn h.words e' := (nodeIn_congr fresh.size).1 shows.node
      exact fresh.unreached ((wf.closure_iff valid node fresh.high).1 old)
    · rw [run]
      exact .noMemory room rfl (.of_kept wf valid kept)
  · rw [Heap.extend, bind_of_ok lists.childCount, if_pos (by unfold maxChildren; omega)]
    exact .full (by have := lists.room; omega) rfl

end Extending

section

variable {h : Heap} {e₁ e₂ : Addr} {frames₁ frames₂ : List Addr}

/-- Slots of shared frames are variables. -/
theorem frames_are_variables (b₁ : Built h e₁ frames₁) (b₂ : Built h e₂ frames₂) (i₁ j₁ i₂ j₂ : Int) (v : Addr) :
    (Fails .malformedProgram (store e₁ i₁ j₁ v h) ↔ Outside h.words frames₁ i₁ j₁) ∧
    (Fails .malformedProgram (lookup e₁ i₁ j₁ h) ↔ Outside h.words frames₁ i₁ j₁) ∧
    (∀ c h', store e₁ i₁ j₁ v h = .error c h' → h' = h ∧ Outside h.words frames₁ i₁ j₁) ∧
    (¬ Outside h.words frames₁ i₁ j₁ → ∃ x h', lookup e₁ i₁ j₁ h = .ok x h ∧ store e₁ i₁ j₁ v h = .ok () h' ∧
      answer (lookup e₂ i₂ j₂ h') =
        if frameAt frames₂ i₂ = frameAt frames₁ i₁ ∧ j₂ = j₁ then .ok v else answer (lookup e₂ i₂ j₂ h)) ∧
    ∀ thunk free f, h.WellFormed free → IsFrame h.words f → Valid h.words (thunk.get ++ (h.pinned ++ [e₁, f])) →
      Extends thunk e₁ f frames₁ h (extend thunk e₁ f h) := by
  refine and_assoc.1 (and_assoc.1 (and_assoc.1 ⟨?_, fun thunk free f wf frame valid => b₁.extends frame wf valid⟩))
  rcases store_cases b₁.scope i₁ j₁ v with ⟨c, fails, fails', kind, outside⟩ | ⟨f, slots, get, t, inside⟩
  · rw [fails, fails']
    refine ⟨⟨⟨iff_of_true ⟨c, h, rfl, kind⟩ outside, iff_of_true ⟨c, h, rfl, kind⟩ outside⟩, ?_⟩,
      fun not => absurd outside not⟩
    rintro _ _ ⟨⟩
    exact ⟨rfl, outside⟩
  · have not := not_outside get t inside
    obtain ⟨x, -, read⟩ := readSlot_inside inside
    obtain ⟨h', run, u⟩ := store_some b₁.scope get t inside v
    have found : lookup e₁ i₁ j₁ h = .ok x h := by rw [lookup_some b₁.scope get t, read]
    rw [run, found]
    refine ⟨⟨⟨iff_of_false ?_ not, iff_of_false ?_ not⟩, ?_⟩,
      fun _ => ⟨x, h', rfl, rfl, lookup_updates b₂.scope t get inside u⟩⟩
    · rintro ⟨_, _, ⟨⟩, _⟩
    · rintro ⟨_, _, ⟨⟩, _⟩
    · rintro _ _ ⟨⟩

/-- The frame of the builtins, listed twice: what is assigned through the global environment is seen at the other index. -/
theorem frames_are_variables_twice : ∃ h₁ h₂, extend (.pure []) globalEnv builtinsFrame ouroboros = .ok 272 h₁ ∧
    Built h₁ globalEnv [builtinsFrame] ∧ Built h₁ 272 [builtinsFrame, builtinsFrame] ∧
    store globalEnv 0 3 nil h₁ = .ok () h₂ ∧ answer (lookup 272 1 3 h₂) = .ok nil ∧
    answer (lookup 272 1 4 h₂) = answer (lookup 272 1 4 h₁) := by
  let slots : List Addr := (List.range 10).map fun i => (64 + 16 * i).toUInt32
  have env : Shows ouroboros.words globalEnv (.environment [builtinsFrame]) := by decide +kernel
  have frame : Shows ouroboros.words builtinsFrame (.frame slots) := by decide +kernel
  have global : Built ouroboros globalEnv [builtinsFrame] := .globals env ⟨slots, frame⟩
  have refers : Refers ouroboros.words globalEnv builtinsFrame := global.scope.refers List.mem_cons_self
  have valid : Valid ouroboros.words [globalEnv, builtinsFrame] := by
    intro a closure
    refine valid_ouroboros a ?_
    induction closure with
    | root mem =>
      rcases List.mem_cons.1 mem with rfl | mem
      · exact .root List.mem_cons_self
      · exact List.mem_singleton.1 mem ▸ .step (.root List.mem_cons_self) refers
    | step _ refers ih => exact ih.step refers
  have place : (extend (.pure []) globalEnv builtinsFrame).run' ouroboros = some (272 : Addr) := by decide +kernel
  have ends := (frames_are_variables global global 0 3 0 3 nil).2.2.2.2 (.pure []) [272] builtinsFrame
    wellFormed_ouroboros ⟨slots, frame⟩ valid
  unfold EStateM.run' EStateM.run at place
  cases run : extend (.pure []) globalEnv builtinsFrame ouroboros with
  | error e h' =>
    rw [run] at place
    cases place
  | ok a h₁ =>
    rw [run] at place ends
    obtain rfl := Option.some.inj place
    cases ends with
    | made _ built _ _ shared =>
      have global₁ : Built h₁ globalEnv [builtinsFrame] := shared.built _ _ global (.inl (by decide))
      have frame₁ : Shows h₁.words builtinsFrame (.frame slots) :=
        frame.of_same (shared.same _ frame.node (.inl (by decide))) shared.size
      have inside : ¬ Outside h₁.words [builtinsFrame] 0 3 := not_outside rfl frame₁ (by decide)
      obtain ⟨-, h₂, -, stored, seen⟩ := (frames_are_variables global₁ built 0 3 1 3 nil).2.2.2.1 inside
      obtain ⟨-, h₃, -, stored', kept⟩ := (frames_are_variables global₁ built 0 3 1 4 nil).2.2.2.1 inside
      obtain rfl : h₃ = h₂ := by
        cases stored'.symm.trans stored
        rfl
      exact ⟨h₁, h₃, rfl, global₁, built, stored, seen, kept⟩

end

end Heap

end FiberVm
