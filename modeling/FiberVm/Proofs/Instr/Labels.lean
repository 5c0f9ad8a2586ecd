import Mathlib.Data.List.Forall2
import FiberVm.Instr.Builder

/-!
# Labels are indices

A builder completes an instruction that refers to a label at once where the label is marked already, and when it is
marked otherwise. What comes out is read off the calls that were accepted alone: one entry for each that writes an
instruction, and for each label the number of entries that were written before it was marked.

The builder after any calls is the one that is read off them, `Builder.written`, the lists of waiting instructions
included. One lemma says so of one more call, and all else is about lists.
-/

set_option autoImplicit false

namespace FiberVm

attribute [ext] Builder

namespace Builder

/-- A call on a builder. Labels are numbered in the order in which they are made. -/
inductive Call
  | newLabel
  | emit (instr : Option Instr)
  | emitBuiltin (name : String)
  | emitJump (op : Opcode) (label : Nat)
  | emitLoadFunc (arity : Int) (entry : Nat)
  | emitStartFiber (stop : Nat)
  | mark (label : Nat)
deriving DecidableEq

/-- The builder after a call, or why the call is refused. -/
def call (b : Builder) : Call → Except Refusal Builder
  | .newLabel => .ok b.newLabel
  | .emit instr => .ok (b.emit instr)
  | .emitBuiltin name => b.emitBuiltin name
  | .emitJump op label => b.emitJump op label
  | .emitLoadFunc arity entry => b.emitLoadFunc arity entry
  | .emitStartFiber stop => b.emitStartFiber stop
  | .mark label => b.mark label

/-- The builder after some calls. Those that are refused leave it as it is. -/
def session : Builder → List Call → Builder
  | b, [] => b
  | b, c :: calls =>
    match b.call c with
    | .ok b' => b'.session calls
    | .error _ => b.session calls

/-- The calls that are accepted. -/
def accepted : Builder → List Call → List Call
  | _, [] => []
  | b, c :: calls =>
    match b.call c with
    | .ok b' => c :: b'.accepted calls
    | .error _ => b.accepted calls

/-- An instruction whose target, entry or stop is left to a label. -/
inductive Reference
  | jumpOnFalse
  | goto
  | loadFunc (arity : Int)
  | startFiber

def Reference.instr (target : Int) : Reference → Instr
  | jumpOnFalse => .jumpOnFalse target
  | goto => .goto target
  | loadFunc arity => .loadFunc arity target
  | startFiber => .startFiber target

/-- What a call writes. -/
inductive Entry
  | plain (instr : Option Instr)
  | labelled (ref : Reference) (label : Nat)

namespace Call

/-- The entry that a call writes once it is accepted. -/
def item? : Call → Option Entry
  | newLabel => none
  | emit instr => some (.plain instr)
  | emitBuiltin name => (Builtin.slot? name).map fun slot : Nat => .plain (some (.load ⟨0, slot⟩ name))
  | emitJump op label => some (.labelled (if op = .jof then .jumpOnFalse else .goto) label)
  | emitLoadFunc arity entry => some (.labelled (.loadFunc arity) entry)
  | emitStartFiber stop => some (.labelled .startFiber stop)
  | mark _ => none

/-- The number of labels that were made. -/
def labels (calls : List Call) : Nat := calls.countP (· = .newLabel)

def entries (calls : List Call) : List Entry := calls.filterMap item?

/-- The index that was next when the label was marked. -/
def place? (calls : List Call) (label : Nat) : Option Nat :=
  if .mark label ∈ calls then some (entries (calls.takeWhile (· ≠ .mark label))).length else none

/-- Why a call is refused after these. -/
def refusal? (calls : List Call) : Call → Option Refusal
  | newLabel | emit _ => none
  | emitBuiltin name => if (Builtin.slot? name).isSome then none else some (.unknownBuiltin name)
  | emitJump op label =>
    if op = .jof ∨ op = .goto then if label < labels calls then none else some .foreignLabel else some (.notJump op)
  | emitLoadFunc _ label | emitStartFiber label => if label < labels calls then none else some .foreignLabel
  | mark label =>
    if label < labels calls then if .mark label ∈ calls then some .alreadyMarked else none else some .foreignLabel

end Call

/-- The finished entry: as it was given, or with the index its label was marked at. -/
inductive Settles (calls : List Call) : Entry → Option Instr → Prop
  | plain (instr : Option Instr) : Settles calls (.plain instr) instr
  | labelled (ref : Reference) {label place : Nat} : Call.place? calls label = some place →
      Settles calls (.labelled ref label) (some (ref.instr place))

/-! ## What one more call adds -/

namespace Call

variable (calls : List Call) (c : Call) (label : Nat)

theorem entries_concat : entries (calls ++ [c]) = entries calls ++ c.item?.toList := by
  rw [entries, List.filterMap_append]
  cases h : c.item? <;> simp [h, entries]

theorem labels_concat : labels (calls ++ [c]) = labels calls + if c = .newLabel then 1 else 0 := by
  by_cases h : c = .newLabel <;> simp [labels, h]

theorem place?_eq_none : place? calls label = none ↔ .mark label ∉ calls := by
  simp [place?]

variable {calls c label}

theorem exists_place? (h : Call.mark label ∈ calls) : ∃ place, place? calls label = some place :=
  ⟨_, if_pos h⟩

theorem place?_split {post : List Call} (h : Call.mark label ∉ calls) :
    place? (calls ++ .mark label :: post) label = some (entries calls).length := by
  have ht : (calls ++ .mark label :: post).takeWhile (· ≠ .mark label) = calls := by
    rw [List.takeWhile_append_of_pos]
    · simp
    · intro c hc
      simpa using ne_of_mem_of_not_mem hc h
  rw [place?, if_pos (by simp), ht]

theorem place?_concat_of_ne (h : c ≠ .mark label) : place? (calls ++ [c]) label = place? calls label := by
  by_cases hl : .mark label ∈ calls
  · -- The first mark is what counts, and it stays the first.
    obtain ⟨pre, post, rfl, hpre⟩ := List.eq_append_cons_of_mem hl
    rw [place?_split hpre, List.append_assoc, List.cons_append, place?_split hpre]
  · have hm : Call.mark label ∉ calls ++ [c] := by simp [hl, Ne.symm h]
    rw [(place?_eq_none ..).mpr hl, (place?_eq_none ..).mpr hm]

end Call

/-! ## The builder that is read off the accepted calls -/

/-- The entry, with zero for a label that has no index yet. -/
def Entry.view (place? : Nat → Option Nat) : Entry → Option Instr
  | plain instr => instr
  | labelled ref label => some (ref.instr ((place? label).getD 0 : Nat))

def Entry.uses (label : Nat) : Entry → Bool
  | plain _ => false
  | labelled _ l => l = label

/-- The indices, from `start` on, of the entries that refer to a label. -/
def uses (label start : Nat) (entries : List Entry) : List Nat :=
  ((entries.zipIdx start).filter (·.1.uses label)).map (·.2)

/-- The label as it stands after the calls. -/
def writtenLabel (calls : List Call) (label : Nat) : Label :=
  match Call.place? calls label with
  | some place => { position := some place }
  | none => { refs := uses label 0 (Call.entries calls) }

/-- The builder as it stands after the calls. -/
def written (calls : List Call) : Builder where
  code := ((Call.entries calls).map (Entry.view (Call.place? calls))).toArray
  labels := ((List.range (Call.labels calls)).map (writtenLabel calls)).toArray

/-- Only labels that were made are marked or referred to. -/
structure Known (calls : List Call) : Prop where
  marked : ∀ label, .mark label ∈ calls → label < Call.labels calls
  used : ∀ ref label, .labelled ref label ∈ Call.entries calls → label < Call.labels calls

theorem uses_concat (label start : Nat) (entries : List Entry) (e : Entry) :
    uses label start (entries ++ [e]) =
      uses label start entries ++ if e.uses label then [start + entries.length] else [] := by
  by_cases h : e.uses label = true <;> simp [uses, List.zipIdx_append, h]

theorem uses_eq_nil {label start : Nat} {entries : List Entry} :
    uses label start entries = [] ↔ ∀ ref, .labelled ref label ∉ entries := by
  induction entries generalizing start with
  | nil => simp [uses]
  | cons e entries ih =>
    cases e with
    | plain instr => simpa [uses, Entry.uses] using @ih (start + 1)
    | labelled ref l =>
      by_cases h : l = label
      · simp [uses, Entry.uses, h]
        exact ⟨ref, fun h => absurd rfl h⟩
      · simpa [uses, Entry.uses, h, Ne.symm h] using @ih (start + 1)

theorem of_mem_uses {label i : Nat} {entries : List Entry} (h : i ∈ uses label 0 entries) :
    ∃ ref, entries[i]? = some (.labelled ref label) := by
  obtain ⟨⟨e, _⟩, he, rfl⟩ := List.mem_map.mp h
  obtain ⟨hmem, hu⟩ := List.mem_filter.mp he
  cases e with
  | plain instr => simp [Entry.uses] at hu
  | labelled ref l =>
    obtain rfl : l = label := by simpa [Entry.uses] using hu
    exact ⟨ref, List.mk_mem_zipIdx_iff_getElem?.mp hmem⟩

theorem Call.label_lt {calls : List Call} {c : Call} {ref : Reference} {label : Nat}
    (h : c.item? = some (.labelled ref label)) (hc : c.refusal? calls = none) : label < labels calls := by
  by_contra hn
  cases c with
  | newLabel => simp [item?] at h
  | emit instr => simp [item?] at h
  | emitBuiltin name => simp [item?] at h
  | emitJump op l =>
    obtain ⟨-, rfl⟩ : _ ∧ l = label := by simpa [item?] using h
    simp only [refusal?, hn, if_false] at hc
    split at hc <;> simp at hc
  | emitLoadFunc arity l =>
    obtain ⟨-, rfl⟩ : _ ∧ l = label := by simpa [item?] using h
    simp [refusal?, hn] at hc
  | emitStartFiber l =>
    obtain ⟨-, rfl⟩ : _ ∧ l = label := by simpa [item?] using h
    simp [refusal?, hn] at hc
  | mark l => simp [item?] at h

theorem Known.snoc {calls : List Call} {c : Call} (h : Known calls) (hc : c.refusal? calls = none) :
    Known (calls ++ [c]) := by
  constructor
  · intro label hl
    rw [Call.labels_concat]
    rcases List.mem_append.mp hl with hl | hl
    · exact Nat.lt_add_right _ (h.marked label hl)
    · obtain rfl := List.mem_singleton.mp hl
      apply Nat.lt_add_right
      by_contra hn
      simp [Call.refusal?, hn] at hc
  · intro ref label hl
    rw [Call.labels_concat]
    rw [Call.entries_concat] at hl
    rcases List.mem_append.mp hl with hl | hl
    · exact Nat.lt_add_right _ (h.used ref label hl)
    · exact Nat.lt_add_right _ (Call.label_lt (by simpa using hl) hc)

/-! ## Patching -/

theorem view_placed {place? : Nat → Option Nat} {label place : Nat} {e : Entry} (h : e.uses label = false) :
    e.view (Function.update place? label (some place)) = e.view place? := by
  cases e with
  | plain instr => rfl
  | labelled ref l =>
    have hl : l ≠ label := by simpa [Entry.uses] using h
    simp [Entry.view, hl]

theorem patch_instr (ref : Reference) (old new : Int) (pre post : List (Option Instr)) :
    patch (pre ++ some (ref.instr old) :: post).toArray pre.length new =
      .ok (pre ++ some (ref.instr new) :: post).toArray := by
  cases ref <;> simp [patch, Reference.instr, retarget, Except.map]

theorem patch_view {place? : Nat → Option Nat} {label : Nat} {e : Entry} (pre post : List (Option Instr)) (place : Nat)
    (h : e.uses label = true) :
    patch (pre ++ e.view place? :: post).toArray pre.length place =
      .ok (pre ++ e.view (Function.update place? label (some place)) :: post).toArray := by
  cases e with
  | plain instr => simp [Entry.uses] at h
  | labelled ref l =>
    obtain rfl : l = label := by simpa [Entry.uses] using h
    simpa [Entry.view] using patch_instr ref ((place? l).getD 0 : Nat) place pre post

theorem patch_uses {place? : Nat → Option Nat} {label place : Nat} (entries : List Entry) (pre : List (Option Instr)) :
    (uses label pre.length entries).foldlM (fun code ref => patch code ref place)
        (pre ++ entries.map (Entry.view place?)).toArray =
      .ok (pre ++ entries.map (Entry.view (Function.update place? label (some place)))).toArray := by
  -- What has been completed is moved to `pre`, since an instruction is found by its place in all of the code.
  induction entries generalizing pre with
  | nil => simp [uses]; rfl
  | cons e entries ih =>
    have next (x : Option Instr) :
        (uses label (pre.length + 1) entries).foldlM (fun code ref => patch code ref place)
            (pre ++ x :: entries.map (Entry.view place?)).toArray =
          .ok (pre ++ x :: entries.map (Entry.view (Function.update place? label (some place)))).toArray := by
      simpa using ih (pre ++ [x])
    by_cases h : e.uses label = true
    · have hu : uses label pre.length (e :: entries) = pre.length :: uses label (pre.length + 1) entries := by
        simp [uses, h]
      rw [hu, List.foldlM_cons, List.map_cons, patch_view pre _ place h]
      exact next _
    · have h' : e.uses label = false := by simpa using h
      have hu : uses label pre.length (e :: entries) = uses label (pre.length + 1) entries := by simp [uses, h']
      rw [hu, List.map_cons, List.map_cons, view_placed h']
      exact next _

/-! ## One more call -/

section Call

variable {calls : List Call} {c : Call}

theorem writtenLabel_of_unmarked {label : Nat} (h : Call.mark label ∉ calls) :
    writtenLabel calls label = { refs := uses label 0 (Call.entries calls) } := by
  simp [writtenLabel, (Call.place?_eq_none ..).mpr h]

theorem writtenLabel_of_place? {label place : Nat} (h : Call.place? calls label = some place) :
    writtenLabel calls label = { position := some place } := by
  simp [writtenLabel, h]

theorem writtenLabel_concat {label : Nat} (hm : c ≠ .mark label)
    (hu : ∀ e, c.item? = some e → e.uses label = false) :
    writtenLabel (calls ++ [c]) label = writtenLabel calls label := by
  have he : uses label 0 (Call.entries (calls ++ [c])) = uses label 0 (Call.entries calls) := by
    rw [Call.entries_concat]
    cases h : c.item? with
    | none => simp
    | some e => simp [uses_concat, hu e h]
  rw [writtenLabel, writtenLabel, Call.place?_concat_of_ne hm, he]

theorem code_concat (h : ∀ label, c ≠ .mark label) :
    (written (calls ++ [c])).code =
      ((Call.entries calls).map (Entry.view (Call.place? calls)) ++
        c.item?.toList.map (Entry.view (Call.place? calls))).toArray := by
  have hp : Call.place? (calls ++ [c]) = Call.place? calls := funext fun label => Call.place?_concat_of_ne (h label)
  rw [written, hp, Call.entries_concat, List.map_append]

theorem labels_concat_of_one (label : Nat) (hn : c ≠ .newLabel)
    (h : ∀ l ≠ label, writtenLabel (calls ++ [c]) l = writtenLabel calls l) :
    (written (calls ++ [c])).labels =
      (written calls).labels.setIfInBounds label (writtenLabel (calls ++ [c]) label) := by
  simp only [written, Call.labels_concat, if_neg hn, Nat.add_zero, List.setIfInBounds_toArray]
  congr 1
  apply List.ext_getElem?
  intro l
  by_cases hl : l = label
  · subst hl
    by_cases hlt : l < Call.labels calls <;> simp [hlt]
  · by_cases hlt : l < Call.labels calls <;> simp [hlt, Ne.symm hl, h l hl]

theorem labels_concat_of_none (hn : c ≠ .newLabel) (h : ∀ l, writtenLabel (calls ++ [c]) l = writtenLabel calls l) :
    (written (calls ++ [c])).labels = (written calls).labels := by
  simp [written, Call.labels_concat, hn, h]

theorem labels_getElem? (label : Nat) :
    (written calls).labels[label]? =
      if label < Call.labels calls then some (writtenLabel calls label) else none := by
  by_cases h : label < Call.labels calls <;> simp [written, h]

theorem size_written : (written calls).code.size = (Call.entries calls).length := by
  simp [written]

theorem call_newLabel (hk : Known calls) : (written calls).newLabel = written (calls ++ [.newLabel]) := by
  have hl : writtenLabel (calls ++ [.newLabel]) (Call.labels calls) = {} := by
    have hm : Call.mark (Call.labels calls) ∉ calls := fun h => Nat.lt_irrefl _ (hk.marked _ h)
    have hu : uses (Call.labels calls) 0 (Call.entries calls) = [] :=
      uses_eq_nil.mpr fun ref h => Nat.lt_irrefl _ (hk.used ref _ h)
    rw [writtenLabel_concat (by simp) (by simp [Call.item?]), writtenLabel_of_unmarked hm, hu]
  have hold (l : Nat) : writtenLabel (calls ++ [.newLabel]) l = writtenLabel calls l :=
    writtenLabel_concat (by simp) (by simp [Call.item?])
  apply Builder.ext
  · rw [code_concat (by simp)]
    simp [newLabel, written, Call.item?]
  · simp [newLabel, written, Call.labels_concat, List.range_succ, hold, ← hl]

theorem call_plain {instr : Option Instr} (h : c.item? = some (.plain instr)) :
    (written calls).emit instr = written (calls ++ [c]) := by
  have hm (l : Nat) : c ≠ .mark l := by
    rintro rfl
    simp [Call.item?] at h
  have hn : c ≠ .newLabel := by
    rintro rfl
    simp [Call.item?] at h
  apply Builder.ext
  · rw [code_concat hm, h]
    simp [emit, written, Entry.view]
  · rw [labels_concat_of_none hn fun l => writtenLabel_concat (hm l) (by simp [h, Entry.uses])]
    rfl

theorem call_labelled {ref : Reference} {label : Nat} (h : c.item? = some (.labelled ref label)) :
    (written calls).emitLabeled (ref.instr 0) label =
      if label < Call.labels calls then .ok (written (calls ++ [c])) else .error .foreignLabel := by
  have hm (l : Nat) : c ≠ .mark l := by
    rintro rfl
    simp [Call.item?] at h
  have hn : c ≠ .newLabel := by
    rintro rfl
    simp [Call.item?] at h
  have hothers : ∀ l ≠ label, writtenLabel (calls ++ [c]) l = writtenLabel calls l := by
    intro l hl
    exact writtenLabel_concat (hm l) (by simp [h, Entry.uses, Ne.symm hl])
  have hcode := @code_concat calls c hm
  have hlabels := labels_concat_of_one label hn hothers
  rw [h] at hcode
  rw [emitLabeled, labels_getElem?]
  by_cases hlt : label < Call.labels calls
  · simp only [hlt, if_true]
    cases hp : Call.place? calls label with
    | some place =>
      -- The index is known, so the instruction is completed here and the label stays as it is.
      have hp' : Call.place? (calls ++ [c]) label = some place := by rw [Call.place?_concat_of_ne (hm label), hp]
      have hsame : writtenLabel (calls ++ [c]) label = writtenLabel calls label := by
        rw [writtenLabel_of_place? hp, writtenLabel_of_place? hp']
      have hpatch : patch ((written calls).emit (some (ref.instr 0))).code (written calls).code.size place =
          .ok (written (calls ++ [c])).code := by
        have := patch_instr ref 0 place ((Call.entries calls).map (Entry.view (Call.place? calls))) []
        rw [hcode]
        simpa [emit, written, Entry.view, hp] using this
      rw [writtenLabel_of_place? hp]
      simp only [hpatch]
      refine congrArg Except.ok (Builder.ext rfl ?_)
      rw [labels_concat_of_none hn fun l => ?_]
      · rfl
      · by_cases hl : l = label
        · rw [hl, hsame]
        · exact hothers l hl
    | none =>
      -- The new entry is the last that waits for the label.
      rw [writtenLabel_of_unmarked ((Call.place?_eq_none ..).mp hp)]
      refine congrArg Except.ok (Builder.ext ?_ ?_)
      · rw [hcode]
        simp [emit, written, Entry.view, hp]
      · have hm' : Call.mark label ∉ calls ++ [c] := by
          simpa [(Call.place?_eq_none ..).mp hp] using Ne.symm (hm label)
        rw [hlabels, writtenLabel_of_unmarked hm', Call.entries_concat, h]
        simp [emit, written, uses_concat, Entry.uses]
  · simp [hlt]
    rfl

/-- Marking a label completes the instructions that refer to it and lets none wait. -/
theorem call_mark {label : Nat} (h : Call.mark label ∉ calls) (hlt : label < Call.labels calls) :
    (written calls).mark label = .ok (written (calls ++ [.mark label])) := by
  have hplace : Call.place? (calls ++ [.mark label]) =
      Function.update (Call.place? calls) label (some (Call.entries calls).length) := by
    funext l
    by_cases hl : l = label
    · rw [hl, Function.update_self, Call.place?_split h]
    · rw [Function.update_of_ne hl, Call.place?_concat_of_ne (by simpa using Ne.symm hl)]
  have hcode : (written (calls ++ [.mark label])).code = ((Call.entries calls).map
      (Entry.view (Function.update (Call.place? calls) label (some (Call.entries calls).length)))).toArray := by
    rw [written, hplace, Call.entries_concat]
    simp [Call.item?]
  have hfold := @patch_uses (Call.place? calls) label (Call.entries calls).length (Call.entries calls) []
  have hothers : ∀ l ≠ label, writtenLabel (calls ++ [.mark label]) l = writtenLabel calls l := by
    intro l hl
    exact writtenLabel_concat (by simpa using Ne.symm hl) (by simp [Call.item?])
  rw [mark, labels_getElem?, if_pos hlt, writtenLabel_of_unmarked h]
  have hpatch : (uses label 0 (Call.entries calls)).foldlM
      (fun code ref => patch code ref (Call.entries calls).length) (written calls).code =
        .ok (written (calls ++ [.mark label])).code := by
    rw [hcode]
    exact hfold
  simp only [size_written, Option.isSome_none, hpatch]
  refine congrArg Except.ok (Builder.ext rfl ?_)
  rw [labels_concat_of_one label (by simp) hothers, writtenLabel_of_place? (Call.place?_split h)]

/-- A call is refused for the reasons named, and otherwise adds to what was written. -/
theorem call_written (hk : Known calls) (c : Call) :
    (written calls).call c =
      match c.refusal? calls with
      | some r => .error r
      | none => .ok (written (calls ++ [c])) := by
  cases c with
  | newLabel => exact congrArg Except.ok (call_newLabel hk)
  | emit instr => exact congrArg Except.ok (call_plain rfl)
  | emitBuiltin name =>
    rw [call, emitBuiltin, Call.refusal?]
    cases hs : Builtin.slot? name with
    | none => rfl
    | some slot => exact congrArg Except.ok (call_plain (by simp [Call.item?, hs]))
  | emitJump op label =>
    simp only [call, emitJump, Call.refusal?]
    by_cases hj : op = .jof
    · have := @call_labelled calls (.emitJump op label) .jumpOnFalse label (by simp [Call.item?, hj])
      simp only [Reference.instr] at this
      rw [if_pos hj, if_pos (Or.inl hj), this]
      split <;> rfl
    · by_cases hg : op = .goto
      · have := @call_labelled calls (.emitJump op label) .goto label (by simp [Call.item?, hj])
        simp only [Reference.instr] at this
        rw [if_neg hj, if_pos hg, if_pos (Or.inr hg), this]
        split <;> rfl
      · simp [hj, hg]
  | emitLoadFunc arity label =>
    have := @call_labelled calls (.emitLoadFunc arity label) (.loadFunc arity) label rfl
    simp only [Reference.instr] at this
    rw [call, emitLoadFunc, Call.refusal?, this]
    split <;> rfl
  | emitStartFiber label =>
    have := @call_labelled calls (.emitStartFiber label) .startFiber label rfl
    simp only [Reference.instr] at this
    rw [call, emitStartFiber, Call.refusal?, this]
    split <;> rfl
  | mark label =>
    rw [call, Call.refusal?]
    by_cases hlt : label < Call.labels calls
    · by_cases hm : Call.mark label ∈ calls
      · obtain ⟨place, hp⟩ := Option.ne_none_iff_exists'.mp (mt (Call.place?_eq_none ..).mp (not_not_intro hm))
        rw [if_pos hlt, if_pos hm, mark, labels_getElem?, if_pos hlt, writtenLabel_of_place? hp]
        rfl
      · rw [if_pos hlt, if_neg hm, call_mark hm hlt]
    · rw [if_neg hlt, mark, labels_getElem?, if_neg hlt]
      rfl

/-- Any calls on the builder as written leave it as written, by what is accepted of them. -/
theorem session_written (hk : Known calls) (more : List Call) :
    (written calls).session more = written (calls ++ (written calls).accepted more) ∧
      Known (calls ++ (written calls).accepted more) := by
  induction more generalizing calls with
  | nil => simpa [session, accepted] using hk
  | cons c more ih =>
    have hc := call_written hk c
    cases hr : c.refusal? calls with
    | some r =>
      rw [hr] at hc
      simpa only [session, accepted, hc] using ih hk
    | none =>
      rw [hr] at hc
      have := ih (hk.snoc hr)
      rw [List.append_assoc, List.singleton_append] at this
      simpa only [session, accepted, hc] using this

end Call

theorem known_nil : Known [] := ⟨by simp, by simp [Call.entries]⟩

/-! ## The finished stream -/

section Build

variable {calls : List Call}

theorem unresolved?_of_some {i : Nat} (h : (written calls).unresolved? = some i) :
    ∃ ref label, (Call.entries calls)[i]? = some (.labelled ref label) ∧ .mark label ∉ calls := by
  obtain ⟨l, hl, hi⟩ := List.exists_of_findSome?_eq_some h
  obtain ⟨label, -, rfl⟩ : ∃ label < Call.labels calls, writtenLabel calls label = l := by simpa [written] using hl
  have hm : Call.mark label ∉ calls := by
    intro hm
    obtain ⟨place, hp⟩ := Call.exists_place? hm
    simp [writtenLabel_of_place? hp] at hi
  rw [writtenLabel_of_unmarked hm] at hi
  obtain ⟨ref, hr⟩ := of_mem_uses (List.mem_of_head? (by simpa using hi))
  exact ⟨ref, label, hr, hm⟩

theorem unresolved?_of_none (hk : Known calls) (h : (written calls).unresolved? = none) {ref : Reference} {label : Nat}
    (hl : .labelled ref label ∈ Call.entries calls) : .mark label ∈ calls := by
  by_contra hm
  have hnone := List.findSome?_eq_none_iff.mp h (writtenLabel calls label)
    (by simpa [written] using ⟨label, hk.used ref label hl, rfl⟩)
  rw [writtenLabel_of_unmarked hm] at hnone
  exact uses_eq_nil.mp (by simpa using hnone) ref hl

theorem settles_view {e : Entry} (h : ∀ ref label, e = .labelled ref label → .mark label ∈ calls) :
    Settles calls e (e.view (Call.place? calls)) := by
  cases e with
  | plain instr => exact .plain instr
  | labelled ref label =>
    obtain ⟨place, hp⟩ := Call.exists_place? (h ref label rfl)
    simpa [Entry.view, hp] using Settles.labelled ref hp

theorem build_error {i : Nat} (h : (written calls).build = .error i) :
    ∃ ref label, (Call.entries calls)[i]? = some (.labelled ref label) ∧ .mark label ∉ calls := by
  rw [build] at h
  split at h
  · next j hj =>
    obtain rfl : j = i := by simpa using h
    exact unresolved?_of_some hj
  · simp at h

theorem build_ok {code : Code} (hk : Known calls) (h : (written calls).build = .ok code) :
    code = (written calls).code ∧ ∀ ref label, .labelled ref label ∈ Call.entries calls → .mark label ∈ calls := by
  rw [build] at h
  split at h
  · simp at h
  · next hn => exact ⟨(Except.ok.inj h).symm, fun ref label => unresolved?_of_none hk hn⟩

end Build

theorem Call.refusal?_ne_notPatchable (calls : List Call) (c : Call) (op : Opcode) :
    c.refusal? calls ≠ some (.notPatchable op) := by
  intro h
  unfold refusal? at h
  split at h
  all_goals repeat' split at h
  all_goals cases h

/-- **Labels are resolved.** Take any calls on a new builder, those that it refuses included. It refuses an unknown
builtin, a jump that is none, a label that is marked already and one that is not its own, and nothing else, least of
all the completion of an instruction. Building fails exactly when a label that was referred to was never marked, and
it names an instruction that refers to such a label. Otherwise there is one instruction for each that was written, in
order: as it was given, or with the index that was next when its label was marked. -/
theorem session_build (calls : List Call) :
    let b := session {} calls
    let kept := accepted {} calls
    (∀ c r, b.call c = .error r ↔ c.refusal? kept = some r) ∧
      (∀ c op, b.call c ≠ .error (.notPatchable op)) ∧
      b.size = (Call.entries kept).length ∧
      ((∃ i, b.build = .error i) ↔ ∃ ref label, .labelled ref label ∈ Call.entries kept ∧ .mark label ∉ kept) ∧
      (∀ i, b.build = .error i →
        ∃ ref label, (Call.entries kept)[i]? = some (.labelled ref label) ∧ .mark label ∉ kept) ∧
      ∀ code, b.build = .ok code → List.Forall₂ (Settles kept) (Call.entries kept) code.toList := by
  intro b kept
  obtain ⟨hb, hk⟩ : b = written kept ∧ Known kept := session_written known_nil calls
  clear_value b kept
  subst hb
  have hrefuse (c : Call) (r : Refusal) : (written kept).call c = .error r ↔ c.refusal? kept = some r := by
    rw [call_written hk c]
    cases c.refusal? kept <;> simp
  refine ⟨hrefuse, ?_, size_written, ⟨?_, ?_⟩, ?_, ?_⟩
  · intro c op h
    exact Call.refusal?_ne_notPatchable kept c op ((hrefuse c _).mp h)
  · rintro ⟨i, hi⟩
    obtain ⟨ref, label, he, hm⟩ := build_error hi
    exact ⟨ref, label, List.mem_of_getElem? he, hm⟩
  · rintro ⟨ref, label, he, hm⟩
    cases hb : (written kept).build with
    | error i => exact ⟨i, rfl⟩
    | ok code => exact absurd ((build_ok hk hb).2 ref label he) hm
  · intro i hi
    exact build_error hi
  · intro code hcode
    obtain ⟨rfl, hall⟩ := build_ok hk hcode
    have hview : ∀ e ∈ Call.entries kept, Settles kept e (e.view (Call.place? kept)) := by
      intro e he
      exact settles_view fun ref label h => hall ref label (h ▸ he)
    exact List.forall₂_map_right_iff.mpr (List.forall₂_same.mpr hview)

/-- A jump past the next instruction, and the end of a fiber that is marked before its start is written. -/
example :
    (session {} [.newLabel, .newLabel, .emitJump .jof 0, .mark 1, .emit (some .stopFiber), .mark 0, .mark 0,
      .emitStartFiber 1]).build = .ok #[some (.jumpOnFalse 2), some .stopFiber, some (.startFiber 1)] := by
  decide

end Builder

end FiberVm
