import FiberVm.Proofs.Heap.Cell

/-!
# How code ends

Code ends well or with a failure, and in both cases in some state. What is said of that state whether or not the
code has failed goes through its parts, and so does what is said of the faults that it may raise. The usual faults
are those that are left once an instruction has been checked.
-/

set_option autoImplicit false

namespace FiberVm

section Settles

variable {ε σ α β : Type} {P Q : σ → Prop} {s : σ}

/-- Whether it failed or not, `P` holds of the state at the end. -/
def Settles (P : σ → Prop) : EStateM.Result ε σ α → Prop
  | .ok _ s => P s
  | .error _ s => P s

theorem Settles.bind {x : EStateM ε σ α} {k : α → EStateM ε σ β} (first : Settles P (x s))
    (rest : ∀ a s', x s = .ok a s' → P s' → Settles Q (k a s')) (weaker : ∀ s, P s → Q s) :
    Settles Q ((x >>= k) s) := by
  cases run : x s with
  | ok a s' =>
    rw [run] at first
    rw [bind_of_ok run]
    exact rest a s' run first
  | error e s' =>
    rw [run] at first
    rw [bind_of_error run]
    exact weaker s' first

end Settles

/-- A fault that an instruction can raise of which decoding has made sure. -/
class inductive Cause.Usual : Cause → Prop
  | outOfMemory (nodes : Nat) : Usual (.outOfMemory nodes)
  | frameCapacity (slots : Int) : Usual (.frameCapacity slots)
  | environmentCapacity : Usual .environmentCapacity
  | closureCapacity (arity : Int) : Usual (.closureCapacity arity)
  | channelCapacity (capacity : Int) : Usual (.channelCapacity capacity)
  | queueCapacity : Usual .queueCapacity
  | waitersCapacity : Usual .waitersCapacity
  | counterCapacity (counter : Int64) : Usual (.counterCapacity counter)
  | frameIndex (frame depth : Int) : Usual (.frameIndex frame depth)
  | slotIndex (slot size : Int) : Usual (.slotIndex slot size)
  | operandUnderflow : Usual .operandUnderflow
  | runtimeUnderflow : Usual .runtimeUnderflow
  | unassigned (name : String) : Usual (.unassigned name)
  | notCondition (tag : Tag) : Usual (.notCondition tag)
  | notBlockframe (tag : Tag) : Usual (.notBlockframe tag)
  | notReturnable (tag : Tag) : Usual (.notReturnable tag)
  | builtinArity (builtin : Builtin) (want : Nat) (got : Int) : Usual (.builtinArity builtin want got)
  | closureArity (want : Nat) (got : Int) : Usual (.closureArity want got)
  | notCallable (tag : Tag) : Usual (.notCallable tag)
  | unknownBuiltin (number : UInt8) : Usual (.unknownBuiltin number)
  | divideByZero (a : Int64) : Usual (.divideByZero a)
  | remainderByZero (a : Int64) : Usual (.remainderByZero a)
  | operandTypes (left : Tag) (op : Operator) (right : Tag) : Usual (.operandTypes left op right)
  | operandType (symbol : String) (tag : Tag) : Usual (.operandType symbol tag)
  | undefinedOn (op : Operator) (tag : Tag) : Usual (.undefinedOn op tag)
  | raised (text : String) : Usual (.raised text)
  | notInteger (who : String) (tag : Tag) : Usual (.notInteger who tag)
  | expectedTag (what : String) (want got : Tag) : Usual (.expectedTag what want got)
  | notSendable (tag : Tag) : Usual (.notSendable tag)
  | sendOnClosed : Usual .sendOnClosed
  | recvFromClosed : Usual .recvFromClosed
  | closeOfClosed : Usual .closeOfClosed
  | counterUnderflow (counter : Int64) : Usual (.counterUnderflow counter)
  | sinkFull : Usual .sinkFull
  | stopOutOfRange (stop : Int) : Usual (.stopOutOfRange stop)
  | unmatchedStart (start : Int) : Usual (.unmatchedStart start)
  | unknownFiber (id : Int) : Usual (.unknownFiber id)

namespace Cause.Usual

attribute [instance] outOfMemory frameCapacity environmentCapacity closureCapacity channelCapacity queueCapacity
  waitersCapacity counterCapacity frameIndex slotIndex operandUnderflow runtimeUnderflow unassigned notCondition
  notBlockframe notReturnable builtinArity closureArity notCallable unknownBuiltin divideByZero remainderByZero
  operandTypes operandType undefinedOn raised notInteger expectedTag notSendable sendOnClosed recvFromClosed
  closeOfClosed counterUnderflow sinkFull stopOutOfRange unmatchedStart unknownFiber

end Cause.Usual

/-- The code raises usual faults only. -/
class Tame {σ α : Type} (x : EStateM Failure σ α) : Prop where
  usual : ∀ s c s', x s = .error (.fault c) s' → c.Usual

namespace Tame

section Rules

variable {σ α β : Type}

instance pure (a : α) : Tame (Pure.pure a : EStateM Failure σ α) := ⟨nofun⟩

instance fault (c : Cause) [usual : c.Usual] : Tame (FiberVm.fault c : EStateM Failure σ α) := by
  refine ⟨fun s c' s' run => ?_⟩
  cases run
  exact usual

theorem of_ok {x : EStateM Failure σ α} (runs : ∀ s, ∃ a s', x s = .ok a s') : Tame x := by
  refine ⟨fun s c s' run => ?_⟩
  obtain ⟨a, s₁, ok⟩ := runs s
  cases ok.symm.trans run

instance crash (c : Crash) : Tame (FiberVm.crash c : EStateM Failure σ α) := ⟨nofun⟩

/-- What the code goes on with may have to be looked at by hand. -/
theorem seq {x : EStateM Failure σ α} {k : α → EStateM Failure σ β} (first : Tame x) (rest : ∀ a, Tame (k a)) :
    Tame (x >>= k) := by
  refine ⟨fun s c s' run => ?_⟩
  cases here : x s with
  | ok a s₁ => exact (rest a).usual s₁ c s' ((bind_of_ok here).symm.trans run)
  | error e s₁ =>
    have raised := (bind_of_error here).symm.trans run
    cases raised
    exact first.usual s c s' here

instance bind (x : EStateM Failure σ α) (k : α → EStateM Failure σ β) [first : Tame x] [rest : ∀ a, Tame (k a)] :
    Tame (x >>= k) := seq first rest

instance ite (p : Prop) [Decidable p] (x y : EStateM Failure σ α) [yes : Tame x] [no : Tame y] :
    Tame (if p then x else y) := by
  split
  · exact yes
  · exact no

instance forM (l : List α) (f : α → EStateM Failure σ Unit) [each : ∀ a, Tame (f a)] : Tame (l.forM f) := by
  induction l with
  | nil => exact pure ()
  | cons a l ih => exact seq (each a) fun _ => ih

end Rules

end Tame

end FiberVm
