import FiberVm.Builtin
import FiberVm.Instr.Basic
import FiberVm.Text.Quoted

/-!
# Assembling instruction streams

A builder appends instructions one by one. A label stands for an index that may not be known yet:
instructions that refer to it are remembered and completed when the label is marked.
-/

set_option autoImplicit false

namespace FiberVm

/-- A name for an instruction index. -/
structure Label where
  position : Option Nat := none
  /-- Instructions that wait for the position, oldest first. -/
  refs : List Nat := []
deriving DecidableEq, Repr

/-- An instruction stream under construction. -/
structure Builder where
  code : Code := #[]
  labels : Array Label := #[]
deriving DecidableEq, Repr

namespace Builder

/-- Why a call is refused. -/
inductive Refusal
  | unknownBuiltin (name : String)
  | alreadyMarked
  | notJump (op : Opcode)
  | notPatchable (op : Opcode)
  /-- The label is not one of this builder's. -/
  | foreignLabel
deriving DecidableEq, Repr

/-- The wording of a refusal that has one. -/
def Refusal.message? : Refusal → Option String
  | unknownBuiltin s => some s!"vm: unknown builtin {Text.quoted s}"
  | alreadyMarked => some "label already resolved"
  | notJump op => some s!"vm: {op.name} is not a jump"
  | notPatchable op => some s!"vm: cannot patch {op.name}"
  | foreignLabel => none

/-- The index of the next instruction. -/
def size (b : Builder) : Nat := b.code.size

/-- Appends an instruction; its index is the size before. A missing instruction may be appended
too. -/
def emit (b : Builder) (instr : Option Instr) : Builder := { b with code := b.code.push instr }

def emitBuiltin (b : Builder) (name : String) : Except Refusal Builder :=
  match Builtin.slot? name with
  | some slot => .ok (b.emit (some (.load ⟨0, slot⟩ name)))
  | none => .error (.unknownBuiltin name)

/-- Adds a label; its number is the count before. -/
def newLabel (b : Builder) : Builder := { b with labels := b.labels.push {} }

/-- The instruction with its target, entry or stop replaced. -/
def retarget (instr : Option Instr) (target : Int) : Except Refusal (Option Instr) :=
  match instr with
  | some (.jumpOnFalse _) => .ok (some (.jumpOnFalse target))
  | some (.goto _) => .ok (some (.goto target))
  | some (.loadFunc arity _) => .ok (some (.loadFunc arity target))
  | some (.startFiber _) => .ok (some (.startFiber target))
  | some instr => .error (.notPatchable instr.opcode)
  | none => .error .foreignLabel

/-- Completes the instruction at an index. -/
def patch (code : Code) (index : Nat) (target : Int) : Except Refusal Code :=
  match code[index]? with
  | some instr => (retarget instr target).map fun i => code.setIfInBounds index i
  | none => .error .foreignLabel

/-- Sets a label to the index of the next instruction. -/
def mark (b : Builder) (label : Nat) : Except Refusal Builder := do
  match b.labels[label]? with
  | none => throw .foreignLabel
  | some l =>
    if l.position.isSome then throw .alreadyMarked
    else
      let position := b.code.size
      let code ← l.refs.foldlM (fun code ref => patch code ref position) b.code
      return { code := code, labels := b.labels.setIfInBounds label { position := some position } }

/-- Appends an instruction that refers to a label. -/
def emitLabeled (b : Builder) (instr : Instr) (label : Nat) : Except Refusal Builder := do
  match b.labels[label]? with
  | none => throw .foreignLabel
  | some l =>
    let index := b.code.size
    let b := b.emit (some instr)
    match l.position with
    | some position => return { b with code := ← patch b.code index position }
    | none =>
      let l := { l with refs := l.refs ++ [index] }
      return { b with labels := b.labels.setIfInBounds label l }

/-- Appends a jump to a label. -/
def emitJump (b : Builder) (op : Opcode) (label : Nat) : Except Refusal Builder :=
  if op = .jof then b.emitLabeled (.jumpOnFalse 0) label
  else if op = .goto then b.emitLabeled (.goto 0) label
  else .error (.notJump op)

/-- Appends the load of a function whose entry is at a label. -/
def emitLoadFunc (b : Builder) (arity : Int) (entry : Nat) : Except Refusal Builder :=
  b.emitLabeled (.loadFunc arity 0) entry

/-- Appends the start of a fiber whose end is at a label. -/
def emitStartFiber (b : Builder) (stop : Nat) : Except Refusal Builder :=
  b.emitLabeled (.startFiber 0) stop

/-- The first instruction that refers to a label that was never marked. -/
def unresolved? (b : Builder) : Option Nat :=
  b.labels.toList.findSome? fun l => if l.position.isSome then none else l.refs.head?

/-- The finished instruction stream, or the index of an instruction that lacks its label. -/
def build (b : Builder) : Except Nat Code :=
  match b.unresolved? with
  | some i => .error i
  | none => .ok b.code

/-- The wording for an instruction that lacks its label. -/
def unresolvedMessage (index : Nat) : String :=
  s!"unresolved label referenced by instruction {index}"

end Builder

end FiberVm
