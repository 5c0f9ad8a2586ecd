import FiberVm.Machine.Sync

/-!
# Scopes, calls and builtins

A call leaves its operands on the stack until every allocation is done, so that they stay alive. A
block or call that faults half way leaves what it has pushed on the runtime stack.
-/

set_option autoImplicit false

namespace FiberVm

namespace Exec

def intArg (a : Addr) (who : String) : Exec Int64 := do
  let tag ← tagOf a
  if tag = .int then onHeap (Heap.intValue a) else fault (.notInteger who tag)

def argument (args : List Addr) (i : Nat) : Exec Addr :=
  match args[i]? with
  | some a => return a
  | none => crash .outOfRange

def printLine (s : String) : Exec Unit := do
  match (← asks (·.sink)).write (s ++ "\n") with
  | some sink => modifyControl fun c => { c with sink := sink }
  | none => fault .sinkFull

/-- Runs a builtin on arguments that have been popped. Each pushes one result; one that blocks
pushes it first, so the fiber resumes with the result in place. -/
def builtin (b : Builtin) (args : List Addr) : Exec Unit := do
  match b with
  | .println =>
    printLine (← onHeap (Heap.format (← argument args 0)))
    push Heap.unassigned
  | .raise => fault (.raised (← onHeap (Heap.format (← argument args 0))))
  | .sleep =>
    let ms ← intArg (← argument args 0) b.name
    push Heap.unassigned
    modifySched fun s => s.sleep ms
  | .make =>
    let capacity ← intArg (← argument args 1) b.name
    push (← allocating fun roots => Heap.newChannel roots capacity.toInt)
  | .close =>
    closeChan (← argument args 0)
    push Heap.unassigned
  | .max =>
    let x ← intArg (← argument args 0) b.name
    let y ← intArg (← argument args 1) b.name
    push (← allocating fun roots => Heap.newInt roots (if x < y then y else x))
  | .min =>
    let x ← intArg (← argument args 0) b.name
    let y ← intArg (← argument args 1) b.name
    push (← allocating fun roots => Heap.newInt roots (if y < x then y else x))
  | .wgAdd =>
    let group ← argument args 0
    groupAdd group (← intArg (← argument args 1) b.name)
    push Heap.unassigned
  | .wgDone =>
    groupAdd (← argument args 0) (-1)
    push Heap.unassigned
  | .wgWait =>
    push Heap.unassigned
    groupWait (← argument args 0)
  | b => fault (.unknownBuiltin b.number)

/-- Opens a block with `n` fresh variables. -/
def enterScope (n : Int) : Exec Unit := do
  let env ← asksFiber (·.env)
  pushFrame (← allocating fun roots => Heap.newBlockframe roots env)
  let frame ← allocating fun roots => Heap.newFrame roots n
  setEnv (← allocating fun roots => Heap.extend roots env frame)

def exitScope : Exec Unit := do
  let top ← popFrame
  let tag ← tagOf top
  if tag = .blockframe then setEnv (← onHeap (Heap.blockframeEnv top))
  else fault (.notBlockframe tag)

/-- The part of a runtime stack from its topmost call frame on, if there is one. -/
def fromCallframe : List Addr → Exec (Option (List Addr))
  | [] => return none
  | a :: rest => do
    if (← tagOf a) = .callframe then return some (a :: rest) else fromCallframe rest

/-- Drops the block frames of the activation that a tail call replaces, so that a loop of tail calls
keeps its runtime stack. Outside any call there is nothing to drop. -/
def dropBlockframes : Exec Unit := do
  match ← fromCallframe (← asksFiber (·.frames)) with
  | some frames => modifyFiber fun f => { f with frames := frames }
  | none => return ()

/-- Enters the closure at `fn` with the arguments given. -/
def enterClosure (fn : Addr) (args : List Addr) (tail : Bool) : Exec Unit := do
  let frame ← allocating fun roots => Heap.newFrame roots args.length
  onHeap (args.zipIdx.forM fun (a, i) => Heap.setChild frame i a)
  withPins [frame] do
    if tail then dropBlockframes
    else
      let pc ← asksFiber (·.pc)
      let env ← asksFiber (·.env)
      pushFrame (← allocating fun roots => Heap.newCallframe roots pc env)
    let captured ← onHeap (Heap.closureEnv fn)
    let env ← allocating fun roots => Heap.extend roots captured frame
    drop (args.length + 1)
    setEnv env
    jump (← onHeap (Heap.closurePc fn))

/-- Applies the function below the top `arity` operands. -/
def call (arity : Int) (tail : Bool) : Exec Unit := do
  if arity < 0 then fault (.negativeArity arity)
  else
    let n := arity.toNat
    let fn ← peek n
    let args := ((← asksFiber (·.operands)).take n).reverse
    let tag ← tagOf fn
    if tag = .builtin then
      let (b, want) ← onHeap (Heap.builtinAt fn)
      if n ≠ want then fault (.builtinArity b want arity)
      else
        drop (n + 1)
        builtin b args
    else if tag = .closure then
      let want ← onHeap (Heap.closureArity fn)
      if n ≠ want then fault (.closureArity want arity)
      else enterClosure fn args tail
    else fault (.notCallable tag)

/-- Pops the runtime stack. A call frame returns to the caller; a block frame executes the
instruction again, so that unwinding goes on one scope at a time. -/
def reset : Exec Unit := do
  let top ← popFrame
  let tag ← tagOf top
  if tag = .callframe then
    jump (← onHeap (Heap.callframePc top))
    setEnv (← onHeap (Heap.callframeEnv top))
  else if tag = .blockframe then jump ((← asksFiber (·.pc)) - 1)
  else fault (.notReturnable tag)

end Exec

end FiberVm
