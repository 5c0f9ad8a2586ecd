import FiberVm.Instr.Listing
import FiberVm.Machine.Run

/-!
# Execution counts

A profiler counts executed instructions by index, opcode and fiber. An index becomes hot when it has
been executed a given number of times; a threshold of zero reports none.
-/

set_option autoImplicit false

namespace FiberVm

/-- Counts of executed instructions. -/
structure Profiler where
  threshold : Nat
  /-- Executions of each instruction of the program. -/
  counts : Array Nat
  /-- Instructions that have become hot. -/
  hotFlags : Array Bool
  /-- Executions of each assigned opcode. -/
  opCounts : Array Nat
  /-- Executions by each fiber, in the order of their first one. -/
  perFiber : List (Int × Nat)
  steps : Nat
  /-- The number of hot instructions. -/
  hot : Nat
  /-- Index and count of each instruction at the moment it became hot, newest first. -/
  hotLog : List (Nat × Nat)

namespace Profiler

/-- The threshold used unless another is asked for. -/
def defaultThreshold : Nat := 1000

def create (codeLen : Nat) (threshold : Nat) : Profiler :=
  { threshold := threshold
    counts := Array.replicate codeLen 0
    hotFlags := Array.replicate codeLen false
    opCounts := Array.replicate Opcode.count 0
    perFiber := []
    steps := 0
    hot := 0
    hotLog := [] }

/-- The most instructions for which there is room for counts. -/
def maxCodeLen : Int := 0x200000000000

/-- A profiler for a program of a size that may not be one. -/
def ofCodeLen (codeLen : Int) (threshold : Nat) : Except Crash Profiler :=
  if codeLen < 0 ∨ maxCodeLen < codeLen then .error .outOfRange
  else .ok (create codeLen.toNat threshold)

def bump (id : Int) : List (Int × Nat) → List (Int × Nat)
  | [] => [(id, 1)]
  | (i, n) :: rest => if i = id then (i, n + 1) :: rest else (i, n) :: bump id rest

/-- Counts an execution of instruction `pc`, which is inside the program. -/
def recordPc (p : Profiler) (pc : Nat) : Profiler :=
  let n := p.counts.getD pc 0 + 1
  let p := { p with counts := p.counts.setIfInBounds pc n }
  if !p.hotFlags.getD pc false && decide (0 < p.threshold) && decide (p.threshold ≤ n) then
    { p with
      hotFlags := p.hotFlags.setIfInBounds pc true
      hot := p.hot + 1
      hotLog := (pc, n) :: p.hotLog }
  else p

/-- Counts one executed instruction. -/
def record (p : Profiler) (e : Machine.Event) : Profiler :=
  let op := e.op.number.toNat
  let p :=
    { p with
      steps := p.steps + 1
      perFiber := bump e.fiber p.perFiber
      opCounts := p.opCounts.setIfInBounds op (p.opCounts.getD op 0 + 1) }
  if e.pc < 0 ∨ (p.counts.size : Int) ≤ e.pc then p else p.recordPc e.pc.toNat

def count (p : Profiler) (pc : Int) : Nat := if pc < 0 then 0 else p.counts.getD pc.toNat 0

/-- Has the instruction become hot? -/
def isHot (p : Profiler) (pc : Int) : Bool := decide (0 ≤ pc) && p.hotFlags.getD pc.toNat false

def fiberSteps (p : Profiler) (id : Int) : Nat :=
  ((p.perFiber.find? fun row => row.1 == id).map (·.2)).getD 0

structure Stats where
  steps : Nat
  distinct : Nat
  hot : Nat
  fibers : Nat
deriving DecidableEq, Repr

def stats (p : Profiler) : Stats :=
  { steps := p.steps
    distinct := p.counts.countP (fun n => decide (0 < n))
    hot := p.hot
    fibers := p.perFiber.length }

/-- Larger counts first; of equal counts the smaller index. -/
def ranked (counts : Array Nat) : List (Nat × Nat) :=
  let rows := counts.toList.zipIdx.map fun (n, i) => (i, n)
  (rows.filter fun row => decide (0 < row.2)).mergeSort fun a b =>
    decide (b.2 < a.2) || (a.2 == b.2 && decide (a.1 ≤ b.1))

/-- The `n` most executed instructions with their counts; there is no negative number of them. -/
def top (p : Profiler) (n : Int) : Except Crash (List (Nat × Nat)) :=
  if n < 0 then .error .outOfRange else .ok ((ranked p.counts).take n.toNat)

/-- The executed opcodes with their counts. -/
def opcodes (p : Profiler) : List (Opcode × Nat) :=
  (ranked p.opCounts).map fun row => (⟨row.1.toUInt8⟩, row.2)

/-- The line of an instruction in a report; an index past the program has no text. -/
def reportLine (code : Code) (row : Nat × Nat) : Except Crash String :=
  match code[row.1]? with
  | none => .ok s!"  {Text.column 10 row.2}  {Instr.indexText row.1}  ?\n"
  | some none => .error .missingInstr
  | some (some i) => .ok s!"  {Text.column 10 row.2}  {Instr.indexText row.1}  {i.text}\n"

/-- The `n` most executed instructions and the mix of opcodes. -/
def report (p : Profiler) (code : Code) (n : Int) : Except Crash String := do
  let st := p.stats
  let rows ← p.top n
  let lines ← rows.mapM (reportLine code)
  let mix := p.opcodes.map fun (op, n) => s!"  {Text.column 10 n}  {op.name}\n"
  return s!"{st.steps} steps over {st.distinct} instructions, {st.hot} hot\n"
    ++ String.join lines ++ "opcodes:\n" ++ String.join mix

def reset (p : Profiler) : Profiler := create p.counts.size p.threshold

end Profiler

end FiberVm
