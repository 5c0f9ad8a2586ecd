import FiberVm.Failure
import FiberVm.Program.Datum
import FiberVm.Text.Integer
import FiberVm.Text.Quoted

/-!
# Programs as files hold them

A program is a version and a list of records, one per instruction. A record names its opcode and has
room for every operand that any opcode takes; only those of its own opcode count. Records are
converted to instructions and back here, without regard to the format of the file.

A program that was read holds arbitrary values in the place of constants; one that is about to be
written holds literals.
-/

set_option autoImplicit false

namespace FiberVm

structure Record (V : Type) where
  opcode : String := ""
  value : V
  position : List Int := []
  sym : String := ""
  operator : String := ""
  slots : Int := 0
  arity : Int := 0
  entry : Int := 0
  target : Int := 0
  stop : Int := 0
deriving Repr

structure Program (V : Type) where
  version : Int := 0
  records : List (Record V) := []
deriving Repr

inductive Format
  | json
  | cbor
deriving DecidableEq, Repr

inductive Flaw
  | opcodeName (s : String)
  | binarySymbol (s : String)
  | unarySymbol (s : String)
  | position (given : List Int)
  | notInteger (spelling : String)
  | notConstant (shown typeName : String)
  | outside (what : String) (index : Int) (size : Nat)
  | negative (what : String) (n : Int)
  | foreignInstr (typeName : String)
  | foreignConstant (typeName : String)
deriving DecidableEq, Repr

namespace Flaw

def kind : Flaw → Kind
  | opcodeName _ | foreignInstr _ => .unknownOpcode
  | binarySymbol _ | unarySymbol _ => .unknownOperator
  | position _ | outside _ _ _ | negative _ _ => .malformedProgram
  | notInteger _ | notConstant _ _ | foreignConstant _ => .unsupportedTag

def detail : Flaw → String
  | opcodeName s => Text.quoted s
  | binarySymbol s => "binary " ++ Text.quoted s
  | unarySymbol s => "unary " ++ Text.quoted s
  | position given =>
    "compilePos must be [frame, slot], got " ++ Text.bracketed (given.map toString)
  | notInteger spelling => s!"constant {spelling} is not an integer"
  | notConstant shown typeName => s!"constant {shown} ({typeName})"
  | outside what index size => s!"{what} {index} outside [0, {size})"
  | negative what n => s!"negative {what} {n}"
  | foreignInstr typeName => typeName
  | foreignConstant typeName => s!"constant of type {typeName}"

def message (f : Flaw) : String := f.kind.text ++ ": " ++ f.detail

end Flaw

namespace Opcode

def parse (s : String) : Except Flaw Opcode :=
  match ofName? s with
  | some op => .ok op
  | none => .error (.opcodeName s)

end Opcode

namespace Operator

def parseBinary (s : String) : Except Flaw Operator :=
  match ofBinarySymbol? s with
  | some op => .ok op
  | none => .error (.binarySymbol s)

def parseUnary (s : String) : Except Flaw Operator :=
  match ofUnarySymbol? s with
  | some op => .ok op
  | none => .error (.unarySymbol s)

end Operator

namespace Datum

/-- The literal that a value in a file stands for. -/
def literal (x : Datum) : Except Flaw Literal :=
  let refuse : Except Flaw Literal := .error (.notConstant x.shown x.typeName)
  match x with
  | null => .ok .null
  | bool b => .ok (.bool b)
  | text s => if s = Literal.undefinedText then .ok .undefined else refuse
  | numeral spelling =>
    match Text.decimal spelling.toList with
    | .ok n => .ok (.int (Int64.ofInt n))
    | .error _ => .error (.notInteger spelling)
  | int n => .ok (.int n)
  | unsigned n => if n.toNat < 0x8000000000000000 then .ok (.int (Int64.ofNat n.toNat)) else refuse
  | float bits =>
    match (Decimal.Binary64.ofBits bits).integer? with
    | some n => if n.natAbs < 0x8000000000000000 then .ok (.int (Int64.ofInt n)) else refuse
    | none => refuse
  | _ => refuse

end Datum

namespace Record

def pos {V : Type} (r : Record V) : Except Flaw Pos :=
  match r.position with
  | [frame, slot] => .ok ⟨frame, slot⟩
  | given => .error (.position given)

/-- The instruction that a record stands for. -/
def instr (r : Record Datum) : Except Flaw Instr := do
  match ← Opcode.parse r.opcode with
  | .ldc => return .loadConst (← r.value.literal).constant
  | .ld => return .load (← r.pos) r.sym
  | .ldf => return .loadFunc r.arity r.entry
  | .assign => return .assign (← r.pos) r.sym
  | .binop => return .binary (← Operator.parseBinary r.operator)
  | .unop => return .unary (← Operator.parseUnary r.operator)
  | .jof => return .jumpOnFalse r.target
  | .goto => return .goto r.target
  | .call => return .call r.arity
  | .tailCall => return .tailCall r.arity
  | .done => return .done
  | .pop => return .pop
  | .reset => return .reset
  | .nop => return .nop
  | .enterScope => return .enterScope r.slots
  | .exitScope => return .exitScope
  | .startFiber => return .startFiber r.stop
  | .stopFiber => return .stopFiber
  | .send => return .send
  | .recv => return .recv
  | .makeWaitGroup => return .makeWaitGroup
  | _ => throw (.opcodeName r.opcode)

def ofInstr (i : Instr) : Except Flaw (Record Literal) :=
  let bare : Record Literal := { opcode := i.opcode.name, value := .null }
  match i with
  | .loadConst c =>
    match c.literal? with
    | some v => .ok { bare with value := v }
    | none => .error (.foreignConstant c.typeName)
  | .load pos sym | .assign pos sym =>
    .ok { bare with position := [pos.frame, pos.slot], sym := sym }
  | .loadFunc arity entry => .ok { bare with arity := arity, entry := entry }
  | .binary op | .unary op => .ok { bare with operator := op.name }
  | .jumpOnFalse target | .goto target => .ok { bare with target := target }
  | .call arity | .tailCall arity => .ok { bare with arity := arity }
  | .enterScope slots => .ok { bare with slots := slots }
  | .startFiber stop => .ok { bare with stop := stop }
  | .foreign _ typeName => .error (.foreignInstr typeName)
  | _ => .ok bare

/-- The record with its value replaced. -/
def map {V W : Type} (f : V → W) (r : Record V) : Record W := { r with value := f r.value }

end Record

namespace Instr

/-- The first operand that is out of range in a stream of `size` instructions. -/
def flaw? (size : Nat) (i : Instr) : Option Flaw :=
  let inside (what : String) (index : Int) : Option Flaw :=
    if 0 ≤ index ∧ index < size then none else some (.outside what index size)
  let count (what : String) (n : Int) : Option Flaw :=
    if 0 ≤ n then none else some (.negative what n)
  match i with
  | .jumpOnFalse target | .goto target => inside "target" target
  | .loadFunc arity entry => inside "entry" entry <|> count "arity" arity
  | .call arity | .tailCall arity => count "arity" arity
  | .enterScope slots => count "numDeclarations" slots
  | .startFiber stop => if stop = 0 then none else inside "stop" stop
  | _ => none

end Instr

namespace Program

/-- The newest version that is understood, and the one that is written. -/
def currentVersion : Int := 1

/-- Why a file cannot be turned into instructions, or instructions into a file. -/
inductive Error
  /-- The file does not follow its format. -/
  | unreadable (format : Format)
  | version (n : Int)
  | record (index : Nat) (opcode : String) (flaw : Flaw)
  | instr (index : Nat) (flaw : Flaw)
deriving DecidableEq, Repr

namespace Error

/-- The family of an error, if it belongs to one. -/
def kind? : Error → Option Kind
  | unreadable _ | version _ => none
  | record _ _ flaw | instr _ flaw => some flaw.kind

def message : Error → String
  | unreadable .json => "program: unmarshal json"
  | unreadable .cbor => "program: unmarshal cbor"
  | version n => s!"program: unsupported version {n} (this build reads up to {currentVersion})"
  | record index opcode flaw => s!"program: instruction {index} ({opcode}): {flaw.message}"
  | instr index flaw => s!"program: instruction {index}: {flaw.message}"

end Error

/-- Checks the operands of a stream: jumps, entries and stops lie inside it and no count is
negative. -/
def validate (instrs : List Instr) : Except Error Unit :=
  let size := instrs.length
  let flaw? := instrs.zipIdx.findSome? fun (i, index) =>
    (i.flaw? size).map fun flaw => Error.instr index flaw
  match flaw? with
  | some e => .error e
  | none => .ok ()

/-- The instructions of a program. Records are converted in order, and the result is checked. -/
def instrs (p : Program Datum) : Except Error (List Instr) := do
  if p.version < 0 ∨ currentVersion < p.version then throw (.version p.version)
  let is ← p.records.zipIdx.mapM fun (r, index) =>
    r.instr.mapError (Error.record index r.opcode)
  validate is
  return is

/-- The program of some instructions, which need not pass the check. -/
def ofInstrs (is : List Instr) : Except Error (Program Literal) := do
  let records ← is.zipIdx.mapM fun (i, index) => (Record.ofInstr i).mapError (Error.instr index)
  return { version := currentVersion, records := records }

/-- The program with its values replaced. -/
def map {V W : Type} (f : V → W) (p : Program V) : Program W :=
  { version := p.version, records := p.records.map (Record.map f) }

end Program

namespace Code

/-- The stream of some instructions. -/
def ofInstrs (is : List Instr) : Code := (is.map some).toArray

/-- The instructions of a stream, if no entry is missing. -/
def instrs? (code : Code) : Option (List Instr) := code.toList.mapM id

end Code

end FiberVm
