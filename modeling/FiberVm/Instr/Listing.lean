import FiberVm.Instr.Basic
import FiberVm.Decimal.Binary64
import FiberVm.Text.Pad

/-!
# Listings

The text of instructions, one per line with their indices in front.
-/

set_option autoImplicit false

namespace FiberVm

def Constant.text : Constant → String
  | nil => "nil"
  | undefined => "undefined"
  | bool b => toString b
  | int _ n => toString n.toInt
  | uint64 n => toString n.toNat
  | float64 bits => (Decimal.Binary64.ofBits bits).text
  | string s => s
  | ref a => s!"ref@{a.toNat}"

namespace Instr

def indexText (i : Int) : String := Text.zeroFilled 4 i

/-- One instruction without its index. -/
def text (i : Instr) : String :=
  let name := i.opcode.name
  match i with
  | loadConst v => s!"{name} {v.text}"
  | load pos sym | assign pos sym => s!"{name} [{pos.frame},{pos.slot}] {sym}"
  | loadFunc arity entry => s!"{name} arity={arity} (-> {indexText entry})"
  | binary op | unary op => s!"{name} {op.name}"
  | jumpOnFalse target | goto target => s!"{name} (-> {indexText target})"
  | call n | tailCall n | enterScope n => s!"{name} {n}"
  | startFiber stop => s!"{name} (stop {indexText stop})"
  | _ => name

end Instr

namespace Code

/-- The listing of an instruction stream, if no entry is missing. -/
def listing? (code : Code) : Option String := do
  let lines ← code.toList.zipIdx.mapM fun (entry, i) =>
    entry.map fun instr => s!"{Instr.indexText i}  {instr.text}"
  return "\n".intercalate lines

end Code

end FiberVm
