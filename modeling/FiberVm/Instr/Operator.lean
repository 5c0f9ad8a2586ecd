/-!
# Operators

The operand of a binary or unary operation is a byte; 1 to 13 are the binary operators, 14 and 15
the unary ones. Minus is written the same way in both roles, so a symbol is read in the role of the
instruction that carries it.
-/

set_option autoImplicit false

namespace FiberVm

/-- The operand of a binary or unary operation. -/
structure Operator where
  number : UInt8
deriving DecidableEq, Repr

namespace Operator

@[match_pattern] def add : Operator := ⟨1⟩
@[match_pattern] def sub : Operator := ⟨2⟩
@[match_pattern] def mul : Operator := ⟨3⟩
@[match_pattern] def div : Operator := ⟨4⟩
@[match_pattern] def mod : Operator := ⟨5⟩
@[match_pattern] def lt : Operator := ⟨6⟩
@[match_pattern] def le : Operator := ⟨7⟩
@[match_pattern] def gt : Operator := ⟨8⟩
@[match_pattern] def ge : Operator := ⟨9⟩
@[match_pattern] def eq : Operator := ⟨10⟩
@[match_pattern] def ne : Operator := ⟨11⟩
@[match_pattern] def and : Operator := ⟨12⟩
@[match_pattern] def or : Operator := ⟨13⟩
@[match_pattern] def neg : Operator := ⟨14⟩
@[match_pattern] def not : Operator := ⟨15⟩

/-- The binary operators with their symbols. -/
def binaryTable : List (String × Operator) :=
  [("+", add), ("-", sub), ("*", mul), ("/", div), ("%", mod), ("<", lt), ("<=", le), (">", gt),
   (">=", ge), ("==", eq), ("!=", ne), ("&&", and), ("||", or)]

/-- The unary operators with their symbols. -/
def unaryTable : List (String × Operator) := [("-", neg), ("!", not)]

/-- The symbol, if the number is assigned. -/
def symbol? (o : Operator) : Option String :=
  ((binaryTable ++ unaryTable).find? (fun row => row.2 == o)).map (·.1)

/-- The symbol, or the number of an unassigned operator. -/
def name (o : Operator) : String :=
  match o.symbol? with
  | some s => s
  | none => s!"Operator({o.number.toNat})"

/-- Is this one of the thirteen binary operators? -/
def isBinary (o : Operator) : Bool := binaryTable.any (fun row => row.2 == o)

/-- Reads a symbol as a binary operator. -/
def ofBinarySymbol? (s : String) : Option Operator :=
  (binaryTable.find? (fun row => row.1 == s)).map (·.2)

/-- Reads a symbol as a unary operator. -/
def ofUnarySymbol? (s : String) : Option Operator :=
  (unaryTable.find? (fun row => row.1 == s)).map (·.2)

end Operator

end FiberVm
