import FiberVm.Decimal.Literal
import FiberVm.Text.Integer
import FiberVm.Toml.Quoted
import FiberVm.Toml.Time

/-!
# TOML scalars and keys

Numbers may have underscores between digits and no needless zeros in front.
-/

set_option autoImplicit false

namespace FiberVm.Toml

def isHex (c : Char) : Bool := (hexDigit? c).isSome

/-- Does every underscore follow a digit, and does a digit stand at the end? `afterDigit` tells of
the character before. -/
def underscoresOk (afterDigit : Bool) : List Char → Bool
  | [] => afterDigit
  | c :: cs => (c != '_' || afterDigit) && underscoresOk (isHex c) cs

/-- Is there a zero in front of other digits? -/
def hasLeadingZero : List Char → Bool
  | '0' :: c :: _ => !(c == 'b' || c == 'o' || c == 'x')
  | '+' :: '0' :: _ :: _ | '-' :: '0' :: _ :: _ => true
  | _ => false

def integerOf? (spelling : List Char) : Option Int :=
  if underscoresOk false spelling && !hasLeadingZero spelling then
    match Text.anyBase spelling with
    | .ok n => some n
    | .error _ => none
  else none

/-- The pieces between points and exponent marks, without empty ones. -/
def pieces (piece : List Char) : List Char → List (List Char)
  | [] => if piece.isEmpty then [] else [piece.reverse]
  | c :: cs =>
    if c == '.' || c == 'e' || c == 'E' then
      if piece.isEmpty then pieces [] cs else piece.reverse :: pieces [] cs
    else pieces (c :: piece) cs

/-- Does a digit follow every point? -/
def pointsOk : List Char → Bool
  | [] => true
  | '.' :: c :: cs => c.isDigit && pointsOk (c :: cs)
  | '.' :: [] => false
  | _ :: cs => pointsOk cs

/-- Is this the spelling of a float? -/
def isFloat (spelling : List Char) : Bool :=
  let ps := pieces [] spelling
  ps.all (underscoresOk false)
    && !(ps.head?.map hasLeadingZero).getD false
    && pointsOk spelling
    && Decimal.isNumber (spelling.filter (· != '_'))

/-- A float with a spelling. -/
def floatOf? (spelling : List Char) : Option Node :=
  if isFloat spelling then some (.float (String.ofList spelling)) else none

/-- Characters that may follow the point or exponent mark of a float. -/
def isFloatChar (c : Char) : Bool :=
  c.isDigit || c == '_' || c == '.' || c == '-' || c == '+' || c == 'e' || c == 'E'

/-- Characters of dates and times. -/
def isTimeChar (c : Char) : Bool :=
  c.isDigit || c == '-' || c == ':' || c == 'T' || c == 't' || c == ' ' || c == '.' || c == 'Z'
    || c == 'z' || c == '+'

/-- A run of characters at the front, and what follows. -/
def run (p : Char → Bool) (cs : List Char) : List Char × List Char :=
  (cs.takeWhile p, cs.dropWhile p)

def trimEnd (cs : List Char) : List Char := (cs.reverse.dropWhile isSpace).reverse

/-- A decimal number whose first characters, a sign or nothing, are given. -/
def decimalNumber (sign : List Char) : Reader Node := fun cs =>
  let (ds, rest) := run (fun c => c.isDigit || c == '_') cs
  match rest with
  | c :: more =>
    if c == '.' || c == 'e' || c == 'E' then
      let (tail, rest) := run isFloatChar more
      (floatOf? (sign ++ ds ++ c :: tail)).map fun x => (x, rest)
    else (integerOf? (sign ++ ds)).map fun n => (.integer n, rest)
  | [] => (integerOf? (sign ++ ds)).map fun n => (.integer n, rest)

/-- A number with a mark of its base, if the mark is followed by one of its digits. -/
def basedNumber (base : Nat) (markChar : Char) : Reader Node := fun cs =>
  let isDigitOfBase (c : Char) : Bool := (hexDigit? c).any fun d => d < base
  if (cs.head?.map isDigitOfBase).getD false then
    let (ds, rest) := run (fun c => isDigitOfBase c || c == '_') cs
    (integerOf? ('0' :: markChar :: ds)).map fun n => (.integer n, rest)
  else none

/-- A number, a date or a time, which starts with a digit. -/
def numberOrTime : Reader Node := fun cs =>
  match cs with
  | '0' :: 'x' :: cs => basedNumber 16 'x' cs
  | '0' :: 'o' :: cs => basedNumber 8 'o' cs
  | '0' :: 'b' :: cs => basedNumber 2 'b' cs
  | cs =>
    match (run Char.isDigit cs).2 with
    | '-' :: _ | ':' :: _ =>
      let (spelling, rest) := run isTimeChar cs
      let spelling := trimEnd spelling
      if isTime spelling then some (.time (String.ofList spelling), rest) else none
    | _ => decimalNumber [] cs

/-- A number after its sign. -/
def signedNumber (sign : Char) : Reader Node := fun cs =>
  match cs with
  | 'i' :: 'n' :: 'f' :: cs => some (.float (String.ofList [sign, 'i', 'n', 'f']), cs)
  | 'n' :: 'a' :: 'n' :: cs => some (.float (String.ofList [sign, 'n', 'a', 'n']), cs)
  | c :: cs => if c.isDigit then decimalNumber [sign] (c :: cs) else none
  | [] => none

/-- A value other than an array or a table. -/
def scalar : Reader Node := fun cs =>
  match cs with
  | [] => none
  | '"' :: _ | '\'' :: _ => (quotedText cs).map fun (s, rest) => (.text s, rest)
  | 't' :: 'r' :: 'u' :: 'e' :: cs => some (.bool true, cs)
  | 'f' :: 'a' :: 'l' :: 's' :: 'e' :: cs => some (.bool false, cs)
  | 'i' :: 'n' :: 'f' :: cs => some (.float "inf", cs)
  | 'n' :: 'a' :: 'n' :: cs => some (.float "nan", cs)
  | '+' :: cs => signedNumber '+' cs
  | '-' :: cs => signedNumber '-' cs
  | c :: _ => if c.isDigit then numberOrTime cs else none

/-- One name of a key. -/
def name : Reader String := fun cs =>
  match cs.dropWhile isSpace with
  | '"' :: cs => (basic cs).map fun (s, rest) => (String.ofList s, rest)
  | '\'' :: cs => (plain cs).map fun (s, rest) => (String.ofList s, rest)
  | cs =>
    let (s, rest) := run isBare cs
    if s.isEmpty then none else some (String.ofList s, rest)

/-- A key: names with points between them. `fuel` bounds their number. -/
def keyWithin : Nat → Reader Key
  | 0, _ => none
  | fuel + 1, cs => do
    let (s, cs) ← name cs
    match cs.dropWhile isSpace with
    | '.' :: cs =>
      let (k, cs) ← keyWithin fuel cs
      return (s :: k, cs)
    | cs => return ([s], cs)

/-- A key and the blanks behind it. -/
def key : Reader Key := fun cs => keyWithin (cs.length + 1) cs

end FiberVm.Toml
