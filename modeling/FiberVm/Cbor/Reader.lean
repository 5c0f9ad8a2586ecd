import FiberVm.Cbor.Item
import FiberVm.Decimal.Binary64

/-!
# Reading CBOR

The whole input is one item. Numbers need not be written in the fewest bytes, and strings, arrays
and maps may have unknown length. Arrays and maps are limited in size and in the depth to which they
are nested; a tag inside a tag counts as a level too.
-/

set_option autoImplicit false

namespace FiberVm.Cbor

abbrev Reader (α : Type) := List UInt8 → Option (α × List UInt8)

/-- The first bytes of an item. `info` tells how the argument is written, 31 that the length is
unknown. -/
structure Head where
  major : Nat
  info : Nat
  arg : Nat
deriving DecidableEq, Repr

def take (n : Nat) : Reader (List UInt8) := fun bs =>
  let front := bs.take n
  if front.length = n then some (front, bs.drop n) else none

def readHead : Reader Head := fun bs =>
  match bs with
  | [] => none
  | b :: bs =>
    let major := b.toNat / 32
    let info := b.toNat % 32
    if info < 24 then some (⟨major, info, info⟩, bs)
    else if info < 28 then
      (take (Nat.pow 2 (info - 24)) bs).map fun (arg, bs) => (⟨major, info, ofBigEndian arg⟩, bs)
    else if info = 31 then some (⟨major, info, 0⟩, bs)
    else none

def many {α : Type} (read : Reader α) : Nat → Reader (List α)
  | 0, bs => some ([], bs)
  | n + 1, bs =>
    match read bs with
    | none => none
    | some (x, bs) => (many read n bs).map fun (xs, bs) => (x :: xs, bs)

/-- Values up to the break byte. `fuel` bounds their number. -/
def untilBreak {α : Type} (read : Reader α) : Nat → Reader (List α)
  | 0, _ => none
  | _, [] => none
  | fuel + 1, b :: bs =>
    if b = breakByte then some ([], bs)
    else
      match read (b :: bs) with
      | none => none
      | some (x, bs) => (untilBreak read fuel bs).map fun (xs, bs) => (x :: xs, bs)

/-- One chunk of a string of unknown length. -/
def chunk (major : Nat) : Reader (List UInt8) := fun bs =>
  match readHead bs with
  | some (h, bs) => if h.major = major ∧ h.info ≠ 31 then take h.arg bs else none
  | none => none

/-- The rest of a string after its head. -/
def chunks (h : Head) : Reader (List (List UInt8)) := fun bs =>
  if h.info = 31 then untilBreak (chunk h.major) (bs.length + 1) bs
  else (take h.arg bs).map fun (front, bs) => ([front], bs)

/-- The most members of an array and the most entries of a map. -/
def maxMembers : Nat := 131072

/-- The rest of an array or map after its head. -/
def membersOf {α : Type} (read : Reader α) (h : Head) : Reader (List α) := fun bs =>
  if h.info = 31 then
    match untilBreak read (bs.length + 1) bs with
    | some (xs, bs) => if xs.length ≤ maxMembers then some (xs, bs) else none
    | none => none
  else if maxMembers < h.arg then none
  else many read h.arg bs

def pair {α : Type} (read : Reader α) : Reader (α × α) := fun bs =>
  match read bs with
  | none => none
  | some (x, bs) => (read bs).map fun (y, bs) => ((x, y), bs)

/-- The simple value or float after its head. A simple value in two bytes is at least 32. -/
def primitive (h : Head) : Option Item :=
  if h.info < 24 then some (.simple h.arg.toUInt8)
  else if h.info = 24 then if 32 ≤ h.arg then some (.simple h.arg.toUInt8) else none
  else if h.info = 25 then some (.float (Decimal.Binary64.widen 5 10 h.arg))
  else if h.info = 26 then some (.float (Decimal.Binary64.widen 8 23 h.arg))
  else if h.info = 27 then some (.float h.arg.toUInt64)
  else none

/-- Reads an item with `room` levels left for arrays, maps and inner tags. `fuel` bounds the depth
and may be the length of the input. -/
def item : (fuel room : Nat) → (underTag : Bool) → Reader Item
  | 0, _, _, _ => none
  | fuel + 1, room, underTag, bs =>
    match readHead bs with
    | none => none
    | some (h, bs) =>
      match h.major with
      | 0 => if h.info = 31 then none else some (.unsigned h.arg.toUInt64, bs)
      | 1 => if h.info = 31 then none else some (.negative h.arg.toUInt64, bs)
      | 2 => (chunks h bs).map fun (cs, bs) => (.bytes cs, bs)
      | 3 => (chunks h bs).map fun (cs, bs) => (.text cs, bs)
      | 4 =>
        if room = 0 then none
        else (membersOf (item fuel (room - 1) false) h bs).map fun (xs, bs) => (.array xs, bs)
      | 5 =>
        if room = 0 then none
        else (membersOf (pair (item fuel (room - 1) false)) h bs).map fun (xs, bs) => (.map xs, bs)
      | 6 =>
        if h.info = 31 ∨ (underTag = true ∧ room = 0) then none
        else
          (item fuel (if underTag then room - 1 else room) true bs).map fun (x, bs) =>
            (.tag h.arg.toUInt64 x, bs)
      | _ => (primitive h).map fun x => (x, bs)

/-- The most levels to which items may be nested. -/
def maxDepth : Nat := 32

/-- Reads an input that is exactly one item. -/
def Item.decode? (bs : List UInt8) : Option Item :=
  match item (bs.length + 1) maxDepth false bs with
  | some (x, []) => some x
  | _ => none

end FiberVm.Cbor
