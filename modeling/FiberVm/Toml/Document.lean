import FiberVm.Toml.Statement

/-!
# TOML documents

Executing the statements of a document in order builds the tree and the list of all keys in the
order in which the document gives them.

A key is given a value once. A table that was only mentioned on the way to another one is implicit:
giving it a value later is allowed once more, and changes nothing unless the key has held an array.
Which keys are implicit, and which have held an array, is remembered by key for the whole document,
also across tables that share a header.
-/

set_option autoImplicit false

namespace FiberVm.Toml

/-- Replaces what a name stands for, or adds it at the end. `f` gives nothing if that is not
allowed. -/
def alter (f : Option Node → Option Node) (s : String) : Entries → Option Entries
  | [] => (f none).map fun x => [(s, x)]
  | (t, x) :: rest =>
    if s = t then (f (some x)).map fun x => (t, x) :: rest
    else (alter f s rest).map fun rest => (t, x) :: rest

/-- Changes the table that a key leads to. Of the tables that share a header the newest is
meant. -/
def within (f : Entries → Option Entries) : Key → Entries → Option Entries
  | [], t => f t
  | s :: k, t => alter (fun
    | some (.table es) => (within f k es).map .table
    | some (.tables (e :: es)) => (within f k e).map fun e => .tables (e :: es)
    | _ => none) s t

/-- The table that a key leads to. -/
def reach : Key → Entries → Option Entries
  | [], t => some t
  | s :: k, t =>
    match t.lookup s with
    | some (.table es) | some (.tables (es :: _)) => reach k es
    | _ => none

/-- Puts a value into an inline table. Tables on the way that are missing are made. -/
def insertAt (x : Node) : Key → Entries → Option Entries
  | [], t => some t
  | [s], t => alter (fun _ => some x) s t
  | s :: k, t => alter (fun
    | none => (insertAt x k []).map .table
    | some (.table es) => (insertAt x k es).map .table
    | some _ => none) s t

/-- A document while its statements are executed. -/
structure Document where
  root : Entries := []
  /-- The table that pairs go into. -/
  context : Key := []
  /-- The keys that were given, newest first. -/
  given : List Key := []
  /-- The keys of implicit tables. -/
  implicits : List Key := []
  /-- The keys whose last value was an array. -/
  arrays : List Key := []
deriving Repr

namespace Document

/-- Marks a key as implicit. -/
def addImplicit (d : Document) (k : Key) : Document :=
  { d with implicits := d.implicits.insert k }

/-- Notes whether a name in the current table holds an array. The empty name stands for the table
itself, if there is one around it. -/
def note (d : Document) (s : String) (isArray : Bool) : Document :=
  let k := if s = "" ∧ d.context ≠ [] then d.context else d.context ++ [s]
  { d with arrays := if isArray then d.arrays.insert k else d.arrays.erase k }

/-- Gives a name in the current table its value. -/
def put (d : Document) (s : String) (x : Node) : Option Document := do
  let k := d.context ++ [s]
  let t ← reach d.context d.root
  let root ← within (alter (fun _ => some x) s) d.context d.root
  if (t.lookup s).isNone then return { d with root := root }
  if k ∉ d.implicits then failure
  let d := { d with implicits := d.implicits.erase k }
  return if k ∈ d.arrays then { d with root := root } else d

/-- Makes sure that there is something under a key whose parents exist. A table made here is
implicit. -/
def ensure (d : Document) (k : Key) : Option Document := do
  let s ← k.getLast?
  let t ← reach k.dropLast d.root
  if (t.lookup s).isSome then return d
  let root ← within (alter (fun _ => some (.table [])) s) k.dropLast d.root
  return { d with root := root }.addImplicit k

/-- Makes sure that the tables around a key exist. -/
def ensureParents (d : Document) (k : Key) : Option Document :=
  ((List.range k.length).drop 1).foldlM (fun d n => d.ensure (k.take n)) d

/-- Opens the table with a key. -/
def enter (d : Document) (k : Key) : Option Document := do
  let s ← k.getLast?
  let d ← d.ensureParents k
  let d ← { d with context := k.dropLast }.put s (.table [])
  return { d with context := k }

/-- Opens a new table among those that share a header. -/
def enterNew (d : Document) (k : Key) : Option Document := do
  let s ← k.getLast?
  let d ← d.ensureParents k
  let root ← within (alter (fun
    | none => some (.tables [[]])
    | some (.tables es) => some (.tables ([] :: es))
    | some _ => none) s) k.dropLast d.root
  return { d with root := root, context := k }

/-- Opens the tables that a dotted key leads through, notes the key as given, and gives its last
name. -/
def beginPair (d : Document) (k : Key) : Option (String × Document) := do
  let s ← k.getLast?
  let d ← k.dropLast.foldlM (fun d t =>
    let inner := d.context ++ [t]
    (d.addImplicit inner).enter inner) d
  return (s, { d with given := (d.context ++ [s]) :: d.given })

/-- Ends a pair whose value is known. -/
def endPair (d : Document) (s : String) (x : Node) : Option Document := do
  let d ← d.put s x
  return d.note s (x matches .array _)

mutual

/-- The value of an expression for a name in the current table. An inline table is opened like a
table with a header while its pairs are executed, and inside an array like one that shares its
header. -/
def eval (inArray : Bool) (s : String) : Expr → Document → Option (Node × Document)
  | .scalar x, d => some (x, d)
  | .array es, d => do
    let (xs, d) ← evalAll s es (d.note s true)
    return (.array xs, d)
  | .table ps, d => do
    let outer := d.context
    let k := outer ++ [s]
    let d := d.addImplicit k
    let d ← if inArray then d.enterNew k else d.enter k
    let (t, d) ← evalPairs k ps [] d
    return (.table t, { d with context := outer })

def evalAll (s : String) : List Expr → Document → Option (List Node × Document)
  | [], d => some ([], d)
  | e :: es, d => do
    let (x, d) ← eval true s e d
    let (xs, d) ← evalAll s es d
    return (x :: xs, d)

/-- The entries of an inline table with key `k`, put into those so far. -/
def evalPairs (k : Key) : List (Key × Expr) → Entries → Document → Option (Entries × Document)
  | [], t, d => some (t, d)
  | (inner, e) :: ps, t, d => do
    let (s, d) ← { d with context := k }.beginPair inner
    let (x, d) ← eval false s e d
    let d ← d.endPair s x
    let t ← insertAt x inner t
    evalPairs k ps t d

end

def execute (d : Document) : Statement → Option Document
  | .header k => do
    let d ← d.enter k
    return { d.note "" false with given := k :: d.given }
  | .listHeader k => do
    let d ← d.enterNew k
    return { d.note "" false with given := k :: d.given }
  | .pair k e => do
    let outer := d.context
    let (s, d) ← d.beginPair k
    let (x, d) ← eval false s e d
    let d ← d.endPair s x
    return { d with context := outer }

/-- The keys in the order of the document. -/
def keys (d : Document) : List Key := d.given.reverse

def parse? (bytes : List UInt8) : Option Document := do
  (← Statement.parseAll? bytes).foldlM execute {}

end Document

end FiberVm.Toml
