import FiberVm.Text.Integer
import FiberVm.Text.Quoted
import FiberVm.Word

/-!
# Commands of the debugger's console

A command is a word and its arguments. Movements go on with the program; the other commands set
breakpoints or show something. Words are bytes, which need not be text.
-/

set_option autoImplicit false

namespace FiberVm.Console

/-- A command that goes on with the program. -/
inductive Movement
  | step (count : Int)
  | next
  | finish
  | resume
deriving DecidableEq, Repr

inductive Command
  | move (m : Movement)
  | setBreakpoint (pc : Int)
  | deleteBreakpoint (id : Int)
  | enableBreakpoint (id : Int) (active : Bool)
  | breakpoints
  | registers
  | stack
  | fibers
  | list (count : Int)
  | node (a : Addr)
  | collect
  | stats
  | help
  | quit
deriving DecidableEq, Repr

inductive Complaint
  | usage (form : String)
  | badNumber (word : List UInt8)
  | badCount (word : List UInt8)
  | badAddress (word : List UInt8)
  | unknown (word : List UInt8)
deriving DecidableEq, Repr

def Complaint.message : Complaint → String
  | usage form => s!"usage: {form}"
  | badNumber word => s!"bad number {Text.quotedUtf8 word}"
  | badCount word => s!"bad count {Text.quotedUtf8 word}"
  | badAddress word => s!"bad address {Text.quotedUtf8 word}"
  | unknown word => s!"unknown command {Text.quotedUtf8 word} (try help)"

/-- The only argument, an integer. -/
def integerArg (form : String) (args : List (List UInt8)) : Except Complaint Int :=
  match args with
  | [word] =>
    match Text.decimal (Text.ofUtf8 word).toList with
    | .ok n => .ok n
    | .error _ => .error (.badNumber word)
  | _ => .error (.usage form)

/-- The first argument, a positive integer; others are ignored. -/
def countArg (default : Int) (args : List (List UInt8)) : Except Complaint Int :=
  match args with
  | [] => .ok default
  | word :: _ =>
    match Text.decimal (Text.ofUtf8 word).toList with
    | .ok n => if 0 < n then .ok n else .error (.badCount word)
    | .error _ => .error (.badCount word)

/-- The only argument, an address, which may be marked by an at sign. -/
def addressArg (args : List (List UInt8)) : Except Complaint Addr :=
  match args with
  | [word] =>
    let digits :=
      match (Text.ofUtf8 word).toList with
      | '@' :: cs => cs
      | cs => cs
    if digits.isEmpty then .error (.badAddress word)
    else
      match Text.magnitude 10 false 0 digits with
      | .ok n => if n < 0x100000000 then .ok n.toUInt32 else .error (.badAddress word)
      | .error _ => .error (.badAddress word)
  | _ => .error (.usage "heap <addr>")

def Command.parse (word : List UInt8) (args : List (List UInt8)) : Except Complaint Command :=
  match Text.ofUtf8 word with
  | "step" | "s" => (countArg 1 args).map fun n => .move (.step n)
  | "next" | "n" => .ok (.move .next)
  | "finish" | "f" => .ok (.move .finish)
  | "continue" | "c" => .ok (.move .resume)
  | "break" | "b" => (integerArg "break <pc>" args).map .setBreakpoint
  | "delete" => (integerArg "delete <id>" args).map .deleteBreakpoint
  | "enable" => (integerArg "enable <id>" args).map fun id => .enableBreakpoint id true
  | "disable" => (integerArg "disable <id>" args).map fun id => .enableBreakpoint id false
  | "breakpoints" => .ok .breakpoints
  | "regs" | "r" => .ok .registers
  | "stack" => .ok .stack
  | "goroutines" | "g" => .ok .fibers
  | "list" | "l" => (countArg 5 args).map .list
  | "heap" => (addressArg args).map .node
  | "gc" => .ok .collect
  | "stats" => .ok .stats
  | "help" | "h" | "?" => .ok .help
  | "quit" | "q" => .ok .quit
  | _ => .error (.unknown word)

def helpText : String :=
  "Commands:\n" ++
  "  step [n]        execute n instructions (default 1)\n" ++
  "  next            step over a call\n" ++
  "  finish          run until the current call returns\n" ++
  "  continue        run to the next breakpoint or completion\n" ++
  "  break <pc>      set a breakpoint\n" ++
  "  delete <id>     delete a breakpoint\n" ++
  "  enable <id>     enable a breakpoint\n" ++
  "  disable <id>    disable a breakpoint\n" ++
  "  breakpoints     list breakpoints\n" ++
  "  regs            show the running goroutine's registers\n" ++
  "  stack           show the operand and runtime stacks\n" ++
  "  goroutines      list live goroutines\n" ++
  "  list [n]        show n instructions around pc (default 5)\n" ++
  "  heap <addr>     describe the node at addr\n" ++
  "  gc              run a collection\n" ++
  "  stats           show run statistics\n" ++
  "  quit            abandon the run\n" ++
  "An empty line repeats the previous command.\n"

end FiberVm.Console
