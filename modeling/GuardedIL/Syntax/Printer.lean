import GuardedIL.Syntax.Program
import GuardedIL.Text
import GuardedIL.Text.Sorting

/-!
# Program text

The text of a program, one declaration or instruction a line. The canonical text lists external
functions and globals by name, so that it does not depend on the order of their declarations.
-/

namespace GuardedIL

namespace Instr

/-- Successor number `n` with the arguments passed to it. -/
def targetText (i : Instr) (n : Nat) : String :=
  match i.labels[n]? with
  | none => ""
  | some label =>
    match i.argsTo n with
    | [] => label
    | args => label ++ "(" ++ Text.commaList (args.map Operand.text) ++ ")"

/-- What follows the opcode. -/
def operandText (i : Instr) : String :=
  let args := Text.commaList (i.args.map Operand.text)
  match i.op with
  | .call => " @" ++ i.callee ++ "(" ++ args ++ ")"
  | .br => if i.labels.isEmpty then "" else " " ++ i.targetText 0
  | .cbr =>
    match i.args, i.labels with
    | condition :: _, _ :: _ :: _ =>
      " " ++ condition.text ++ ", " ++ i.targetText 0 ++ ", " ++ i.targetText 1
    | _, _ => " ; malformed"
  | _ => if i.args.isEmpty then "" else " " ++ args

def resultText (i : Instr) : String :=
  match i.result with
  | none => ""
  | some id => TempId.text id ++ ":" ++ i.ty.name ++ " = "

/-- The marks that a guard leaves on arithmetic. -/
def markText (i : Instr) : String :=
  if i.op.isArithmetic then
    (if i.checked then " !checked" else "") ++ (if i.wraps then " !wrap" else "")
  else ""

def lineText (i : Instr) : String :=
  if i.loc.line = 0 then "" else " ; line " ++ toString i.loc.line.toNat

def text (i : Instr) : String :=
  "  " ++ i.resultText ++ i.op.name ++ i.operandText ++ i.markText ++ i.lineText ++ "\n"

end Instr

namespace Block

def paramText (p : Param) : String :=
  TempId.text p.id ++ ":" ++ p.ty.name

def headText (b : Block) : String :=
  match b.params with
  | [] => b.label ++ ":\n"
  | params => b.label ++ "(" ++ Text.commaList (params.map paramText) ++ "):\n"

def text (b : Block) : String :=
  b.headText ++ String.join (b.instrs.map Instr.text)

end Block

namespace Func

def paramText (p : Param) : String :=
  p.ty.name ++ " " ++ TempId.text p.id

def text (f : Func) : String :=
  "func @" ++ f.name ++ "(" ++ Text.commaList (f.params.map paramText) ++ ") -> " ++ f.ret.name ++
    " \x7b\n" ++ String.join (f.blocks.map Block.text) ++ "\x7d\n"

end Func

def Extern.text (e : Extern) : String :=
  "extern @" ++ e.name ++ "(" ++ Text.commaList (e.params.map Ty.name) ++ ") -> " ++ e.ret.name ++
    "\n"

def Global.text (g : Global) : String :=
  "global const " ++ g.ty.name ++ " @" ++ g.name ++ " = " ++ Text.Literal.quote g.init ++ "\n"

namespace Program

def packageText (p : Program) : String :=
  if p.package.isEmpty then "" else "package " ++ Text.Literal.quote p.package ++ "\n"

def text (p : Program) : String :=
  "il " ++ p.version ++ "\n" ++ p.packageText ++ String.join (p.externs.map Extern.text) ++
    String.join (p.globals.map Global.text) ++ String.join (p.funcs.map Func.text)

/-- The program with its external functions and globals in order of their names. -/
def canonical (p : Program) : Program :=
  { p with
    externs := Text.sortByName Extern.name p.externs
    globals := Text.sortByName Global.name p.globals }

end Program

end GuardedIL
