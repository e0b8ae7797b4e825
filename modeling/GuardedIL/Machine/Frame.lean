import GuardedIL.Machine.Arith
import GuardedIL.Machine.Trap
import GuardedIL.Typing.Scope

/-!
# Frames

A frame is one activation of a function: its registers and the place it has reached. There is a
register for every number up to the greatest temporary the function defines, and all hold zero on
entry. A literal is read at the type the reader asks for.
-/

namespace GuardedIL

/-- One more than the greatest temporary the function defines. The count is meant to be a 32-bit word too, so
that there is no register for `2 ^ 32 - 1`: a run of a function that defines it means nothing. -/
def Func.registerCount (f : Func) : Nat :=
  f.defs.foldl (fun n d => max n (d.id.toNat + 1)) 0

/-- `ip` is the index in `block` of the next instruction. `site` is that of the last one, or of the
call that entered the frame if none has run. -/
structure Frame where
  func : Func
  scope : Scope
  regs : Array Value
  block : Block
  ip : Nat := 0
  site : Site := {}

namespace Frame

/-- The number of frames that may be active at once. -/
def depthLimit : Nat := 1024

def write (fr : Frame) (id : TempId) (v : Value) : Frame :=
  { fr with regs := fr.regs.setIfInBounds id.toNat v }

def bindParams (fr : Frame) (params : List Param) (values : List Value) : Frame :=
  (params.zip values).foldl (fun fr (p, v) => fr.write p.id (v.normalize p.ty)) fr

/-- Enters a function at its first block. `depth` frames are active already. -/
def enter (f : Func) (args : List Value) (depth : Nat) (site : Site) : Except Cause Frame :=
  if depthLimit ≤ depth then .error (.depthExceeded f.name)
  else
    match f.blocks with
    | [] => .error (.noBody f.name)
    | entry :: _ =>
      if args.length ≠ f.params.length then .error (.argCount f.name)
      else
        let regs := Array.replicate f.registerCount (.int 0)
        let fr : Frame := { func := f, scope := f.scope, regs, block := entry, site }
        .ok (fr.bindParams f.params args)

def store (fr : Frame) (result : Option TempId) (v : Value) : Frame :=
  match result with
  | none => fr
  | some id => fr.write id v

def goto (fr : Frame) (target : Block) (values : List Value) : Frame :=
  { fr.bindParams target.params values with block := target, ip := 0 }

def advance (fr : Frame) (i : Instr) : Frame :=
  { fr with
    ip := fr.ip + 1
    site :=
      { func := fr.func.name
        block := fr.block.label
        ip := fr.ip
        line := if i.loc.line = 0 then -1 else i.loc.line.toInt32 } }

/-- The declared type of a temporary, and `fallback` for every other operand. -/
def tyOf (fr : Frame) (fallback : Ty) : Operand → Ty
  | .temp id =>
    match fr.scope.ty? id with
    | none | some .void => fallback
    | some ty => ty
  | _ => fallback

def read (fr : Frame) (ty : Ty) : Operand → Except Cause Value
  | .temp id =>
    match fr.regs[id.toNat]? with
    | some v => .ok v
    | none => .error (.undefinedTemp id)
  | .int v => .ok (.int (ty.normalize v))
  | .bool b => .ok (.int (ty.normalize (if b then 1 else 0)))
  | .str s => .ok (.text (Text.untilNul s))
  | .null => .ok (.int 0)
  | .global name => .error (.globalAsValue name)

def readWord (fr : Frame) (ty : Ty) (o : Operand) : Except Cause Int64 :=
  match fr.read ty o with
  | .ok v => .ok (ty.normalize v.word)
  | .error c => .error c

def readAll (fr : Frame) : List (Ty × Operand) → Except Cause (List Value)
  | [] => .ok []
  | (ty, o) :: rest => do
    let v ← fr.read ty o
    let vs ← fr.readAll rest
    return v :: vs

end Frame

end GuardedIL
