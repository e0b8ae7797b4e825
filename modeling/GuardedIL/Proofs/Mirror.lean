import GuardedIL.Proofs.Check
import GuardedIL.Proofs.Preservation

/-!
# Frames of guarded functions

A frame of a guarded function mirrors a frame of the function itself: it has the same values in the
registers that both have, and it stands at the piece of the block that holds the next instruction.
An accepted instruction then has the same effect in both, up to the pieces that stand for blocks.
-/

namespace GuardedIL.Overflow

open Typing Machine

/-! ### Registers -/

/-- The frame `fr'` of a guarded function has the registers of `fr`, and more. -/
structure Mirrors (s : MulStrategy) (p : Program) (fr fr' : Frame) : Prop where
  member : fr.func ∈ p.funcs
  func : fr'.func = fr.func.guard s
  scope : fr.scope = fr.func.scope
  scope' : fr'.scope = fr'.func.scope
  size : fr.regs.size = fr.func.registerCount
  size' : fr'.regs.size = fr'.func.registerCount
  regs : ∀ k < fr.func.registerCount, fr'.regs[k]? = fr.regs[k]?

theorem registerCount_le_guard (f : Func) (s : MulStrategy) :
    f.registerCount ≤ (f.guard s).registerCount := by
  refine registers_le (Nat.zero_le _) fun d member => ?_
  have typing : (d.id, d.ty) ∈ f.typings := by
    rw [← f.defs_typings]
    exact List.mem_map_of_mem (f := fun d : Def => (d.id, d.ty)) member
  exact Func.lt_registerCount_of_typing (Func.guard_typings_subset typing)

namespace Mirrors

variable {s : MulStrategy} {p : Program} {fr fr' : Frame}

theorem write (mirrors : Mirrors s p fr fr') (id : TempId) (v : Value) :
    Mirrors s p (fr.write id v) (fr'.write id v) := by
  have more : fr.regs.size ≤ fr'.regs.size := by
    rw [mirrors.size, mirrors.size', mirrors.func]
    exact registerCount_le_guard _ s
  refine { mirrors with size := ?_, size' := ?_, regs := fun k inside => ?_ }
  · exact Array.size_setIfInBounds.trans mirrors.size
  · exact Array.size_setIfInBounds.trans mirrors.size'
  · change k < fr.func.registerCount at inside
    have same := mirrors.regs k inside
    rw [← mirrors.size] at inside
    change (fr'.regs.setIfInBounds _ _)[k]? = (fr.regs.setIfInBounds _ _)[k]?
    rw [Array.getElem?_setIfInBounds, Array.getElem?_setIfInBounds, same]
    by_cases here : id.toNat = k
    · rw [if_pos here, if_pos here, if_pos (by omega), if_pos (by omega)]
    · rw [if_neg here, if_neg here]

theorem store (mirrors : Mirrors s p fr fr') (result : Option TempId) (v : Value) :
    Mirrors s p (fr.store result v) (fr'.store result v) := by
  cases result with
  | none => exact mirrors
  | some id => exact mirrors.write id v

theorem bindParams (mirrors : Mirrors s p fr fr') (params : List Param) (values : List Value) :
    Mirrors s p (fr.bindParams params values) (fr'.bindParams params values) := by
  unfold Frame.bindParams
  induction params.zip values generalizing fr fr' with
  | nil => exact mirrors
  | cons pair rest ih => exact ih (mirrors.write pair.1.id _)

theorem advance (mirrors : Mirrors s p fr fr') (i j : Instr) :
    Mirrors s p (fr.advance i) (fr'.advance j) :=
  { mirrors with }

end Mirrors

theorem store_keeps (fr : Frame) (result : Option TempId) (v : Value) :
    (fr.store result v).func = fr.func ∧ (fr.store result v).block = fr.block ∧
      (fr.store result v).ip = fr.ip := by
  cases result <;> exact ⟨rfl, rfl, rfl⟩

theorem bindParams_keeps (fr : Frame) (params : List Param) (values : List Value) :
    (fr.bindParams params values).func = fr.func ∧
      (fr.bindParams params values).block = fr.block ∧
      (fr.bindParams params values).ip = fr.ip := by
  unfold Frame.bindParams
  induction params.zip values generalizing fr with
  | nil => exact ⟨rfl, rfl, rfl⟩
  | cons pair rest ih => exact ih (fr.write pair.1.id _)

/-! ### Operands -/

/-- An operand that is no temporary, or one in the scope. -/
def Known (scope : Scope) (o : Operand) : Prop :=
  ∀ id, o = .temp id → ∃ ty, scope.ty? id = some ty

theorem known_of_operandTy? {scope : Scope} {expected ty : Ty} {o : Operand}
    (has : scope.operandTy? expected o = some ty) : Known scope o := by
  rintro id rfl
  exact ⟨ty, has⟩

/-- The operands of a typed instruction are in the scope. -/
theorem known_args {c : Context} {i : Instr} (typed : Typed c i) : ∀ o ∈ i.args, Known c.scope o := by
  cases typed with
  | arith op a b isOp args result labels integer number signed unsigned left right =>
    simpa [args] using ⟨known_of_operandTy? left, known_of_operandTy? right⟩
  | bitwise op a b isOp args result labels integer left right =>
    simpa [args] using ⟨known_of_operandTy? left, known_of_operandTy? right⟩
  | compare op a b ta tb isOp args result labels condition left right common =>
    simpa [args] using ⟨known_of_operandTy? left, known_of_operandTy? right⟩
  | cast op a source isOp args result labels operand target integer width =>
    simpa [args] using known_of_operandTy? operand
  | constStr name isOp args result labels text known => simp [args, Known]
  | call sig isOp labels known count args result =>
    intro o member
    obtain ⟨n, inside, rfl⟩ := List.mem_iff_getElem.mp member
    have pair := args (sig.params[n], i.args[n]) (by
      rw [List.mem_iff_getElem]
      exact ⟨n, by simp; omega, by simp⟩)
    exact known_of_operandTy? pair
  | br isOp args result labels => simp [args]
  | cbr a isOp args result labels condition => simpa [args] using known_of_operandTy? condition
  | ret isOp result labels count form operand =>
    exact fun o member => known_of_operandTy? (operand o member)
  | trap isOp args result labels => simp [args]

theorem known_argsTo {c : Context} {i : Instr} (branches : Branches c i) {n : Nat} {label : String}
    (successor : i.labels[n]? = some label) : ∀ o ∈ i.argsTo n, Known c.scope o := by
  obtain ⟨t, _, count, args⟩ := branches n label successor
  intro o member
  obtain ⟨k, inside, rfl⟩ := List.mem_iff_getElem.mp member
  exact known_of_operandTy? (args (t.params[k], (i.argsTo n)[k]) (by
    rw [List.mem_iff_getElem]
    exact ⟨k, by simp; omega, by simp⟩))

theorem readAll_congr {fr fr' : Frame} {operands operands' : List (Ty × Operand)}
    (same : List.Forall₂ (fun pair pair' => fr'.read pair'.1 pair'.2 = fr.read pair.1 pair.2) operands operands') :
    fr'.readAll operands' = fr.readAll operands := by
  induction same with
  | nil => rfl
  | @cons pair pair' rest rest' first _ ih =>
    obtain ⟨ty, o⟩ := pair
    obtain ⟨ty', o'⟩ := pair'
    rw [Frame.readAll, Frame.readAll, first, ih]

section Read

variable {s : MulStrategy} {p p' : Program} {fr fr' : Frame} {o : Operand}
  (mirrors : Mirrors s p fr fr') (typed : FuncTyped p fr.func)
include mirrors typed

theorem lt_of_known {id : TempId} (known : Known fr.scope (.temp id)) :
    id.toNat < fr.func.registerCount := by
  obtain ⟨ty, has⟩ := known id rfl
  rw [mirrors.scope, Func.scope_ty?_iff typed.ids] at has
  exact Func.lt_registerCount_of_typing has

theorem read_mirror (known : Known fr.scope o) (ty : Ty) : fr'.read ty o = fr.read ty o := by
  cases o with
  | temp id => simp only [Frame.read, mirrors.regs _ (lt_of_known mirrors typed known)]
  | _ => rfl

theorem readWord_mirror (known : Known fr.scope o) (ty : Ty) :
    fr'.readWord ty o = fr.readWord ty o := by
  rw [Frame.readWord, read_mirror mirrors typed known, Frame.readWord]

theorem readAll_mirror {operands : List (Ty × Operand)}
    (known : ∀ pair ∈ operands, Known fr.scope pair.2) :
    fr'.readAll operands = fr.readAll operands :=
  readAll_congr (List.forall₂_same.mpr fun pair member => read_mirror mirrors typed (known pair member) _)

theorem tyOf_mirror (room : fr.func.IdsFit s) (known : Known fr.scope o) (fallback : Ty) :
    fr'.tyOf fallback o = fr.tyOf fallback o := by
  cases o with
  | temp id =>
    obtain ⟨ty, has⟩ := known id rfl
    have has' : fr'.scope.ty? id = some ty := by
      rw [mirrors.scope', mirrors.func]
      exact Func.guard_scope room typed.ids (mirrors.scope ▸ has)
    simp only [Frame.tyOf, has, has']
  | _ => rfl

end Read

/-! ### Places -/

/-- The instructions `rest` of the function `f` follow at `ip` in a piece, and the later pieces are
in the guarded function. -/
def At (s : MulStrategy) (f : Func) (rest : List Instr) (piece : Block) (ip : Nat) : Prop :=
  ∃ b names tail, (guardInstrs s b rest names).1 = piece :: tail ∧
    (guardInstrs s b rest names).1 ⊆ (f.guard s).blocks ∧ b.instrs.length = ip ∧
    names.HasRoom f.registerCount (guardTemps s rest)

section At

variable {s : MulStrategy} {f : Func} {i : Instr} {rest : List Instr} {piece : Block} {ip : Nat}

theorem getElem?_of_begins {α : Type} {xs ys : List α} {x : α} (first : xs ++ [x] <+: ys) :
    ys[xs.length]? = some x := by
  obtain ⟨tail, rfl⟩ := first
  simp

theorem getElem?_of_drop {α : Type} {xs rest : List α} {x : α} {n : Nat}
    (next : xs.drop n = x :: rest) : xs[n]? = some x := by
  rw [← Nat.add_zero n, ← List.getElem?_drop, next]
  rfl

theorem At.other (place : At s f (i :: rest) piece ip) (other : candidate? i = none) :
    piece.instrs[ip]? = some i ∧ At s f rest piece (ip + 1) := by
  obtain ⟨b, names, tail, blocks, inside, rfl, room⟩ := place
  rw [guardInstrs_other other] at blocks inside
  rw [guardTemps_cons, instrTemps_none other, Nat.zero_add] at room
  refine ⟨?_, _, names, tail, blocks, inside, by simp, room⟩
  obtain ⟨head, _, blocks', _, _, kept⟩ :=
    guardInstrs_head s { b with instrs := b.instrs ++ [i] } rest names
  obtain ⟨rfl, _⟩ := List.cons.inj (blocks'.symm.trans blocks)
  exact getElem?_of_begins kept

/-- A piece that comes to a candidate ends with its check, and the candidate comes first in the piece
after it. -/
theorem At.candidate {c : Candidate} (place : At s f (i :: rest) piece ip)
    (found : candidate? i = some c) : ∃ b names cont,
      piece = (Guard.ofInstr i (c.predicate s) names).1.headBlock b b.instrs ∧
      ip = b.instrs.length ∧ piece ∈ (f.guard s).blocks ∧
      names.HasRoom f.registerCount
        ((Guard.ofInstr i (c.predicate s) names).1.check.length + 1) ∧
      (Guard.ofInstr i (c.predicate s) names).1.faultBlock ∈ (f.guard s).blocks ∧
      cont ∈ (f.guard s).blocks ∧
      cont.label = (Guard.ofInstr i (c.predicate s) names).1.contLabel ∧ cont.params = [] ∧
      cont.instrs[0]? = some { i with checked := true } ∧ At s f rest cont 1 := by
  obtain ⟨b, names, tail, blocks, inside, rfl, room⟩ := place
  rw [guardInstrs_candidate found] at blocks inside
  rw [guardTemps_cons, instrTemps_some found names] at room
  obtain ⟨rfl, rfl⟩ := List.cons.inj blocks
  obtain ⟨headInside, inside⟩ := List.cons_subset.mp inside
  obtain ⟨faultInside, inside⟩ := List.cons_subset.mp inside
  obtain ⟨cont, tail, after, label, params, kept⟩ :=
    guardInstrs_head s ((Guard.ofInstr i (c.predicate s) names).1.contBlock b []) rest
      (Guard.ofInstr i (c.predicate s) names).2
  refine ⟨b, names, cont, rfl, rfl, headInside, room.first, faultInside,
    inside (by rw [after]; exact List.mem_cons_self), label, params, ?_, ?_⟩
  · exact @getElem?_of_begins _ [] _ _ kept
  · exact ⟨_, _, tail, after, inside, rfl, room.rest (Guard.ofInstr_nextTemp i _ names)⟩

theorem At.start (labels : ((f.guard s).blocks.map Block.label).Nodup) (room : f.IdsFit s)
    {t : Block} (member : t ∈ f.blocks) : ∃ head, (f.guard s).blockLabelled? t.label = some head ∧
      head.params = t.params ∧ At s f t.instrs head 0 := by
  obtain ⟨start, head, tail, blocks, subset, params, found, enough⟩ :=
    Func.guard_target labels member
  exact ⟨head, found, params, _, start, tail, blocks, subset, rfl, enough room⟩

theorem At.entry (room : f.IdsFit s) {t : Block} {later : List Block} (blocks : f.blocks = t :: later) :
    ∃ head tail, (f.guard s).blocks = head :: tail ∧ At s f t.instrs head 0 := by
  have enough := ofFunc_hasRoom room
  rw [Func.instrs, blocks, List.flatMap_cons, guardTemps_append] at enough
  have pieces : (f.guard s).blocks =
      (guardInstrs s { t with instrs := [] } t.instrs (.ofFunc f)).1 ++
        (guardBlocks s later (guardInstrs s { t with instrs := [] } t.instrs (.ofFunc f)).2).1 := by
    change (guardBlocks s f.blocks (.ofFunc f)).1 = _
    rw [blocks]
    rfl
  obtain ⟨head, tail, first, _⟩ := guardInstrs_head s { t with instrs := [] } t.instrs (.ofFunc f)
  refine ⟨head, _, by rw [pieces, first]; rfl, _, _, tail, first, ?_, rfl, enough.first⟩
  rw [pieces]
  exact List.subset_append_left _ _

end At

/-! ### Effects -/

section Effect

variable {σ : Type}

/-- The same effect in both frames, where a jump leads to the first piece of its target. Only a
terminator leaves the block. -/
inductive SameEffect (s : MulStrategy) (p : Program) (f : Func) (i : Instr) :
    Effect σ → Effect σ → Prop
  | store (v : Value) (straight : i.op.isTerminator = false) :
    SameEffect s p f i (.store v) (.store v)
  | jump (t head : Block) (values : List Value) (member : t ∈ f.blocks)
    (found : (f.guard s).blockLabelled? t.label = some head) (params : head.params = t.params)
    (place : At s f t.instrs head 0) :
    SameEffect s p f i (.jump t values) (.jump head values)
  | enter (callee : Func) (args : List Value) (member : callee ∈ p.funcs)
    (straight : i.op.isTerminator = false) :
    SameEffect s p f i (.enter callee args) (.enter (callee.guard s) args)
  | handle (handler : Handler σ) (args : List Value) (straight : i.op.isTerminator = false) :
    SameEffect s p f i (.handle handler args) (.handle handler args)
  | leave (v : Value) : SameEffect s p f i (.leave v) (.leave v)

/-- The same effect, or the same cause of a trap. -/
inductive SameResult (s : MulStrategy) (p : Program) (f : Func) (i : Instr) :
    Except Cause (Effect σ) → Except Cause (Effect σ) → Prop
  | error (cause : Cause) : SameResult s p f i (.error cause) (.error cause)
  | ok {e e' : Effect σ} (same : SameEffect s p f i e e') : SameResult s p f i (.ok e) (.ok e')

variable {s : MulStrategy} {p p' : Program} {host : Host σ} {fr fr' : Frame} {i : Instr}

theorem SameResult.bind {f : Func} {α : Type} (x : Except Cause α)
    {g g' : α → Except Cause (Effect σ)} (same : ∀ a, SameResult s p f i (g a) (g' a)) :
    SameResult s p f i (x >>= g) (x >>= g') := by
  cases x with
  | error cause => exact .error cause
  | ok a => exact same a

theorem jump_mirror (mirrors : Mirrors s p fr fr') (typed : FuncTyped p fr.func)
    (room : fr.func.IdsFit s) {label : String} {t : Block} {args : List Operand}
    (target : fr.func.blockLabelled? label = some t) (count : args.length = t.params.length)
    (known : ∀ o ∈ args, Known fr.scope o) :
    SameResult s p fr.func i (jump fr label args : Except Cause (Effect σ)) (jump fr' label args) := by
  obtain ⟨member, rfl⟩ := mem_of_blockLabelled? target
  have labels := (Func.guard_labels (s := s) typed.labelled typed.labels).2
  obtain ⟨head, found, params, place⟩ := At.start labels room member
  have found' : fr'.func.blockLabelled? t.label = some head := by rw [mirrors.func, found]
  simp only [jump, target, found', params, count, ne_eq, not_true_eq_false, if_false]
  rw [readAll_mirror mirrors typed]
  · exact SameResult.bind _ fun values => .ok (.jump t head values member found params place)
  · intro pair inside
    exact known pair.2 (List.of_mem_zip inside).2

theorem call_mirror (guarded : GuardedBy s p p') (mirrors : Mirrors s p fr fr')
    (typed : FuncTyped p fr.func) (room : fr.func.IdsFit s) (straight : i.op.isTerminator = false)
    (known : ∀ o ∈ i.args, Known fr.scope o) :
    SameResult s p fr.func i (call p host fr i) (call p' host fr' i) := by
  simp only [call, guarded.funcNamed?]
  cases found : p.funcNamed? i.callee with
  | some callee =>
    simp only [Option.map_some]
    rw [readAll_mirror mirrors typed]
    · have member := List.mem_of_find?_eq_some found
      exact SameResult.bind _ fun args => .ok (.enter callee args member straight)
    · intro pair inside
      obtain ⟨⟨o, n⟩, member, rfl⟩ := List.mem_map.mp inside
      exact known o (List.fst_mem_of_mem_zipIdx member)
  | none =>
    simp only [Option.map_none]
    cases host.handler? i.callee with
    | none => exact .error _
    | some handler =>
      have types : i.args.map (fun o => (fr'.tyOf .i64 o, o)) =
          i.args.map (fun o => (fr.tyOf .i64 o, o)) :=
        List.map_congr_left fun o member => by
          rw [tyOf_mirror mirrors typed room (known o member)]
      simp only [types]
      rw [readAll_mirror mirrors typed]
      · exact SameResult.bind _ fun args => .ok (.handle handler args straight)
      · intro pair inside
        obtain ⟨o, member, rfl⟩ := List.mem_map.mp inside
        exact known o member

/-- An accepted instruction has the same effect in a frame and in its mirror. -/
theorem effect_mirror (guarded : GuardedBy s p p') (mirrors : Mirrors s p fr fr')
    (typed : FuncTyped p fr.func) (room : fr.func.IdsFit s)
    (admitted : Admitted ⟨p, fr.func, fr.scope⟩ i) :
    SameResult s p fr.func i (effect p host fr i) (effect p' host fr' i) := by
  have known := known_args admitted.typed
  have branch : ∀ (n : Nat) (label : String), i.labels[n]? = some label →
      SameResult s p fr.func i (jump fr label (i.argsTo n) : Except Cause (Effect σ))
        (jump fr' label (i.argsTo n)) := by
    intro n label successor
    obtain ⟨t, target, count, _⟩ := admitted.branches n label successor
    exact jump_mirror mirrors typed room target count (known_argsTo admitted.branches successor)
  cases admitted.typed with
  | arith op a b isOp args result =>
    have straight := (admitted.typed.straight result).1
    simp only [effect, isOp, args, readWord_mirror mirrors typed (known a (by simp [args])),
      readWord_mirror mirrors typed (known b (by simp [args]))]
    refine SameResult.bind _ fun x => SameResult.bind _ fun y => ?_
    cases op.onWords? i.ty x y with
    | none => exact .error _
    | some z => exact .ok (.store _ straight)
  | bitwise op a b isOp args result =>
    have straight := (admitted.typed.straight result).1
    simp only [effect, isOp, args, readWord_mirror mirrors typed (known a (by simp [args])),
      readWord_mirror mirrors typed (known b (by simp [args]))]
    exact SameResult.bind _ fun x => SameResult.bind _ fun y => .ok (.store _ straight)
  | compare op a b ta tb isOp args result =>
    have straight := (admitted.typed.straight result).1
    simp only [effect, isOp, args, tyOf_mirror mirrors typed room (known a (by simp [args])),
      tyOf_mirror mirrors typed room (known b (by simp [args])),
      readWord_mirror mirrors typed (known a (by simp [args])),
      readWord_mirror mirrors typed (known b (by simp [args]))]
    exact SameResult.bind _ fun x => SameResult.bind _ fun y => .ok (.store _ straight)
  | cast op a source isOp args result =>
    have straight := (admitted.typed.straight result).1
    simp only [effect, isOp, args, tyOf_mirror mirrors typed room (known a (by simp [args])),
      readWord_mirror mirrors typed (known a (by simp [args]))]
    exact SameResult.bind _ fun x => .ok (.store _ straight)
  | constStr name isOp args result labels text found =>
    have straight := (admitted.typed.straight result).1
    obtain ⟨g, same⟩ := Option.isSome_iff_exists.mp found
    simp only [effect, isOp, args, globalName, guarded.globalNamed? same]
    simp only at same
    simp only [same]
    exact .ok (.store _ straight)
  | call sig isOp =>
    have straight : i.op.isTerminator = false := by simp [isOp, Opcode.isTerminator, Opcode.shape]
    simp only [effect, isOp]
    exact call_mirror guarded mirrors typed room straight known
  | br isOp args result labels =>
    obtain ⟨label, only⟩ := List.length_eq_one_iff.mp labels
    simp only [effect, isOp, only]
    exact branch 0 label (by simp [only])
  | cbr a isOp args result labels condition =>
    simp only [effect, isOp, args, readWord_mirror mirrors typed (known a (by simp [args]))]
    refine SameResult.bind _ fun x => ?_
    cases successor : i.labels[if x = 0 then 1 else 0]? with
    | none => exact .error _
    | some label => exact branch _ label successor
  | ret isOp result labels count form operand =>
    cases args : i.args with
    | nil =>
      simp only [effect, isOp, args]
      exact .ok (.leave _)
    | cons a rest =>
      have ret : fr'.func.ret = fr.func.ret := by
        rw [mirrors.func]
        rfl
      simp only [effect, isOp, args, ret, read_mirror mirrors typed (known a (by simp [args]))]
      exact SameResult.bind _ fun v => .ok (.leave _)
  | trap isOp args =>
    simp only [effect, isOp]
    exact .error _

end Effect

end GuardedIL.Overflow
