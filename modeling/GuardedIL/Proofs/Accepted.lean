import GuardedIL.Typing.Program
import Mathlib

/-!
# Accepted programs

The rules of typing as propositions: `Typed` has one rule for each family of opcodes, `Branches`
speaks of the successors, and blocks, functions and programs are put together from these. The
checker accepts exactly what the rules admit (`verify_iff`).
-/

namespace GuardedIL.Typing

/-! ### Checks that succeed -/

section Except

variable {ε : Type}

@[simp] theorem seq_ok {β : Type} {x : Except ε Unit} {f : Unit → Except ε β} {b : β} :
    (x >>= f) = .ok b ↔ x = .ok () ∧ f () = .ok b := by
  cases x with
  | error e => simp [bind, Except.bind]
  | ok u => simp [bind, Except.bind]

@[simp] theorem require_ok {condition : Bool} {e : ε} :
    require condition e = .ok () ↔ condition = true := by
  cases condition <;> simp [require]

@[simp] theorem mapError_ok {δ : Type} {x : Except ε Unit} {f : ε → δ} :
    x.mapError f = .ok () ↔ x = .ok () := by
  cases x <;> simp [Except.mapError]

theorem forM_ok {α : Type} {items : List α} {check : α → Except ε Unit} :
    items.forM check = .ok () ↔ ∀ item ∈ items, check item = .ok () := by
  induction items with
  | nil => simp [pure, Except.pure]
  | cons item rest ih =>
    rw [List.forM_eq_forM, List.forM_cons, seq_ok, ← List.forM_eq_forM, ih]
    simp

end Except

theorem operandTy_bind {s : Scope} {expected : Ty} {o : Operand} {f : Ty → Except InstrError Unit} :
    (operandTy s expected o >>= f) = .ok () ↔ ∃ ty, s.operandTy? expected o = some ty ∧ f ty = .ok () := by
  unfold operandTy
  cases s.operandTy? expected o <;> simp [bind, Except.bind]

@[simp] theorem checkOperand_ok {s : Scope} {expected : Ty} {mismatch : InstrError} {o : Operand} :
    checkOperand s expected mismatch o = .ok () ↔ s.operandTy? expected o = some expected := by
  rw [checkOperand, operandTy_bind]
  constructor
  · rintro ⟨ty, found, same⟩
    rw [found, of_decide_eq_true (require_ok.mp same)]
  · intro found
    exact ⟨expected, found, by simp⟩

/-! ### Instructions -/

/-- The rules for an instruction by itself. -/
inductive Typed (c : Context) (i : Instr) : Prop
  | arith (op : ArithOp) (a b : Operand) (isOp : i.op = .arith op) (args : i.args = [a, b])
      (result : i.result.isSome) (labels : i.labels = []) (integer : i.ty.isInteger)
      (number : i.ty ≠ .i1) (signed : op.dividesSigned → i.ty.isSigned)
      (unsigned : op.dividesUnsigned → ¬ i.ty.isSigned)
      (left : c.scope.operandTy? i.ty a = some i.ty) (right : c.scope.operandTy? i.ty b = some i.ty)
  | bitwise (op : BitOp) (a b : Operand) (isOp : i.op = .bitwise op) (args : i.args = [a, b])
      (result : i.result.isSome) (labels : i.labels = []) (integer : i.ty.isInteger)
      (left : c.scope.operandTy? i.ty a = some i.ty) (right : c.scope.operandTy? i.ty b = some i.ty)
  | compare (op : CmpOp) (a b : Operand) (ta tb : Ty) (isOp : i.op = .compare op)
      (args : i.args = [a, b]) (result : i.result.isSome) (labels : i.labels = [])
      (condition : i.ty = .i1) (left : c.scope.operandTy? .void a = some ta)
      (right : c.scope.operandTy? ta b = some tb)
      (common : (ta = .void ∧ (tb = .void ∨ tb.isInteger)) ∨ (ta.isInteger ∧ ta = tb))
  | cast (op : CastOp) (a : Operand) (source : Ty) (isOp : i.op = .cast op) (args : i.args = [a])
      (result : i.result.isSome) (labels : i.labels = [])
      (operand : c.scope.operandTy? i.ty a = some source) (target : i.ty.isInteger)
      (integer : source.isInteger)
      (width : if op = .trunc then i.ty.width < source.width else source.width < i.ty.width)
  | constStr (name : String) (isOp : i.op = .constStr) (args : i.args = [.global name])
      (result : i.result.isSome) (labels : i.labels = []) (text : i.ty = .str)
      (known : (c.program.globalNamed? name).isSome)
  | call (sig : Signature) (isOp : i.op = .call) (labels : i.labels = [])
      (known : c.program.signature? i.callee = some sig) (count : i.args.length = sig.params.length)
      (args : ∀ pair ∈ sig.params.zip i.args, c.scope.operandTy? pair.1 pair.2 = some pair.1)
      (result : i.result.isSome → i.ty = sig.ret ∧ sig.ret ≠ .void)
  | br (isOp : i.op = .br) (args : i.args = []) (result : i.result = none)
      (labels : i.labels.length = 1)
  | cbr (a : Operand) (isOp : i.op = .cbr) (args : i.args = [a]) (result : i.result = none)
      (labels : i.labels.length = 2) (condition : c.scope.operandTy? .i1 a = some .i1)
  | ret (isOp : i.op = .ret) (result : i.result = none) (labels : i.labels = [])
      (count : i.args.length ≤ 1) (form : c.func.ret = .void ↔ i.args = [])
      (operand : ∀ a ∈ i.args, c.scope.operandTy? c.func.ret a = some c.func.ret)
  | trap (isOp : i.op = .trap) (args : i.args = []) (result : i.result = none)
      (labels : i.labels = [])

theorem checkShape_ok {i : Instr} : checkShape i = .ok () ↔
    i.op.shape.minArgs ≤ i.args.length ∧ (∀ n ∈ i.op.shape.maxArgs, i.args.length ≤ n) ∧
    (i.op.shape.result = .required → i.result.isSome) ∧
    (i.op.shape.result = .forbidden → i.result.isNone) ∧
    i.labels.length = i.op.shape.successors := by
  simp only [checkShape, seq_ok, require_ok, decide_eq_true_eq, and_assoc]

theorem checkBinaryOperands_ok {s : Scope} {i : Instr} {a b : Operand} (args : i.args = [a, b]) :
    checkBinaryOperands s i = .ok () ↔
      s.operandTy? i.ty a = some i.ty ∧ s.operandTy? i.ty b = some i.ty := by
  simp [checkBinaryOperands, args]

theorem checkCompare_ok {s : Scope} {i : Instr} {a b : Operand} :
    checkCompare s i a b = .ok () ↔ i.ty = .i1 ∧ ∃ ta tb, s.operandTy? .void a = some ta ∧
      s.operandTy? ta b = some tb ∧
      ((ta = .void ∧ (tb = .void ∨ tb.isInteger)) ∨ (ta.isInteger ∧ ta = tb)) := by
  simp only [checkCompare, seq_ok, operandTy_bind, require_ok, decide_eq_true_eq, exists_and_left]
  refine and_congr_right fun _ => exists_congr fun ta => and_congr_right fun _ =>
    exists_congr fun tb => and_congr_right fun _ => ?_
  by_cases void : ta = .void
  · subst void
    simp [show Ty.void.isInteger = false from rfl]
  · simp [void]

theorem checkCast_ok {s : Scope} {op : CastOp} {i : Instr} {a : Operand} :
    checkCast s op i a = .ok () ↔ ∃ source, s.operandTy? i.ty a = some source ∧ i.ty.isInteger ∧
      source.isInteger ∧
      (if op = .trunc then i.ty.width < source.width else source.width < i.ty.width) := by
  simp only [checkCast, operandTy_bind, seq_ok, require_ok, decide_eq_true_eq, and_assoc]
  cases op <;> simp

theorem checkConstStr_ok {p : Program} {i : Instr} {a : Operand} :
    checkConstStr p i a = .ok () ↔
      ∃ name, a = .global name ∧ i.ty = .str ∧ (p.globalNamed? name).isSome := by
  cases a <;> simp [checkConstStr]

theorem checkCall_ok {c : Context} {i : Instr} :
    checkCall c i = .ok () ↔ ∃ sig, c.program.signature? i.callee = some sig ∧
      i.args.length = sig.params.length ∧
      (∀ pair ∈ sig.params.zip i.args, c.scope.operandTy? pair.1 pair.2 = some pair.1) ∧
      (i.result.isSome → i.ty = sig.ret ∧ sig.ret ≠ .void) := by
  unfold checkCall
  split
  next unknown => simp [unknown]
  next sig known =>
    simp only [known, seq_ok, require_ok, forM_ok, checkOperand_ok, decide_eq_true_eq,
      Option.some.injEq, exists_eq_left', imp_and]

theorem checkReturn_ok {c : Context} {i : Instr} :
    checkReturn c i = .ok () ↔ (c.func.ret = .void ↔ i.args = []) ∧
      ∀ a ∈ i.args, c.scope.operandTy? c.func.ret a = some c.func.ret := by
  simp only [checkReturn, seq_ok, require_ok, forM_ok, checkOperand_ok, List.isEmpty_iff,
    decide_eq_true_eq, eq_iff_iff]

theorem typed_of_checkInstr {c : Context} {i : Instr} (accepted : checkInstr c i = .ok ()) :
    Typed c i := by
  rw [checkInstr, seq_ok, checkShape_ok] at accepted
  obtain ⟨⟨minArgs, maxArgs, required, forbidden, labels⟩, rules⟩ := accepted
  cases isOp : i.op with
  | arith op =>
    simp [isOp, Opcode.shape] at minArgs maxArgs required labels
    obtain ⟨a, b, args⟩ := List.length_eq_two.mp (le_antisymm maxArgs minArgs)
    simp only [checkRules, isOp, checkArith, seq_ok, require_ok, decide_eq_true_eq,
      checkBinaryOperands_ok args] at rules
    obtain ⟨integer, number, signed, unsigned, left, right⟩ := rules
    exact .arith op a b isOp args required labels integer number signed unsigned left right
  | bitwise op =>
    simp [isOp, Opcode.shape] at minArgs maxArgs required labels
    obtain ⟨a, b, args⟩ := List.length_eq_two.mp (le_antisymm maxArgs minArgs)
    simp only [checkRules, isOp, checkBitwise, seq_ok, require_ok,
      checkBinaryOperands_ok args] at rules
    obtain ⟨integer, left, right⟩ := rules
    exact .bitwise op a b isOp args required labels integer left right
  | compare op =>
    simp [isOp, Opcode.shape] at minArgs maxArgs required labels
    obtain ⟨a, b, args⟩ := List.length_eq_two.mp (le_antisymm maxArgs minArgs)
    simp only [checkRules, isOp, args, checkCompare_ok] at rules
    obtain ⟨condition, ta, tb, left, right, common⟩ := rules
    exact .compare op a b ta tb isOp args required labels condition left right common
  | cast op =>
    simp [isOp, Opcode.shape] at minArgs maxArgs required labels
    obtain ⟨a, args⟩ := List.length_eq_one_iff.mp (le_antisymm maxArgs minArgs)
    simp only [checkRules, isOp, args, checkCast_ok] at rules
    obtain ⟨source, operand, target, integer, width⟩ := rules
    exact .cast op a source isOp args required labels operand target integer width
  | constStr =>
    simp [isOp, Opcode.shape] at minArgs maxArgs required labels
    obtain ⟨a, args⟩ := List.length_eq_one_iff.mp (le_antisymm maxArgs minArgs)
    simp only [checkRules, isOp, args, checkConstStr_ok] at rules
    obtain ⟨name, rfl, text, known⟩ := rules
    exact .constStr name isOp args required labels text known
  | call =>
    simp [isOp, Opcode.shape] at labels
    simp only [checkRules, isOp, checkCall_ok] at rules
    obtain ⟨sig, known, count, args, result⟩ := rules
    exact .call sig isOp labels known count args result
  | br =>
    simp [isOp, Opcode.shape] at maxArgs forbidden labels
    exact .br isOp maxArgs forbidden labels
  | cbr =>
    simp [isOp, Opcode.shape] at minArgs maxArgs forbidden labels
    obtain ⟨a, args⟩ := List.length_eq_one_iff.mp (le_antisymm maxArgs minArgs)
    simp only [checkRules, isOp, args, checkOperand_ok] at rules
    exact .cbr a isOp args forbidden labels rules
  | ret =>
    simp [isOp, Opcode.shape] at maxArgs forbidden labels
    simp only [checkRules, isOp, checkReturn_ok] at rules
    exact .ret isOp forbidden labels maxArgs rules.1 rules.2
  | trap =>
    simp [isOp, Opcode.shape] at maxArgs forbidden labels
    exact .trap isOp maxArgs forbidden labels

theorem checkInstr_of_typed {c : Context} {i : Instr} (typed : Typed c i) :
    checkInstr c i = .ok () := by
  rw [checkInstr, seq_ok, checkShape_ok]
  cases typed with
  | arith op a b isOp args result labels integer number signed unsigned left right =>
    refine ⟨by simp [isOp, args, result, labels, Opcode.shape], ?_⟩
    simp only [checkRules, isOp, checkArith, seq_ok, require_ok, decide_eq_true_eq,
      checkBinaryOperands_ok args]
    exact ⟨integer, number, signed, unsigned, left, right⟩
  | bitwise op a b isOp args result labels integer left right =>
    refine ⟨by simp [isOp, args, result, labels, Opcode.shape], ?_⟩
    simp only [checkRules, isOp, checkBitwise, seq_ok, require_ok, checkBinaryOperands_ok args]
    exact ⟨integer, left, right⟩
  | compare op a b ta tb isOp args result labels condition left right common =>
    refine ⟨by simp [isOp, args, result, labels, Opcode.shape], ?_⟩
    simp only [checkRules, isOp, args, checkCompare_ok]
    exact ⟨condition, ta, tb, left, right, common⟩
  | cast op a source isOp args result labels operand target integer width =>
    refine ⟨by simp [isOp, args, result, labels, Opcode.shape], ?_⟩
    simp only [checkRules, isOp, args, checkCast_ok]
    exact ⟨source, operand, target, integer, width⟩
  | constStr name isOp args result labels text known =>
    refine ⟨by simp [isOp, args, result, labels, Opcode.shape], ?_⟩
    simp only [checkRules, isOp, args, checkConstStr_ok]
    exact ⟨name, rfl, text, known⟩
  | call sig isOp labels known count args result =>
    refine ⟨by simp [isOp, labels, Opcode.shape], ?_⟩
    simp only [checkRules, isOp, checkCall_ok]
    exact ⟨sig, known, count, args, result⟩
  | br isOp args result labels =>
    exact ⟨by simp [isOp, args, result, labels, Opcode.shape], by simp [checkRules, isOp]⟩
  | cbr a isOp args result labels condition =>
    refine ⟨by simp [isOp, args, result, labels, Opcode.shape], ?_⟩
    simp only [checkRules, isOp, args, checkOperand_ok]
    exact condition
  | ret isOp result labels count form operand =>
    refine ⟨by simp [isOp, result, labels, count, Opcode.shape], ?_⟩
    simp only [checkRules, isOp, checkReturn_ok]
    exact ⟨form, operand⟩
  | trap isOp args result labels =>
    exact ⟨by simp [isOp, args, result, labels, Opcode.shape], by simp [checkRules, isOp]⟩

/-- The checker accepts an instruction exactly if a rule admits it. -/
theorem checkInstr_iff (c : Context) (i : Instr) : checkInstr c i = .ok () ↔ Typed c i :=
  ⟨typed_of_checkInstr, checkInstr_of_typed⟩

/-- Every successor exists and takes the arguments passed to it. -/
def Branches (c : Context) (i : Instr) : Prop :=
  ∀ (n : Nat) (label : String), i.labels[n]? = some label →
    ∃ target, c.func.blockLabelled? label = some target ∧
      (i.argsTo n).length = target.params.length ∧
      ∀ pair ∈ target.params.zip (i.argsTo n),
        c.scope.operandTy? pair.1.ty pair.2 = some pair.1.ty

theorem checkTarget_ok {c : Context} {i : Instr} {n : Nat} {label : String} :
    checkTarget c i n label = .ok () ↔ ∃ target, c.func.blockLabelled? label = some target ∧
      (i.argsTo n).length = target.params.length ∧
      ∀ pair ∈ target.params.zip (i.argsTo n),
        c.scope.operandTy? pair.1.ty pair.2 = some pair.1.ty := by
  unfold checkTarget
  split
  next unknown => simp [unknown]
  next target known =>
    simp only [known, seq_ok, require_ok, forM_ok, decide_eq_true_eq, Option.some.injEq,
      exists_eq_left']

theorem checkTargets_iff (c : Context) (i : Instr) : checkTargets c i = .ok () ↔ Branches c i := by
  simp only [checkTargets, forM_ok, checkTarget_ok, Branches]
  constructor
  · intro all n label known
    exact all (label, n) (List.mk_mem_zipIdx_iff_getElem?.mpr known)
  · rintro all ⟨label, n⟩ member
    exact all n label (List.mk_mem_zipIdx_iff_getElem?.mp member)

/-! ### Blocks, functions and programs -/

/-- An instruction that is typed and branches to existing blocks. -/
structure Admitted (c : Context) (i : Instr) : Prop where
  typed : Typed c i
  branches : Branches c i

/-- A block is a body without terminators and a terminator at its end. -/
inductive BlockTyped (c : Context) (b : Block) : Prop
  | intro (body : List Instr) (last : Instr) (instrs : b.instrs = body ++ [last])
      (terminator : last.op.isTerminator) (straight : ∀ i ∈ body, i.op.isTerminator = false)
      (admitted : ∀ i ∈ b.instrs, Admitted c i)

theorem checkPlaced_ok {c : Context} {last : Bool} {i : Instr} :
    checkPlaced c last i = .ok () ↔ (i.op.isTerminator → last) ∧ Admitted c i := by
  simp only [checkPlaced, seq_ok, require_ok, decide_eq_true_eq, checkInstr_iff, checkTargets_iff]
  exact and_congr_right fun _ => ⟨fun h => ⟨h.1, h.2⟩, fun h => ⟨h.1, h.2⟩⟩

theorem checkInstrs_ok {c : Context} {label : String} {body : List Instr} {last : Instr} :
    checkInstrs c label (body ++ [last]) = .ok () ↔
      (∀ i ∈ body, i.op.isTerminator = false) ∧ ∀ i ∈ body ++ [last], Admitted c i := by
  induction body with
  | nil => simp [checkInstrs, checkPlaced_ok]
  | cons i body ih =>
    rw [List.cons_append, checkInstrs, seq_ok, mapError_ok, checkPlaced_ok, ih]
    simp
    tauto

theorem checkBlock_iff (c : Context) (b : Block) : checkBlock c b = .ok () ↔ BlockTyped c b := by
  unfold checkBlock
  split
  next empty =>
    refine ⟨by simp, ?_⟩
    rintro ⟨body, last, instrs, -, -, -⟩
    simp [instrs] at empty
  next last isLast =>
    obtain ⟨body, instrs⟩ := List.getLast?_eq_some_iff.mp isLast
    rw [seq_ok, require_ok, instrs, checkInstrs_ok]
    constructor
    · rintro ⟨terminator, straight, admitted⟩
      exact ⟨body, last, instrs, terminator, straight, instrs ▸ admitted⟩
    · rintro ⟨body', last', instrs', terminator, straight, admitted⟩
      obtain ⟨rfl, same⟩ := List.append_inj' (instrs'.symm.trans instrs) rfl
      obtain rfl : last' = last := by simpa using same
      exact ⟨terminator, straight, instrs ▸ admitted⟩

theorem instrs_ne_nil {c : Context} {b : Block} (typed : BlockTyped c b) : b.instrs ≠ [] := by
  obtain ⟨body, last, instrs, _⟩ := typed
  simp [instrs]

theorem rest_ne_nil {c : Context} {b : Block} {ip : Nat} {i : Instr} {rest : List Instr}
    (typed : BlockTyped c b) (next : b.instrs.drop ip = i :: rest)
    (straight : i.op.isTerminator = false) : rest ≠ [] := by
  rintro rfl
  obtain ⟨body, last, instrs, terminator, _⟩ := typed
  have whole := List.take_append_drop ip b.instrs
  rw [next] at whole
  obtain ⟨_, same⟩ := List.append_inj' (whole.trans instrs) rfl
  obtain rfl : i = last := by simpa using same
  rw [straight] at terminator
  exact absurd terminator (by simp)

/-- Labels are distinct and not empty, and every temporary has one definition. -/
structure FuncTyped (p : Program) (f : Func) : Prop where
  nonempty : f.blocks ≠ []
  labelled : ∀ b ∈ f.blocks, b.label ≠ ""
  labels : (f.blocks.map Block.label).Nodup
  ids : (f.defs.map Def.id).Nodup
  blocks : ∀ b ∈ f.blocks, BlockTyped ⟨p, f, f.scope⟩ b

theorem FuncTyped.admitted {p : Program} {f : Func} (typed : FuncTyped p f) {b : Block}
    (block : b ∈ f.blocks) {i : Instr} (instr : i ∈ b.instrs) : Admitted ⟨p, f, f.scope⟩ i := by
  obtain ⟨_, _, _, _, _, all⟩ := typed.blocks b block
  exact all i instr

structure ProgramTyped (p : Program) : Prop where
  names : (p.externs.map Extern.name ++ p.funcs.map Func.name).Nodup
  globals : (p.globals.map Global.name).Nodup
  texts : ∀ g ∈ p.globals, g.ty = .str
  funcs : ∀ f ∈ p.funcs, FuncTyped p f

theorem checkLabels_ok {seen : List String} {blocks : List Block} :
    checkLabels seen blocks = .ok () ↔ (∀ b ∈ blocks, b.label ≠ "") ∧
      (blocks.map Block.label).Nodup ∧ ∀ b ∈ blocks, b.label ∉ seen := by
  induction blocks generalizing seen with
  | nil => simp [checkLabels]
  | cons b rest ih =>
    simp only [checkLabels, seq_ok, require_ok, decide_eq_true_eq, ih, List.mem_cons, not_or,
      forall_eq_or_imp, List.map_cons, List.nodup_cons, List.mem_map, not_exists, not_and]
    constructor
    · rintro ⟨labelled, fresh, rest, distinct, apart⟩
      exact ⟨⟨labelled, rest⟩, ⟨fun x member => (apart x member).1, distinct⟩, fresh,
        fun x member => (apart x member).2⟩
    · rintro ⟨⟨labelled, rest⟩, ⟨apart, distinct⟩, fresh, old⟩
      exact ⟨labelled, fresh, rest, distinct, fun x member => ⟨apart x member, old x member⟩⟩

theorem contains_iff {s : Scope} {id : TempId} : s.contains id = true ↔ id ∈ s.map Prod.fst := by
  induction s with
  | nil => simp [Scope.contains, Scope.ty?]
  | cons entry rest ih =>
    obtain ⟨other, ty⟩ := entry
    simp only [Scope.contains, Scope.ty?, List.lookup_cons] at ih ⊢
    by_cases same : id = other
    · simp [same]
    · have differ : (id == other) = false := by simpa using same
      simp only [differ, ih, List.map_cons, List.mem_cons, same, false_or]

/-- Where no temporary repeats, the scope says of each what its definition says. -/
theorem ty?_eq_some {s : Scope} (distinct : (s.map Prod.fst).Nodup) {id : TempId} {ty : Ty} :
    s.ty? id = some ty ↔ (id, ty) ∈ s := by
  induction s with
  | nil => simp [Scope.ty?]
  | cons entry rest ih =>
    obtain ⟨other, ty'⟩ := entry
    simp only [List.map_cons, List.nodup_cons] at distinct
    simp only [Scope.ty?, List.lookup_cons] at ih ⊢
    by_cases same : id = other
    · subst same
      have absent : (id, ty) ∉ rest := fun member =>
        distinct.1 (List.mem_map_of_mem (f := Prod.fst) member)
      simp [absent, eq_comm]
    · have differ : (id == other) = false := by simpa using same
      simp only [differ, ih distinct.2, List.mem_cons, Prod.mk.injEq, same, false_and, false_or]

theorem scope_ty? {f : Func} (distinct : (f.defs.map Def.id).Nodup) {id : TempId} {ty : Ty} :
    f.scope.ty? id = some ty ↔ ∃ d ∈ f.defs, d.id = id ∧ d.ty = ty := by
  have ids : (f.scope.map Prod.fst).Nodup := by
    rw [Func.scope, List.map_reverse, List.nodup_reverse, List.map_map]
    exact distinct
  rw [ty?_eq_some ids, Func.scope, List.mem_reverse, List.mem_map]
  simp only [Prod.mk.injEq]

theorem collect_spec {s : Scope} {ds : List Def} :
    ((Scope.collect s ds).2 = none ↔
      (ds.map Def.id).Nodup ∧ ∀ d ∈ ds, d.id ∉ s.map Prod.fst) ∧
    ((Scope.collect s ds).2 = none →
      (Scope.collect s ds).1 = (ds.map fun d => (d.id, d.ty)).reverse ++ s) := by
  induction ds generalizing s with
  | nil => simp [Scope.collect]
  | cons d ds ih =>
    by_cases known : s.contains d.id = true
    · have member := contains_iff.mp known
      simp only [Scope.collect, known, if_true]
      refine ⟨⟨by simp, ?_⟩, by simp⟩
      rintro ⟨-, fresh⟩
      exact (fresh d List.mem_cons_self member).elim
    · have fresh : d.id ∉ s.map Prod.fst := fun member => known (contains_iff.mpr member)
      obtain ⟨distinct, scope⟩ := @ih ((d.id, d.ty) :: s)
      simp only [Scope.collect, known, Bool.false_eq_true, if_false]
      refine ⟨?_, ?_⟩
      · rw [distinct]
        simp only [List.map_cons, List.nodup_cons, List.mem_map, List.mem_cons, not_or,
          forall_eq_or_imp]
        constructor
        · rintro ⟨rest, apart⟩
          refine ⟨⟨?_, rest⟩, by simpa using fresh, fun x member => (apart x member).2⟩
          rintro ⟨x, member, same⟩
          exact (apart x member).1 same
        · rintro ⟨⟨apart, rest⟩, -, old⟩
          exact ⟨rest, fun x member => ⟨fun same => apart ⟨x, member, same⟩, old x member⟩⟩
      · intro accepted
        rw [scope accepted]
        simp

theorem checkFunc_iff (p : Program) (f : Func) : p.checkFunc f = .ok () ↔ FuncTyped p f := by
  obtain ⟨distinct, scope⟩ := @collect_spec [] f.defs
  simp only [List.map_nil, List.not_mem_nil, not_false_eq_true, implies_true, and_true,
    List.append_nil] at distinct scope
  rw [Program.checkFunc, seq_ok, require_ok, seq_ok, checkLabels_ok, Func.collect]
  cases repeated : (Scope.collect [] f.defs).2 with
  | some d =>
    simp only [repeated, Option.map_some]
    refine ⟨by simp, fun typed => ?_⟩
    rw [distinct.mpr typed.ids] at repeated
    exact absurd repeated (by simp)
  | none =>
    simp only [repeated, Option.map_none, scope repeated, forM_ok, checkBlock_iff]
    constructor
    · rintro ⟨nonempty, ⟨labelled, labels, -⟩, blocks⟩
      exact ⟨by simpa using nonempty, labelled, labels, distinct.mp repeated, blocks⟩
    · intro typed
      exact ⟨by simpa using typed.nonempty, ⟨typed.labelled, typed.labels, by simp⟩, typed.blocks⟩

theorem firstRepeated_none {α : Type} {name : α → String} {seen : List String} {items : List α} :
    firstRepeated? name seen items = none ↔
      (items.map name).Nodup ∧ ∀ x ∈ items, name x ∉ seen := by
  induction items generalizing seen with
  | nil => simp [firstRepeated?]
  | cons x rest ih =>
    by_cases known : name x ∈ seen
    · simp [firstRepeated?, known]
    · simp only [firstRepeated?, known, if_false, ih, List.mem_cons, not_or, List.map_cons,
        List.nodup_cons, List.mem_map, not_exists, not_and, forall_eq_or_imp, not_false_eq_true,
        true_and]
      constructor
      · rintro ⟨distinct, apart⟩
        exact ⟨⟨fun y member => (apart y member).1, distinct⟩, fun y member => (apart y member).2⟩
      · rintro ⟨⟨apart, distinct⟩, old⟩
        exact ⟨distinct, fun y member => ⟨apart y member, old y member⟩⟩

theorem checkNames_ok {p : Program} : p.checkNames = .ok () ↔
    (p.externs.map Extern.name ++ p.funcs.map Func.name).Nodup := by
  have names : (p.externs.map Extern.name ++ p.funcs.map Func.name).Nodup ↔
      firstRepeated? Extern.name [] p.externs = none ∧
      firstRepeated? Func.name (p.externs.map Extern.name) p.funcs = none := by
    simp only [firstRepeated_none, List.nodup_append, List.not_mem_nil, not_false_eq_true,
      implies_true, and_true]
    refine and_congr_right fun _ => and_congr_right fun _ => ?_
    constructor
    · intro apart f member known
      exact apart _ known _ (List.mem_map_of_mem member) rfl
    · intro apart name known name' member same
      obtain ⟨f, isFunc, rfl⟩ := List.mem_map.mp member
      exact apart f isFunc (same ▸ known)
  rw [names, Program.checkNames]
  cases firstRepeated? Extern.name [] p.externs <;>
    cases firstRepeated? Func.name (p.externs.map Extern.name) p.funcs <;>
    simp [bind, Except.bind]

theorem checkGlobals_ok {seen : List String} {globals : List Global} :
    Program.checkGlobals seen globals = .ok () ↔ (∀ g ∈ globals, g.ty = .str) ∧
      (globals.map Global.name).Nodup ∧ ∀ g ∈ globals, g.name ∉ seen := by
  induction globals generalizing seen with
  | nil => simp [Program.checkGlobals]
  | cons g rest ih =>
    simp only [Program.checkGlobals, seq_ok, require_ok, decide_eq_true_eq, ih, List.mem_cons,
      not_or, forall_eq_or_imp, List.map_cons, List.nodup_cons, List.mem_map, not_exists, not_and]
    constructor
    · rintro ⟨fresh, text, rest, distinct, apart⟩
      exact ⟨⟨text, rest⟩, ⟨fun x member => (apart x member).1, distinct⟩, fresh,
        fun x member => (apart x member).2⟩
    · rintro ⟨⟨text, rest⟩, ⟨apart, distinct⟩, fresh, old⟩
      exact ⟨fresh, text, rest, distinct, fun x member => ⟨apart x member, old x member⟩⟩

/-- The checker accepts a program exactly if the rules admit it. -/
theorem verify_iff (p : Program) : p.verify = .ok () ↔ ProgramTyped p := by
  simp only [Program.verify, seq_ok, forM_ok, mapError_ok, checkFunc_iff, checkNames_ok,
    checkGlobals_ok, List.not_mem_nil, not_false_eq_true, implies_true, and_true]
  constructor
  · rintro ⟨names, ⟨texts, globals⟩, funcs⟩
    exact ⟨names, globals, texts, funcs⟩
  · rintro ⟨names, globals, texts, funcs⟩
    exact ⟨names, ⟨texts, globals⟩, funcs⟩

end GuardedIL.Typing
