import GuardedIL.Proofs.Refusal

/-!
# Sane arithmetic

The checker and the classifier of candidates each say for themselves which arithmetic makes sense. Both
are compared here with one list of conditions, `Sane`: the classifier finds fault with exactly what
misses one of them, and the checker asks for them and for labels and operand types besides. So an
accepted program has nothing malformed, and guarding it can only be refused for its names.
-/

namespace GuardedIL

open Overflow Typing

/-- Arithmetic of two operands with a result, at an integer type that the operation divides by its sign. -/
structure Sane (op : ArithOp) (i : Instr) : Prop where
  integer : i.ty.isInteger
  number : i.ty ≠ .i1
  operands : i.args.length = 2
  result : i.result.isSome
  signed : op.dividesSigned → i.ty.isSigned
  unsigned : op.dividesUnsigned → ¬ i.ty.isSigned

/-! ### Two judgements -/

theorem classify_malformed_iff {i : Instr} {op : ArithOp} (isOp : i.op = .arith op) :
    (∃ why, classify i = .malformed why) ↔ ¬ Sane op i := by
  unfold classify
  rw [isOp]
  dsimp only
  -- One case for each test of the classifier; behind the last of them nothing is malformed.
  split_ifs with ty count result signed unsigned marked
  · refine ⟨fun _ sane => ?_, fun _ => ⟨_, rfl⟩⟩
    exact ty.elim (fun other => other sane.integer) sane.number
  · exact ⟨fun _ sane => count sane.operands, fun _ => ⟨_, rfl⟩⟩
  · refine ⟨fun _ sane => ?_, fun _ => ⟨_, rfl⟩⟩
    have present := sane.result
    rw [Option.isNone_iff_eq_none.mp result] at present
    simp at present
  · exact ⟨fun _ sane => signed.2 (sane.signed signed.1), fun _ => ⟨_, rfl⟩⟩
  · exact ⟨fun _ sane => sane.unsigned unsigned.1 unsigned.2, fun _ => ⟨_, rfl⟩⟩
  all_goals
    have sane : Sane op i := by
      push Not at ty count signed unsigned
      exact ⟨ty.1, ty.2, count, Option.isSome_iff_ne_none.mpr (by simpa using result), signed,
        by simpa using unsigned⟩
  · simp [sane]
  · refine ⟨fun ⟨why, verdict⟩ => ?_, fun insane => absurd sane insane⟩
    split at verdict <;> simp at verdict

theorem checkInstr_arith_iff {c : Context} {i : Instr} {op : ArithOp} (isOp : i.op = .arith op) :
    checkInstr c i = .ok () ↔ Sane op i ∧ i.labels = [] ∧
      ∀ o ∈ i.args.take 2, c.scope.operandTy? i.ty o = some i.ty := by
  rw [checkInstr_iff]
  constructor
  · intro typed
    cases typed with
    | arith op' a b isOp' args result labels integer number signed unsigned left right =>
      obtain rfl : op' = op := by simpa [isOp] using isOp'.symm
      refine ⟨⟨integer, number, by simp [args], result, signed, unsigned⟩, labels, ?_⟩
      simp [args, left, right]
    | _ => simp_all
  · rintro ⟨sane, labels, operands⟩
    obtain ⟨a, b, args⟩ := List.length_eq_two.mp sane.operands
    have left := operands a (by simp [args])
    have right := operands b (by simp [args])
    exact .arith op a b isOp args sane.result labels sane.integer sane.number sane.signed sane.unsigned
      left right

theorem rejected_iff {c : Context} {i : Instr} :
    (∃ e, checkInstr c i = .error e) ↔ ¬ checkInstr c i = .ok () := by
  cases checkInstr c i <;> simp

theorem classify_malformed_arith {i : Instr} {why : Malformation} (verdict : classify i = .malformed why) :
    ∃ op, i.op = .arith op := by
  unfold classify at verdict
  split at verdict
  · rename_i op isOp
    exact ⟨op, isOp⟩
  · simp at verdict

/-! ### Accepted programs -/

theorem Typing.Typed.sane {c : Context} {i : Instr} (typed : Typed c i) (why : Malformation) :
    classify i ≠ .malformed why := by
  intro verdict
  obtain ⟨op, isOp⟩ := classify_malformed_arith verdict
  have insane := (classify_malformed_iff isOp).mp ⟨why, verdict⟩
  exact insane ((checkInstr_arith_iff isOp).mp (checkInstr_of_typed typed)).1

namespace Program

variable {p : Program}

theorem malformedSites_of_verify (accepted : p.verify = .ok ()) : p.malformedSites = [] := by
  have typed := (verify_iff p).mp accepted
  refine malformedSites_eq_nil.mpr fun i member => ?_
  obtain ⟨f, func, inside⟩ := List.mem_flatMap.mp member
  obtain ⟨b, block, instr⟩ := List.mem_flatMap.mp inside
  exact ((typed.funcs f func).admitted block instr).typed.sane

/-- A declaration that takes a name of the guards for something else, with the error that reports it. -/
inductive Conflict (p : Program) : GuardError → Prop
  | panicDefined (f : Func) (member : f ∈ p.funcs) (name : f.name = Host.panicName) :
    Conflict p .panicDefined
  | panicDeclared (e : Extern) (member : e ∈ p.externs) (name : e.name = Host.panicName)
    (other : ¬ (e.ret = .void ∧ e.params = [.str])) : Conflict p .panicDeclared
  | messageDefined (g : Global) (member : g ∈ p.globals) (name : g.name = messageGlobal)
    (other : ¬ (g.ty = .str ∧ g.init = overflowMessage)) : Conflict p .messageDefined

theorem conflict_of_panicConflict? {e : GuardError} (found : p.panicConflict? = some e) : p.Conflict e := by
  unfold panicConflict? at found
  split_ifs at found with defined declared message
  · obtain rfl := Option.some.inj found
    obtain ⟨f, member, name⟩ := List.find?_isSome.mp defined
    exact .panicDefined f member (by simpa using name)
  · obtain rfl := Option.some.inj found
    obtain ⟨x, first, other⟩ := (Option.any_eq_true _ _).mp declared
    have name := List.find?_some first
    refine .panicDeclared x (List.mem_of_find?_eq_some first) (by simpa using name) ?_
    intro same
    simp [panicExtern, same.1, same.2] at other
  · obtain rfl := Option.some.inj found
    obtain ⟨g, first, other⟩ := (Option.any_eq_true _ _).mp message
    have name := List.find?_some first
    refine .messageDefined g (List.mem_of_find?_eq_some first) (by simpa using name) ?_
    intro same
    simp [panicGlobal, same.1, same.2] at other

/-- Nothing is reported of an accepted program, and guarding it fails for names alone. Of an arithmetic
instruction without labels whose first operands have its type, the checker and the classifier say the
same. -/
theorem arithmetic_judged_alike :
    (∀ p : Program, p.verify = .ok () → p.malformedLog.entries = [] ∧
      ∀ o instrument e, p.guard o instrument = .error e → p.Conflict e) ∧
    ∀ (c : Context) (i : Instr) (op : ArithOp), i.op = .arith op → i.labels = [] →
      (∀ o ∈ i.args.take 2, c.scope.operandTy? i.ty o = some i.ty) →
      ((∃ e, checkInstr c i = .error e) ↔ ∃ why, classify i = .malformed why) := by
  refine ⟨fun p accepted => ?_, fun c i op isOp labels operands => ?_⟩
  · have sites := malformedSites_of_verify accepted
    refine ⟨by simp [malformedLog, sites], fun o instrument e refused => ?_⟩
    obtain ⟨_, _, conflict⟩ := (guard_error_of_sane sites).mp refused
    exact conflict_of_panicConflict? conflict
  · rw [rejected_iff, checkInstr_arith_iff isOp, classify_malformed_iff isOp]
    exact not_congr ⟨And.left, fun sane => ⟨sane, labels, operands⟩⟩

/-- `tripled` with a declaration of another type for the function that reports an overflow. -/
def retyped : Program :=
  { tripled with externs := [{ panicExtern with params := [.i64] }] }

def wrongQuotient : Instr :=
  { result := some 1, op := .arith .sdiv, ty := .u8, args := [.int 6, .int 3] }

theorem arithmetic_judged_alike_retyped :
    retyped.verify = .ok () ∧ retyped.malformedLog.entries = [] ∧ retyped.Conflict .panicDeclared ∧
    ((∃ e, checkInstr ⟨retyped, {}, []⟩ wrongQuotient = .error e) ↔
      ∃ why, classify wrongQuotient = .malformed why) ∧
    classify wrongQuotient = .malformed (.signedDivision .u8) := by
  have accepted : retyped.verify = .ok () := by decide +kernel
  have refused : retyped.guard {} true = .error .panicDeclared := by decide +kernel
  obtain ⟨programs, instrs⟩ := arithmetic_judged_alike
  obtain ⟨nothing, names⟩ := programs retyped accepted
  have operands : ∀ o ∈ wrongQuotient.args.take 2, Scope.operandTy? [] .u8 o = some .u8 := by decide
  exact ⟨accepted, nothing, names {} true _ refused,
    instrs ⟨retyped, {}, []⟩ wrongQuotient .sdiv rfl rfl operands, rfl⟩

end Program

end GuardedIL
