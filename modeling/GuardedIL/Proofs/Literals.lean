import GuardedIL.Proofs.Soundness

/-!
# Literals and the registers that stand for them

The checker gives every literal a type: that of its place, in a comparison that of the other operand, and
`i1` if it is a boolean. The machine chooses the type of a read by its own rules. Their agreement is stated
by a replacement: a temporary of the checker's type that holds the literal, normalised, can take its place.
It can in every instruction except two: a sign extension of `true`, and a comparison between a boolean and
an operand without a type of its own, which the machine makes at 64 bits.
-/

namespace GuardedIL

/-- The word of a numeric literal. -/
def Operand.word? : Operand → Option Int64
  | .int w => some w
  | .bool b => some (if b then 1 else 0)
  | _ => none

/-- Where an operand of an instruction stands: among its arguments, or among those to a successor. -/
inductive Position where
  | arg (n : Nat)
  | target (k n : Nat)

def Instr.operandAt? (i : Instr) : Position → Option Operand
  | .arg n => i.args[n]?
  | .target k n => (i.argsTo k)[n]?

def Instr.withOperand (i : Instr) (o : Operand) : Position → Instr
  | .arg n => { i with args := i.args.set n o }
  | .target k n => { i with labelArgs := i.labelArgs.modify k (·.set n o) }

/-- The type the checker gives to the operand at a position; in a comparison an integer literal takes that
of the other side. -/
def Typing.assignedTy? (c : Context) (i : Instr) : Position → Option Ty
  | .arg n =>
    match i.op, i.args with
    | .arith _, _ | .bitwise _, _ | .cast _, _ => i.args[n]?.bind (c.scope.operandTy? i.ty)
    | .compare _, [a, b] => do
      let left ← c.scope.operandTy? .void a
      let right ← c.scope.operandTy? left b
      return if n = 0 ∧ left ≠ .void then left else right
    | .cbr, _ => i.args[n]?.bind (c.scope.operandTy? .i1)
    | .ret, _ => i.args[n]?.bind (c.scope.operandTy? c.func.ret)
    | _, _ => none
  | .target k n => do
    let label ← i.labels[k]?
    let target ← c.func.blockLabelled? label
    let q ← target.params[n]?
    let o ← (i.argsTo k)[n]?
    c.scope.operandTy? q.ty o

/-- The instructions that read a literal at the checker's type. -/
def Instr.Faithful (fr : Frame) (i : Instr) : Prop :=
  match i.op, i.args with
  | .cast .sext, [.bool b] => b = false
  | .compare op, [a, b] =>
    fr.tyOf .void a = .void → fr.tyOf .void b = .void →
      ∀ x y, fr.readWord .i64 a = .ok x → fr.readWord .i64 b = .ok y →
        op.holds .i64 x y = op.holds .i1 (Ty.i1.normalize x) (Ty.i1.normalize y)
  | _, _ => True

namespace Machine

open Typing Overflow

/-- The second frame has all temporaries of the first, and the temporary `id` that holds `v`. -/
structure Adds (fr fr' : Frame) (id : TempId) (ty : Ty) (v : Value) : Prop where
  func : fr'.func = fr.func
  kept : ∀ id' ty', fr.scope.ty? id' = some ty' →
    fr'.scope.ty? id' = some ty' ∧ fr'.regs[id'.toNat]? = fr.regs[id'.toNat]?
  declared : fr'.scope.ty? id = some ty
  register : fr'.regs[id.toNat]? = some v

theorem adds_push {p : Program} {fr : Frame} (rooted : Rooted p fr) (typed : FuncTyped p fr.func) {id : TempId}
    (next : id.toNat = fr.regs.size) (ty : Ty) (v : Value) :
    Adds fr { fr with scope := (id, ty) :: fr.scope, regs := fr.regs.push v } id ty v where
  func := rfl
  kept := by
    intro id' ty' declared
    have inside : id'.toNat < fr.regs.size := rooted.lt_of_known typed fun _ same => by
      obtain rfl := Operand.temp.inj same
      exact ⟨ty', declared⟩
    have other : id' ≠ id := by
      rintro rfl
      omega
    refine ⟨?_, Array.getElem?_push_lt inside |>.trans (Array.getElem?_eq_getElem inside).symm⟩
    simpa [Scope.ty?, List.lookup_cons, beq_eq_false_iff_ne.mpr other] using declared
  declared := by simp [Scope.ty?]
  register := by simp [next]

/-! ### Reads -/

/-- A word is read at a type as it is at 64 bits, and then normalised. -/
theorem readWord_eq_map (fr : Frame) (ty : Ty) (o : Operand) :
    fr.readWord ty o = (fr.readWord .i64 o).map ty.normalize := by
  have wide : ∀ w, Ty.i64.normalize w = w := fun _ => rfl
  cases o with
  | temp id =>
    simp only [Frame.readWord, Frame.read]
    cases fr.regs[id.toNat]? <;> simp [Except.map, wide]
  | _ => simp [Frame.readWord, Frame.read, Except.map, Value.word, Ty.normalize_normalize, wide]

/-- An operand without a type of its own is read at any type that is asked for. -/
theorem tyOf_cases (fr : Frame) (o : Operand) :
    (∀ t, fr.tyOf t o = t) ∨
      ∃ ty, ty ≠ .void ∧ (∀ t, fr.tyOf t o = ty) ∧ ∀ t, fr.scope.operandTy? t o = some ty := by
  cases o with
  | temp id =>
    simp only [Frame.tyOf, Scope.operandTy?]
    cases found : fr.scope.ty? id with
    | none => exact .inl fun _ => rfl
    | some ty =>
      by_cases void : ty = .void
      · subst void
        exact .inl fun _ => rfl
      · refine .inr ⟨ty, void, fun t => ?_, fun _ => rfl⟩
        simp only
  | _ => exact .inl fun _ => rfl

/-!
### The type of a comparison

An operand with a type of its own has the type of the literal that is compared with it. If there is none,
one of the two is a boolean.
-/

section Compare

variable {fr : Frame} {a b : Operand} {ta tb ty : Ty} {n : Nat}
  (left : fr.scope.operandTy? .void a = some ta) (right : fr.scope.operandTy? ta b = some tb)
  (common : (ta = .void ∧ (tb = .void ∨ tb.isInteger)) ∨ (ta.isInteger ∧ ta = tb))
  (assigned : (if n = 0 ∧ ta ≠ .void then ta else tb) = ty)
include left right common assigned

theorem own_ty : ((∀ t, fr.tyOf t a = t) ∨ ∀ t, fr.tyOf t a = ty) ∧
    ((∀ t, fr.tyOf t b = t) ∨ ∀ t, fr.tyOf t b = ty) := by
  constructor
  · rcases tyOf_cases fr a with none | ⟨own, real, same, typed⟩
    · exact .inl none
    · obtain rfl := Option.some.inj (left.symm.trans (typed .void))
      refine .inr fun t => (same t).trans ?_
      rcases common with ⟨void, _⟩ | ⟨_, rfl⟩
      · exact absurd void real
      · rwa [ite_self] at assigned
  · rcases tyOf_cases fr b with none | ⟨own, real, same, typed⟩
    · exact .inl none
    · obtain rfl := Option.some.inj (right.symm.trans (typed ta))
      refine .inr fun t => (same t).trans ?_
      rcases common with ⟨rfl, _⟩ | ⟨_, rfl⟩
      · simpa using assigned
      · rwa [ite_self] at assigned

omit left right common assigned in
theorem i1_of_untyped {o : Operand} (untyped : ∀ t, fr.tyOf t o = t)
    (typed : fr.scope.operandTy? .void o = some ty) (integer : ty.isInteger) : ty = .i1 := by
  cases o with
  | temp id =>
    change fr.scope.ty? id = some ty at typed
    have real : ty ≠ .void := by
      rintro rfl
      exact absurd integer (by decide)
    -- A temporary of another type would be read at that type.
    obtain rfl : ty = .void := (tyOf_temp typed real).symm.trans (untyped .void)
    exact absurd rfl real
  | bool b => exact (Option.some.inj typed).symm
  | _ =>
    obtain rfl := Option.some.inj typed
    exact absurd integer (by decide)

theorem i1_of_compared (integer : ty.isInteger) (untypedA : ∀ t, fr.tyOf t a = t)
    (untypedB : ∀ t, fr.tyOf t b = t) : ty = .i1 := by
  rcases common with ⟨rfl, _⟩ | ⟨_, rfl⟩
  · obtain rfl : tb = ty := by simpa using assigned
    exact i1_of_untyped untypedB right integer
  · rw [ite_self] at assigned
    subst assigned
    exact i1_of_untyped untypedA left integer

end Compare

theorem stored_truth_iff {σ : Type} (u v : Bool) :
    (pure (.store (.int (if u then 1 else 0))) : Except Cause (Effect σ)) =
      pure (.store (.int (if v then 1 else 0))) ↔ v = u := by
  cases u <;> cases v <;> simp [pure, Except.pure]

theorem cast_truth_iff {op : CastOp} {ty : Ty} (integer : ty.isInteger)
    (width : if op = .trunc then ty.width < Ty.i1.width else Ty.i1.width < ty.width) (b : Bool) :
    op.apply .i1 ty (Ty.i1.normalize (if b then 1 else 0)) =
      op.apply ty ty (ty.normalize (if b then 1 else 0)) ↔ (op = .sext → b = false) := by
  cases ty <;> cases op <;> cases b <;> revert integer width <;> decide

/-! ### Replacing a literal -/

section Replace

variable {σ : Type} {p : Program} {fr fr' : Frame} {o : Operand} {w : Int64} {id : TempId} {ty : Ty}
  (adds : Adds fr fr' id ty (.int (ty.normalize w)))
include adds

theorem read_kept {o : Operand} (known : Known fr.scope o) (t : Ty) : fr'.read t o = fr.read t o := by
  cases o with
  | temp id' =>
    obtain ⟨ty', declared⟩ := known id' rfl
    simp only [Frame.read, (adds.kept id' ty' declared).2]
  | _ => rfl

theorem readWord_kept {o : Operand} (known : Known fr.scope o) (t : Ty) :
    fr'.readWord t o = fr.readWord t o := by
  rw [Frame.readWord, read_kept adds known, Frame.readWord]

theorem tyOf_kept {o : Operand} (known : Known fr.scope o) (t : Ty) : fr'.tyOf t o = fr.tyOf t o := by
  cases o with
  | temp id' =>
    obtain ⟨ty', declared⟩ := known id' rfl
    simp only [Frame.tyOf, (adds.kept id' ty' declared).1, declared]
  | _ => rfl

theorem read_replaced (literal : o.word? = some w) : fr'.read ty (.temp id) = fr.read ty o := by
  have register : fr'.read ty (.temp id) = .ok (.int (ty.normalize w)) := by
    simp only [Frame.read, adds.register]
  rw [register]
  cases o with
  | int _ | bool _ =>
    obtain rfl := Option.some.inj literal
    rfl
  | _ => simp [Operand.word?] at literal

theorem readWord_replaced (literal : o.word? = some w) : fr'.readWord ty (.temp id) = fr.readWord ty o := by
  rw [Frame.readWord, read_replaced adds literal, Frame.readWord]

theorem readAll_kept {operands : List Operand} (known : ∀ o ∈ operands, Known fr.scope o) (tys : List Ty) :
    fr'.readAll (tys.zip operands) = fr.readAll (tys.zip operands) :=
  readAll_congr (List.forall₂_same.mpr fun _ member => read_kept adds (known _ (List.of_mem_zip member).2) _)

theorem readAll_replaced (literal : o.word? = some w) {operands : List Operand}
    (known : ∀ o ∈ operands, Known fr.scope o) {tys : List Ty} {n : Nat} (wanted : tys[n]? = some ty)
    (operand : operands[n]? = some o) :
    fr'.readAll (tys.zip (operands.set n (.temp id))) = fr.readAll (tys.zip operands) := by
  refine readAll_congr (List.forall₂_iff_get.mpr ⟨by simp, fun m inside _ => ?_⟩)
  simp only [List.get_eq_getElem, List.getElem_zip, List.getElem_set]
  by_cases here : n = m
  · subst here
    obtain ⟨_, rfl⟩ := List.getElem?_eq_some_iff.mp wanted
    obtain ⟨_, rfl⟩ := List.getElem?_eq_some_iff.mp operand
    rw [if_pos rfl]
    exact read_replaced adds literal
  · rw [if_neg here]
    exact read_kept adds (known _ (List.getElem_mem _)) _

/-! ### Branches -/

omit adds in
theorem argsTo_target (i : Instr) (o : Operand) (k m n : Nat) :
    (i.withOperand o (.target k m)).argsTo n = if k = n then (i.argsTo n).set m o else i.argsTo n := by
  unfold Instr.argsTo Instr.withOperand
  simp only [List.getD_eq_getElem?_getD, List.getElem?_modify]
  split
  · cases i.labelArgs[n]? <;> rfl
  · cases i.labelArgs[n]? <;> rfl

theorem jump_kept {args : List Operand} (known : ∀ o ∈ args, Known fr.scope o) (label : String) :
    (jump fr' label args : Except Cause (Effect σ)) = jump fr label args := by
  simp only [jump, adds.func, readAll_kept adds known]

theorem jump_replaced (literal : o.word? = some w) {i : Instr}
    (branches : Branches ⟨p, fr.func, fr.scope⟩ i) {k m : Nat} (operand : (i.argsTo k)[m]? = some o)
    (assigned : assignedTy? ⟨p, fr.func, fr.scope⟩ i (.target k m) = some ty) {n : Nat} {label : String}
    (successor : i.labels[n]? = some label) :
    (jump fr' label ((i.withOperand (.temp id) (.target k m)).argsTo n) : Except Cause (Effect σ)) =
      jump fr label (i.argsTo n) := by
  have known := known_argsTo branches successor
  rw [argsTo_target]
  by_cases here : k = n
  · subst here
    obtain ⟨t, target, count, typed⟩ := branches k label successor
    obtain ⟨q, param, own⟩ : ∃ q, t.params[m]? = some q ∧ fr.scope.operandTy? q.ty o = some ty := by
      simpa [assignedTy?, successor, target, operand, Option.bind_eq_some_iff] using assigned
    have pair : (t.params.zip (i.argsTo k))[m]? = some (q, o) :=
      List.getElem?_zip_eq_some.mpr ⟨param, operand⟩
    obtain rfl := Option.some.inj (own.symm.trans (typed _ (List.mem_of_getElem? pair)))
    have wanted : (t.params.map (·.ty))[m]? = some q.ty := by simp [param]
    have values := readAll_replaced adds literal known wanted operand
    simp only [jump, adds.func, target, if_true, List.length_set, values]
  · rw [if_neg here, jump_kept adds known]

/-! ### Two operands -/

theorem operands_replaced (literal : o.word? = some w) {a b : Operand} (left : Known fr.scope a)
    (right : Known fr.scope b) {n : Nat} (operand : [a, b][n]? = some o) :
    ∃ a' b', [a, b].set n (.temp id) = [a', b'] ∧ fr'.readWord ty a' = fr.readWord ty a ∧
      fr'.readWord ty b' = fr.readWord ty b ∧ (a' = .temp id ∨ a' = a ∧ b' = .temp id) := by
  match n, operand with
  | 0, operand =>
    obtain rfl := Option.some.inj operand
    exact ⟨.temp id, b, rfl, readWord_replaced adds literal, readWord_kept adds right ty, .inl rfl⟩
  | 1, operand =>
    obtain rfl := Option.some.inj operand
    exact ⟨a, .temp id, rfl, readWord_kept adds left ty, readWord_replaced adds literal, .inr ⟨rfl, rfl⟩⟩

theorem compare_replaced (literal : o.word? = some w) (host : Host σ) {i : Instr} {op : CmpOp}
    {a b : Operand} {ta tb : Ty} {n : Nat} (isOp : i.op = .compare op) (args : i.args = [a, b])
    (left : fr.scope.operandTy? .void a = some ta) (right : fr.scope.operandTy? ta b = some tb)
    (common : (ta = .void ∧ (tb = .void ∨ tb.isInteger)) ∨ (ta.isInteger ∧ ta = tb))
    (operand : [a, b][n]? = some o) (assigned : (if n = 0 ∧ ta ≠ .void then ta else tb) = ty)
    (integer : ty.isInteger) :
    effect p host fr' (i.withOperand (.temp id) (.arg n)) = effect p host fr i ↔ i.Faithful fr := by
  have real : ty ≠ .void := by
    rintro rfl
    exact absurd integer (by decide)
  obtain ⟨ownA, ownB⟩ := own_ty left right common assigned
  obtain ⟨a', b', args', readA, readB, place⟩ := operands_replaced adds literal (known_of_operandTy? left)
    (known_of_operandTy? right) operand
  have at_ty : fr'.tyOf (fr'.tyOf .i64 b') a' = ty := by
    rcases place with rfl | ⟨rfl, rfl⟩
    · exact tyOf_temp adds.declared real
    · rw [tyOf_temp adds.declared real, tyOf_kept adds (known_of_operandTy? left)]
      rcases ownA with none | own
      · exact none ty
      · exact own ty
  have replaced : effect p host fr' (i.withOperand (.temp id) (.arg n)) = (do
      let x ← fr.readWord ty a
      let y ← fr.readWord ty b
      return .store (.int (if op.holds ty x y then 1 else 0))) := by
    simp only [effect, Instr.withOperand, isOp, args, args', at_ty, readA, readB]
  rw [replaced]
  simp only [effect, isOp, args, Instr.Faithful]
  rcases ownA with none | own
  · rcases ownB with none' | own
    · -- Neither operand has a type, so the machine compares at 64 bits what the checker takes as `i1`.
      obtain rfl := i1_of_compared left right common assigned integer none none'
      rw [none, none', none, none', readWord_eq_map fr .i1 a, readWord_eq_map fr .i1 b]
      cases fr.readWord .i64 a with
      | error cause => simp [Except.map, bind, Except.bind]
      | ok x =>
        cases fr.readWord .i64 b with
        | error cause => simp [Except.map, bind, Except.bind]
        | ok y =>
          simp only [Except.map, ok_bind, Except.ok.injEq, forall_const]
          refine (stored_truth_iff _ _).trans ⟨?_, fun all => all x y rfl rfl⟩
          rintro same _ _ rfl rfl
          exact same
    · rw [own .i64, none ty]
      exact iff_of_true rfl fun _ void => absurd ((own .void).symm.trans void) real
  · rw [own]
    exact iff_of_true rfl fun void => absurd ((own .void).symm.trans void) real

theorem cast_replaced (literal : o.word? = some w) (host : Host σ) {i : Instr} {op : CastOp} {a : Operand}
    {n : Nat} (isOp : i.op = .cast op) (args : i.args = [a]) (source : fr.scope.operandTy? i.ty a = some ty)
    (target : i.ty.isInteger)
    (width : if op = .trunc then i.ty.width < ty.width else ty.width < i.ty.width)
    (operand : [a][n]? = some o) :
    effect p host fr' (i.withOperand (.temp id) (.arg n)) = effect p host fr i ↔ i.Faithful fr := by
  obtain ⟨rfl, rfl⟩ : n = 0 ∧ a = o := by simpa [List.getElem?_singleton] using operand
  cases a with
  | bool b =>
    obtain rfl := Option.some.inj source
    have at_i1 : fr'.tyOf i.ty (.temp id) = .i1 := tyOf_temp adds.declared (by decide)
    have register : fr'.readWord .i1 (.temp id) = .ok (Ty.i1.normalize (if b then 1 else 0)) := by
      rw [readWord_replaced adds literal, readWord_eq_map]
      rfl
    have read : fr.readWord i.ty (.bool b) = .ok (i.ty.normalize (if b then 1 else 0)) := by
      rw [readWord_eq_map]
      rfl
    have replaced : effect p host fr' (i.withOperand (.temp id) (.arg 0)) =
        .ok (.store (.int (op.apply .i1 i.ty (Ty.i1.normalize (if b then 1 else 0))))) := by
      simp only [effect, Instr.withOperand, isOp, args, List.set_cons_zero, at_i1, register, ok_bind]
      rfl
    have kept : effect p host fr i =
        .ok (.store (.int (op.apply i.ty i.ty (i.ty.normalize (if b then 1 else 0))))) := by
      simp only [effect, isOp, args, Frame.tyOf, read, ok_bind]
      rfl
    have faithful : i.Faithful fr ↔ (op = .sext → b = false) := by
      simp only [Instr.Faithful, isOp, args]
      cases op <;> simp
    rw [replaced, kept, faithful, ← cast_truth_iff target width b]
    simp only [Except.ok.injEq, Effect.store.injEq, Value.int.injEq]
  | int w =>
    -- An integer literal has the type of the result, so no cast of it changes the width.
    obtain rfl : i.ty = ty := by simpa [Scope.operandTy?, target] using source
    simp at width
  | _ => simp [Operand.word?] at literal

/-! ### All instructions -/

theorem typed_operands_replaced (literal : o.word? = some w) {t : Ty} {a b : Operand}
    (left : fr.scope.operandTy? t a = some t) (right : fr.scope.operandTy? t b = some t) {n : Nat}
    (operand : [a, b][n]? = some o) (own : fr.scope.operandTy? t o = some ty) :
    ∃ a' b', [a, b].set n (.temp id) = [a', b'] ∧ fr'.readWord t a' = fr.readWord t a ∧
      fr'.readWord t b' = fr.readWord t b := by
  obtain rfl : t = ty := by
    rcases List.mem_pair.mp (List.mem_of_getElem? operand) with rfl | rfl
    · exact Option.some.inj (left.symm.trans own)
    · exact Option.some.inj (right.symm.trans own)
  obtain ⟨a', b', args, readA, readB, _⟩ := operands_replaced adds literal (known_of_operandTy? left)
    (known_of_operandTy? right) operand
  exact ⟨a', b', args, readA, readB⟩

theorem effect_replaced_arg (literal : o.word? = some w) (host : Host σ) {i : Instr}
    (admitted : Admitted ⟨p, fr.func, fr.scope⟩ i) {n : Nat} (operand : i.args[n]? = some o)
    (assigned : assignedTy? ⟨p, fr.func, fr.scope⟩ i (.arg n) = some ty) (integer : ty.isInteger) :
    effect p host fr' (i.withOperand (.temp id) (.arg n)) = effect p host fr i ↔ i.Faithful fr := by
  cases admitted.typed with
  | arith op a b isOp args result labels integer' number signed unsigned left right =>
    rw [args] at operand
    obtain ⟨a', b', args', readA, readB⟩ := typed_operands_replaced adds literal left right operand
      (by simpa [assignedTy?, isOp, args, operand] using assigned)
    refine iff_of_true ?_ (by simp only [Instr.Faithful, isOp])
    simp only [effect, Instr.withOperand, isOp, args, args', readA, readB]
  | bitwise op a b isOp args result labels integer' left right =>
    rw [args] at operand
    obtain ⟨a', b', args', readA, readB⟩ := typed_operands_replaced adds literal left right operand
      (by simpa [assignedTy?, isOp, args, operand] using assigned)
    refine iff_of_true ?_ (by simp only [Instr.Faithful, isOp])
    simp only [effect, Instr.withOperand, isOp, args, args', readA, readB]
  | compare op a b ta tb isOp args result labels condition left right common =>
    rw [args] at operand
    refine compare_replaced adds literal host isOp args left right common operand ?_ integer
    simpa [assignedTy?, isOp, args, left, right] using assigned
  | cast op a source isOp args result labels typed target integer' width =>
    rw [args] at operand
    obtain ⟨rfl, rfl⟩ : n = 0 ∧ a = o := by simpa [List.getElem?_singleton] using operand
    obtain rfl : source = ty := by
      simpa [assignedTy?, isOp, args, show fr.scope.operandTy? i.ty a = some source from typed] using assigned
    exact cast_replaced adds literal host isOp args typed target width operand
  | cbr a isOp args result labels condition =>
    rw [args] at operand
    obtain ⟨rfl, rfl⟩ : n = 0 ∧ a = o := by simpa [List.getElem?_singleton] using operand
    obtain rfl : .i1 = ty := by
      simpa [assignedTy?, isOp, args, show fr.scope.operandTy? .i1 a = some .i1 from condition] using assigned
    refine iff_of_true ?_ (by simp only [Instr.Faithful, isOp])
    simp only [effect, Instr.withOperand, isOp, args, List.set_cons_zero, readWord_replaced adds literal]
    refine bind_congr fun x => ?_
    split
    · rename_i label successor
      exact jump_kept adds (known_argsTo admitted.branches successor) label
    · rfl
  | ret isOp result labels count form typed =>
    -- There is one argument, the literal.
    obtain ⟨rfl, args⟩ : n = 0 ∧ i.args = [o] := by
      cases args : i.args with
      | nil => simp [args] at operand
      | cons a rest =>
        obtain rfl : rest = [] := by simpa [args] using count
        simpa [args, List.getElem?_singleton] using operand
    have own : fr.scope.operandTy? fr.func.ret o = some fr.func.ret := typed o (by simp [args])
    obtain rfl : fr.func.ret = ty := by simpa [assignedTy?, isOp, args, own] using assigned
    refine iff_of_true ?_ (by simp only [Instr.Faithful, isOp])
    simp only [effect, Instr.withOperand, isOp, args, List.set_cons_zero, adds.func,
      read_replaced adds literal]
  | _ => simp_all [assignedTy?]

theorem effect_replaced_target (literal : o.word? = some w) (host : Host σ) {i : Instr}
    (admitted : Admitted ⟨p, fr.func, fr.scope⟩ i) {k n : Nat} (operand : (i.argsTo k)[n]? = some o)
    (assigned : assignedTy? ⟨p, fr.func, fr.scope⟩ i (.target k n) = some ty) :
    effect p host fr' (i.withOperand (.temp id) (.target k n)) = effect p host fr i ∧ i.Faithful fr := by
  cases admitted.typed with
  | br isOp args result labels =>
    obtain ⟨label, only⟩ := List.length_eq_one_iff.mp labels
    refine ⟨?_, by simp only [Instr.Faithful, isOp]⟩
    simp only [effect, Instr.withOperand, isOp, only]
    exact jump_replaced adds literal admitted.branches operand assigned (by rw [only]; rfl)
  | cbr a isOp args result labels condition =>
    refine ⟨?_, by simp only [Instr.Faithful, isOp]⟩
    simp only [effect, Instr.withOperand, isOp, args, readWord_kept adds (known_of_operandTy? condition)]
    refine bind_congr fun x => ?_
    split
    · rename_i label successor
      exact jump_replaced adds literal admitted.branches operand assigned successor
    · rfl
  | _ => simp_all [assignedTy?]

end Replace

end Machine

namespace Program

open Machine Typing

/-- Let an instruction of an accepted program have a literal to which the checker gives an integer type. A
temporary of that type that holds the literal takes its place, in every state of the registers, exactly if
the instruction is faithful. -/
theorem literal_reads_as_checked {σ : Type} {p : Program} (accepted : p.verify = .ok ()) {f : Func}
    (member : f ∈ p.funcs) {block : Block} (inside : block ∈ f.blocks) {i : Instr}
    (instr : i ∈ block.instrs) {pos : Position} {o : Operand} {w : Int64}
    (operand : i.operandAt? pos = some o) (literal : o.word? = some w) {ty : Ty}
    (assigned : assignedTy? ⟨p, f, f.scope⟩ i pos = some ty) (integer : ty.isInteger) {fr fr' : Frame}
    (func : fr.func = f) (scope : fr.scope = f.scope) {id : TempId}
    (adds : Adds fr fr' id ty (.int (ty.normalize w))) (host : Host σ) :
    effect p host fr' (i.withOperand (.temp id) pos) = effect p host fr i ↔ i.Faithful fr := by
  rw [verify_iff] at accepted
  have admitted := (accepted.funcs f member).admitted inside instr
  rw [← scope] at admitted assigned
  subst func
  cases pos with
  | arg n => exact effect_replaced_arg adds literal host admitted operand assigned integer
  | target k n =>
    obtain ⟨same, faithful⟩ := effect_replaced_target adds literal host admitted operand assigned
    exact iff_of_true same faithful

/-- The sign extension of a boolean literal. -/
def widening : Instr :=
  { result := some 1, op := .cast .sext, ty := .i32, args := [.bool true] }

def ordering : Instr :=
  { result := some 1, op := .compare .slt, ty := .i1, args := [.temp 0, .bool false] }

/-- The function that returns the result of an instruction. -/
def returning (name : String) (params : List Param) (i : Instr) : Func where
  name := name
  params := params
  ret := i.ty
  blocks := [{ label := "entry", instrs := [i, { op := .ret, args := [.temp 1] }] }]

/-- Two functions of literals, and the same with parameters in their places. -/
def truths : Program where
  funcs :=
    let x : List Param := [{ name := "x", ty := .i1, id := 0 }]
    [returning "widen" [] widening,
      returning "widenParam" x (widening.withOperand (.temp 0) (.arg 0)),
      returning "less" [] (ordering.withOperand (.bool true) (.arg 0)),
      returning "lessParam" x ordering]

/-- The function `f` at its entry. -/
def opened (f : Func) (regs : Array Value) : Frame where
  func := f
  scope := f.scope
  regs := regs
  block := f.blocks.headD { label := "" }

/-- The literal that is extended cannot be replaced; the one that is compared with a parameter can. -/
theorem literal_reads_as_checked_truths : truths.verify = .ok () ∧
    (∃ f ∈ truths.funcs, ∃ fr', Adds (opened f #[.int 0, .int 0]) fr' 2 .i1 (.int 1) ∧
      effect truths (Host.empty : Host Unit) fr' (widening.withOperand (.temp 2) (.arg 0)) ≠
        effect truths Host.empty (opened f #[.int 0, .int 0]) widening) ∧
    ∃ f ∈ truths.funcs, ∃ fr', Adds (opened f #[.int 1, .int 0]) fr' 2 .i1 (.int 0) ∧
      effect truths (Host.empty : Host Unit) fr' (ordering.withOperand (.temp 2) (.arg 1)) =
        effect truths Host.empty (opened f #[.int 1, .int 0]) ordering := by
  have accepted : truths.verify = .ok () := by decide +kernel
  have typed := (verify_iff truths).mp accepted
  refine ⟨accepted, ⟨truths.funcs[0], List.getElem_mem _, ?_⟩, truths.funcs[3], List.getElem_mem _, ?_⟩
  · have rooted : Rooted truths (opened truths.funcs[0] #[.int 0, .int 0]) :=
      ⟨List.getElem_mem _, rfl, rfl, List.mem_cons_self⟩
    have adds := @adds_push _ _ rooted (typed.funcs _ rooted.member) 2 rfl .i1 (.int 1)
    refine ⟨_, adds, ?_⟩
    rw [ne_eq, literal_reads_as_checked accepted rooted.member List.mem_cons_self List.mem_cons_self rfl rfl
      rfl rfl rfl rfl adds]
    simp [Instr.Faithful, widening]
  · have rooted : Rooted truths (opened truths.funcs[3] #[.int 1, .int 0]) :=
      ⟨List.getElem_mem _, rfl, rfl, List.mem_cons_self⟩
    have adds := @adds_push _ _ rooted (typed.funcs _ rooted.member) 2 rfl .i1 (.int 0)
    refine ⟨_, adds, ?_⟩
    rw [literal_reads_as_checked accepted rooted.member List.mem_cons_self List.mem_cons_self rfl rfl
      rfl rfl rfl rfl adds]
    -- The parameter has a type.
    have own : (opened truths.funcs[3] #[.int 1, .int 0]).tyOf .void (.temp 0) ≠ .void := by decide
    exact fun void => absurd void own

/-- Neither function of literals returns what the one with parameters returns for their values. -/
theorem boolean_literals_misread : truths.verify = .ok () ∧
    run truths (Host.empty : Host Unit) 2 "widen" [] () = some (.returned (some (.int 1)), ()) ∧
    run truths (Host.empty : Host Unit) 2 "widenParam" [.int 1] () = some (.returned (some (.int (-1))), ()) ∧
    run truths (Host.empty : Host Unit) 2 "less" [] () = some (.returned (some (.int 0)), ()) ∧
    run truths (Host.empty : Host Unit) 2 "lessParam" [.int 1] () = some (.returned (some (.int 1)), ()) := by
  refine ⟨?_, ?_, ?_, ?_, ?_⟩ <;> decide +kernel

end Program

end GuardedIL
