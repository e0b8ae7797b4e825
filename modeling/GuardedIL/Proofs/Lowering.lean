import GuardedIL.Overflow.Guard
import GuardedIL.Proofs.Accepted
import GuardedIL.Proofs.FreshNames
import GuardedIL.Proofs.Schedules

/-!
# Lowering a schedule

A well-typed schedule lowers to instructions that obey the typing rules: every step is held by an
operand of its width, which is a temporary of the check, an operand of the guarded instruction or a
literal. The temporaries are the next fresh ones, one for each instruction.
-/

namespace GuardedIL.Overflow

/-! ### Widths -/

/-- The widths of the words in a schedule; conditions have the width one. -/
def wordBits : List Int :=
  [8, 16, 32, 64]

theorem wordBits_cases {bits : Int} (word : bits ∈ wordBits) :
    bits = 8 ∨ bits = 16 ∨ bits = 32 ∨ bits = 64 := by
  simpa [wordBits] using word

theorem Width.bits_mem (w : Width) : (w.bits : Int) ∈ wordBits := by
  cases w <;> decide

theorem tyOfBits_width (w : Width) : tyOfBits w.bits = w.ty := by
  cases w <;> rfl

section Word

variable {bits : Int} (word : bits ∈ wordBits)
include word

theorem tyOfBits_isInteger : (tyOfBits bits).isInteger = true := by
  rcases wordBits_cases word with rfl | rfl | rfl | rfl <;> rfl

theorem tyOfBits_isSigned : (tyOfBits bits).isSigned = true := by
  rcases wordBits_cases word with rfl | rfl | rfl | rfl <;> rfl

theorem tyOfBits_ne_i1 : tyOfBits bits ≠ .i1 := by
  rcases wordBits_cases word with rfl | rfl | rfl | rfl <;> decide

theorem tyOfBits_ne_void : tyOfBits bits ≠ .void := by
  rcases wordBits_cases word with rfl | rfl | rfl | rfl <;> decide

theorem width_tyOfBits : ((tyOfBits bits).width : Int) = bits := by
  rcases wordBits_cases word with rfl | rfl | rfl | rfl <;> rfl

end Word

/-! ### Well-typed schedules -/

/-- The width of an earlier step. -/
def bitsAt (earlier : List Step) (n : Option Nat) : Option Int :=
  (n.bind (earlier[·]?)).map (·.bits)

/-- Arithmetic takes words of its own width, a comparison two words of one width, and a connective
two conditions. -/
def StepOp.WellTyped (o : StepOp) (bits : Int) (a b : Option Int) : Prop :=
  match o with
  | add | sub | mul | sdiv | bitOr => bits ∈ wordBits ∧ a = some bits ∧ b = some bits
  | eq | ne | lt | le | gt | ge => bits = 1 ∧ ∃ m ∈ wordBits, a = some m ∧ b = some m
  | and | or => bits = 1 ∧ a = some 1 ∧ b = some 1

instance (o : StepOp) (bits : Int) (a b : Option Int) : Decidable (o.WellTyped bits a b) :=
  match o with
  | .add | .sub | .mul | .sdiv | .bitOr => inferInstanceAs (Decidable (_ ∧ _ ∧ _))
  | .eq | .ne | .lt | .le | .gt | .ge => inferInstanceAs (Decidable (_ ∧ ∃ m ∈ wordBits, _ ∧ _))
  | .and | .or => inferInstanceAs (Decidable (_ ∧ _ ∧ _))

/-- The rules for a step after the steps `earlier`, in the schedule of an instruction of width `w`. -/
def Step.WellTyped (w : Width) (earlier : List Step) (s : Step) : Prop :=
  match s.kind with
  | .left | .right => s.bits = w.bits
  | .const => s.bits ∈ wordBits ∧ Word.fits s.bits s.value
  | .sext => s.bits ∈ wordBits ∧ ∃ m ∈ wordBits, bitsAt earlier s.lhs = some m ∧ m < s.bits
  | .zext => s.bits ∈ wordBits ∧ bitsAt earlier s.lhs = some 1
  | .op o => o.WellTyped s.bits (bitsAt earlier s.lhs) (bitsAt earlier s.rhs)

instance (w : Width) (earlier : List Step) (s : Step) : Decidable (s.WellTyped w earlier) :=
  match s with
  | ⟨.left, _, _, _, _⟩ | ⟨.right, _, _, _, _⟩ => inferInstanceAs (Decidable (_ = _))
  | ⟨.const, _, _, _, _⟩ => inferInstanceAs (Decidable (_ ∧ _))
  | ⟨.sext, _, _, _, _⟩ => inferInstanceAs (Decidable (_ ∧ ∃ m ∈ wordBits, _ ∧ _))
  | ⟨.zext, _, _, _, _⟩ => inferInstanceAs (Decidable (_ ∧ _))
  | ⟨.op o, _, _, _, _⟩ => inferInstanceAs (Decidable (o.WellTyped _ _ _))

/-- Every step is well typed after those before it. -/
def StepsTyped (w : Width) (steps : List Step) : Prop :=
  ∀ (n : Nat) (s : Step), steps[n]? = some s → s.WellTyped w (steps.take n)

instance (w : Width) (steps : List Step) : Decidable (StepsTyped w steps) :=
  decidable_of_iff (∀ p ∈ steps.zipIdx, p.1.WellTyped w (steps.take p.2)) <| by
    constructor
    · intro all n s at_n
      exact all (s, n) (List.mk_mem_zipIdx_iff_getElem?.mpr at_n)
    · rintro all ⟨s, n⟩ member
      exact all n s (List.mk_mem_zipIdx_iff_getElem?.mp member)

theorem stepsTyped_snoc {w : Width} {steps : List Step} {s : Step} :
    StepsTyped w (steps ++ [s]) ↔ StepsTyped w steps ∧ s.WellTyped w steps :=
  @forall_step_snoc (fun earlier t => t.WellTyped w earlier) steps s

/-- A well-typed schedule ends in a condition. -/
structure ScheduleTyped (w : Width) (steps : List Step) : Prop where
  each : StepsTyped w steps
  condition : steps.getLast?.map (·.bits) = some 1

theorem predicate_typed (c : Candidate) (s : MulStrategy) :
    ScheduleTyped c.width (c.predicate s).steps := by
  obtain ⟨op, w⟩ := c
  refine ⟨?_, ?_⟩
  · cases op <;> cases w <;> cases s <;> decide +kernel
  · cases op <;> cases w <;> cases s <;> decide +kernel

/-! ### Operands -/

/-- An operand that holds a step of a width: a temporary of the type, or a literal in range. -/
inductive Sized (scope : Scope) (bits : Int) : Operand → Prop
  | temp (id : TempId) (declared : scope.ty? id = some (tyOfBits bits)) : Sized scope bits (.temp id)
  | literal (v : Int64) (word : bits ∈ wordBits) (normal : Word.signExtend bits v = v) :
    Sized scope bits (.int v)

/-- An operand of the guarded instruction: a temporary of its type, or an integer literal. -/
inductive Guardable (scope : Scope) (w : Width) : Operand → Prop
  | temp (id : TempId) (declared : scope.ty? id = some w.ty) : Guardable scope w (.temp id)
  | literal (v : Int64) : Guardable scope w (.int v)

theorem Sized.operandTy? {scope : Scope} {bits : Int} {o : Operand} (sized : Sized scope bits o) :
    scope.operandTy? (tyOfBits bits) o = some (tyOfBits bits) := by
  cases sized with
  | temp id declared => exact declared
  | literal v word normal => simp [Scope.operandTy?, tyOfBits_isInteger word]

theorem Sized.condition {scope : Scope} {o : Operand} (sized : Sized scope 1 o) :
    ∃ id, o = .temp id ∧ scope.ty? id = some .i1 := by
  cases sized with
  | temp id declared => exact ⟨id, rfl, declared⟩
  | literal v word normal => exact absurd word (by decide)

theorem Guardable.sized {scope : Scope} {w : Width} {o : Operand} (operand : Guardable scope w o) :
    Sized scope w.bits (atWidth w.bits o) := by
  cases operand with
  | temp id declared => exact .temp id (by rw [tyOfBits_width, declared])
  | literal v => exact .literal _ w.bits_mem (Word.signExtend_idem w.bits v)

/-! ### Temporaries of the check -/

namespace Lowering

/-- The lowering of a list of steps. -/
def ofSteps (i : Instr) (names : FreshNames) (steps : List Step) : Lowering :=
  steps.foldl (Lowering.step i) { names }

theorem ofSteps_snoc (i : Instr) (names : FreshNames) (steps : List Step) (s : Step) :
    ofSteps i names (steps ++ [s]) = (ofSteps i names steps).step i s := by
  simp [ofSteps, List.foldl_append]

theorem step_cases (i : Instr) (l : Lowering) (s : Step) :
    (∃ o, l.step i s = l.reuse o) ∨
      ∃ op args, l.step i s = l.emit op s.bits args i.loc := by
  unfold step
  split
  · exact .inl ⟨_, rfl⟩
  · exact .inl ⟨_, rfl⟩
  · exact .inl ⟨_, rfl⟩
  · dsimp only
    split
    · exact .inl ⟨_, rfl⟩
    · exact .inr ⟨_, _, rfl⟩
  · exact .inr ⟨_, _, rfl⟩
  · exact .inr ⟨_, _, rfl⟩

theorem step_begins (i : Instr) (l : Lowering) (s : Step) : l.instrs <+: (l.step i s).instrs := by
  rcases step_cases i l s with ⟨o, step⟩ | ⟨op, args, step⟩
  · rw [step]
    exact List.prefix_rfl
  · rw [step]
    exact List.prefix_append _ _

theorem values_size (i : Instr) (names : FreshNames) (steps : List Step) :
    (ofSteps i names steps).values.size = steps.length := by
  induction steps using List.reverseRecOn with
  | nil => rfl
  | append_singleton steps s ih =>
    rw [ofSteps_snoc]
    rcases step_cases i (ofSteps i names steps) s with ⟨o, step⟩ | ⟨op, args, step⟩ <;>
      simp [step, reuse, emit, ih]

/-- The instructions of a lowering define the next temporaries, in order. -/
structure Numbered (names : FreshNames) (l : Lowering) : Prop where
  next : l.names = { names with nextTemp := names.nextTemp + UInt32.ofNat l.instrs.length }
  results : l.instrs.map Instr.result = (names.temps l.instrs.length).map some

theorem Numbered.isSome {names : FreshNames} {l : Lowering} (numbered : Numbered names l) {j : Instr}
    (member : j ∈ l.instrs) : j.result.isSome := by
  have result := List.mem_map_of_mem (f := Instr.result) member
  rw [numbered.results] at result
  obtain ⟨id, _, same⟩ := List.mem_map.mp result
  rw [← same]
  rfl

theorem Numbered.mem_temps {names : FreshNames} {l : Lowering} (numbered : Numbered names l)
    {j : Instr} {id : TempId} (member : j ∈ l.instrs) (result : j.result = some id) :
    id ∈ names.temps l.instrs.length := by
  have taken := List.mem_map_of_mem (f := Instr.result) member
  rw [numbered.results, result] at taken
  obtain ⟨_, inside, same⟩ := List.mem_map.mp taken
  rwa [← Option.some.inj same]

theorem Numbered.emit {names : FreshNames} {l : Lowering} (numbered : Numbered names l) (op : Opcode)
    (bits : Int) (args : List Operand) (loc : Loc) : Numbered names (l.emit op bits args loc) := by
  obtain ⟨fresh, results⟩ := numbered
  have length : (l.emit op bits args loc).instrs.length = l.instrs.length + 1 := by
    simp [Lowering.emit]
  constructor
  · rw [length]
    simp [Lowering.emit, FreshNames.takeTemp, fresh, UInt32.ofNat_add, add_assoc]
  · rw [length, FreshNames.temps, List.range_succ]
    simp [Lowering.emit, FreshNames.takeTemp, fresh, results, FreshNames.temps]

theorem ofSteps_numbered (i : Instr) (names : FreshNames) (steps : List Step) :
    Numbered names (ofSteps i names steps) := by
  induction steps using List.reverseRecOn with
  | nil => exact ⟨by simp [ofSteps], by simp [ofSteps, FreshNames.temps]⟩
  | append_singleton steps s ih =>
    rw [ofSteps_snoc]
    rcases step_cases i (ofSteps i names steps) s with ⟨o, step⟩ | ⟨op, args, step⟩
    · rw [step]
      exact ⟨ih.next, ih.results⟩
    · rw [step]
      exact ih.emit op s.bits args i.loc

/-- An instruction that does nothing but store its result. -/
def OnlyStores (op : Opcode) : Prop :=
  op.isTerminator = false ∧ op ≠ .call

/-- The instructions of a lowering are helper arithmetic, which no guard protects. -/
theorem ofSteps_internal (i : Instr) (names : FreshNames) (steps : List Step) :
    ∀ j ∈ (ofSteps i names steps).instrs, j.checked = false ∧ OnlyStores j.op := by
  induction steps using List.reverseRecOn with
  | nil => simp [ofSteps]
  | append_singleton steps s ih =>
    rw [ofSteps_snoc]
    generalize ofSteps i names steps = l at ih ⊢
    have emitted : ∀ op args, OnlyStores op →
        ∀ j ∈ (l.emit op s.bits args i.loc).instrs, j.checked = false ∧ OnlyStores j.op := by
      intro op args only j member
      rcases List.mem_append.mp member with early | last
      · exact ih j early
      · rw [List.mem_singleton.mp last]
        exact ⟨rfl, only⟩
    unfold step
    split
    · exact ih
    · exact ih
    · exact ih
    · dsimp only
      split
      · exact ih
      · exact emitted _ _ ⟨rfl, by simp⟩
    · exact emitted _ _ ⟨rfl, by simp⟩
    · rename_i o _
      exact emitted _ _ (by cases o <;> exact ⟨rfl, by simp [StepOp.opcode]⟩)

/-! ### Typing of the check -/

/-- Every step is held by an operand of its width. -/
def HoldsSteps (scope : Scope) (l : Lowering) (steps : List Step) : Prop :=
  ∀ (n : Nat) (s : Step), steps[n]? = some s →
    ∃ o, l.values[n]? = some o ∧ Sized scope s.bits o

/-- Every temporary that the instructions define has their type. -/
def Declares (scope : Scope) (instrs : List Instr) : Prop :=
  ∀ j ∈ instrs, ∀ id, j.result = some id → scope.ty? id = some j.ty

theorem HoldsSteps.operandAt {scope : Scope} {l : Lowering} {steps : List Step} {n : Option Nat}
    {bits : Int} (held : HoldsSteps scope l steps) (known : bitsAt steps n = some bits) :
    Sized scope bits (l.operandAt n) := by
  cases n with
  | none => simp [bitsAt] at known
  | some n =>
    obtain ⟨s, at_n, rfl⟩ : ∃ s, steps[n]? = some s ∧ s.bits = bits := by simpa [bitsAt] using known
    obtain ⟨o, value, sized⟩ := held n s at_n
    simpa [Lowering.operandAt, value] using sized

theorem HoldsSteps.snoc {scope : Scope} {l l' : Lowering} {steps : List Step} {s : Step} {o : Operand}
    (held : HoldsSteps scope l steps) (size : l.values.size = steps.length)
    (values : l'.values = l.values.push o) (sized : Sized scope s.bits o) :
    HoldsSteps scope l' (steps ++ [s]) := by
  intro n t at_n
  rw [values, Array.getElem?_push]
  split
  · rename_i last
    rw [size] at last
    subst last
    obtain rfl : s = t := by simpa using at_n
    exact ⟨o, rfl, sized⟩
  · rename_i earlier
    have inside := (List.getElem?_eq_some_iff.mp at_n).1
    rw [List.length_append, List.length_singleton] at inside
    rw [List.getElem?_append_left (by omega)] at at_n
    exact held n t at_n

theorem declared_emit {scope : Scope} {l : Lowering} {op : Opcode} {bits : Int} {args : List Operand}
    {loc : Loc} (declared : Declares scope (l.emit op bits args loc).instrs) :
    Sized scope bits (.temp l.names.nextTemp) :=
  .temp _ (declared _ (by simp [emit, FreshNames.takeTemp]; exact .inr rfl) _ rfl)

section Instruction

variable {c : Typing.Context} {j : Instr} {bits : Int} {x y : Operand}
  (ty : j.ty = tyOfBits bits) (result : j.result.isSome) (labels : j.labels = [])
include ty result labels

theorem op_typed {o : StepOp} {a b : Option Int} (typed : o.WellTyped bits a b)
    (left : ∀ m, a = some m → Sized c.scope m x) (right : ∀ m, b = some m → Sized c.scope m y)
    (isOp : j.op = o.opcode) (args : j.args = [x, y]) : Typing.Typed c j := by
  cases o with
  | add | sub | mul | sdiv =>
    obtain ⟨word, rfl, rfl⟩ := typed
    refine .arith _ x y isOp args result labels ?_ ?_ ?_ (by simp [ArithOp.dividesUnsigned]) ?_ ?_
    · rw [ty]; exact tyOfBits_isInteger word
    · rw [ty]; exact tyOfBits_ne_i1 word
    · intro _; rw [ty]; exact tyOfBits_isSigned word
    · rw [ty]; exact (left bits rfl).operandTy?
    · rw [ty]; exact (right bits rfl).operandTy?
  | bitOr =>
    obtain ⟨word, rfl, rfl⟩ := typed
    refine .bitwise _ x y isOp args result labels ?_ ?_ ?_
    · rw [ty]; exact tyOfBits_isInteger word
    · rw [ty]; exact (left bits rfl).operandTy?
    · rw [ty]; exact (right bits rfl).operandTy?
  | and | or =>
    obtain ⟨rfl, rfl, rfl⟩ := typed
    refine .bitwise _ x y isOp args result labels ?_ ?_ ?_
    · rw [ty]; rfl
    · rw [ty]; exact (left 1 rfl).operandTy?
    · rw [ty]; exact (right 1 rfl).operandTy?
  | eq | ne | lt | le | gt | ge =>
    obtain ⟨rfl, m, word, rfl, rfl⟩ := typed
    have integer := tyOfBits_isInteger word
    -- A literal has the type of the other side, and two literals have none.
    cases left m rfl with
    | temp id declared =>
      exact .compare _ _ y (tyOfBits m) (tyOfBits m) isOp args result labels ty declared
        (right m rfl).operandTy? (.inr ⟨integer, rfl⟩)
    | literal v _ _ =>
      cases right m rfl with
      | temp id declared =>
        exact .compare _ _ _ .void (tyOfBits m) isOp args result labels ty rfl declared
          (.inl ⟨rfl, .inr integer⟩)
      | literal v' _ _ =>
        exact .compare _ _ _ .void .void isOp args result labels ty rfl rfl (.inl ⟨rfl, .inl rfl⟩)

theorem sext_typed {m : Int} {id : TempId} (word : m ∈ wordBits) (target : bits ∈ wordBits)
    (wider : m < bits) (declared : c.scope.ty? id = some (tyOfBits m)) (isOp : j.op = .cast .sext)
    (args : j.args = [.temp id]) : Typing.Typed c j := by
  refine .cast .sext _ (tyOfBits m) isOp args result labels declared ?_ (tyOfBits_isInteger word) ?_
  · rw [ty]; exact tyOfBits_isInteger target
  · have source := width_tyOfBits word
    have wide := width_tyOfBits target
    simp only [ty, reduceCtorEq, if_false]
    omega

theorem zext_typed {id : TempId} (target : bits ∈ wordBits) (declared : c.scope.ty? id = some .i1)
    (isOp : j.op = .cast .zext) (args : j.args = [.temp id]) : Typing.Typed c j := by
  refine .cast .zext _ .i1 isOp args result labels declared ?_ rfl ?_
  · rw [ty]; exact tyOfBits_isInteger target
  · have wide := width_tyOfBits target
    have := wordBits_cases target
    simp only [ty, reduceCtorEq, if_false]
    change 1 < _
    omega

end Instruction

theorem step_typed {c : Typing.Context} {i : Instr} {a b : Operand} {w : Width} {l : Lowering}
    {earlier : List Step} {s : Step} (args : i.args = [a, b]) (left : Guardable c.scope w a)
    (right : Guardable c.scope w b) (held : HoldsSteps c.scope l earlier)
    (typed : s.WellTyped w earlier) (declared : Declares c.scope (l.step i s).instrs)
    (before : ∀ j ∈ l.instrs, Typing.Typed c j) :
    (∃ o, (l.step i s).values = l.values.push o ∧ Sized c.scope s.bits o) ∧
      ∀ j ∈ (l.step i s).instrs, Typing.Typed c j := by
  -- An emitted instruction is typed if it obeys the rule of its opcode.
  have emitted : ∀ {op args}, l.step i s = l.emit op s.bits args i.loc →
      Typing.Typed c
        { result := some l.names.nextTemp, op, ty := tyOfBits s.bits, args, loc := i.loc, wraps := true } →
      (∃ o, (l.step i s).values = l.values.push o ∧ Sized c.scope s.bits o) ∧
        ∀ j ∈ (l.step i s).instrs, Typing.Typed c j := by
    intro op args step rule
    rw [step] at declared ⊢
    refine ⟨⟨_, rfl, declared_emit declared⟩, fun j member => ?_⟩
    rcases List.mem_append.mp member with old | new
    · exact before j old
    · rw [List.mem_singleton.mp new]
      exact rule
  unfold Step.WellTyped at typed
  split at typed
  next kind =>
    have step : l.step i s = l.reuse (atWidth s.bits a) := by simp [step, kind, args]
    exact ⟨⟨_, by rw [step]; rfl, typed ▸ left.sized⟩, by rw [step]; exact before⟩
  next kind =>
    have step : l.step i s = l.reuse (atWidth s.bits b) := by simp [step, kind, args]
    exact ⟨⟨_, by rw [step]; rfl, typed ▸ right.sized⟩, by rw [step]; exact before⟩
  next kind =>
    have step : l.step i s = l.reuse (.int s.value) := by simp [step, kind]
    exact ⟨⟨_, by rw [step]; rfl, .literal _ typed.1 ((Word.fits_iff_signExtend_eq _ _).mp typed.2)⟩,
      by rw [step]; exact before⟩
  next kind =>
    obtain ⟨word, m, source, known, wider⟩ := typed
    have operand := held.operandAt known
    generalize same : l.operandAt s.lhs = x at operand
    cases operand with
    | temp id declaredId =>
      exact emitted (by simp [step, kind, same, Operand.isNumeric])
        (sext_typed rfl rfl rfl source word wider declaredId rfl rfl)
    | literal v _ normal =>
      have step : l.step i s = l.reuse (.int v) := by simp [step, kind, same, Operand.isNumeric]
      exact ⟨⟨_, by rw [step]; rfl, .literal v word (Word.signExtend_eq_self_of_le wider.le normal)⟩,
        by rw [step]; exact before⟩
  next kind =>
    obtain ⟨id, same, declaredId⟩ := (held.operandAt typed.2).condition
    exact emitted (by simp [step, kind, same]) (zext_typed rfl rfl rfl typed.1 declaredId rfl rfl)
  next o kind =>
    have step : l.step i s =
        l.emit o.opcode s.bits [l.operandAt s.lhs, l.operandAt s.rhs] i.loc := by simp [step, kind]
    exact emitted step
      (op_typed rfl rfl rfl typed (fun _ => held.operandAt) (fun _ => held.operandAt) rfl rfl)

/-- The check of a well-typed schedule obeys the typing rules, and its operands have the widths of
the steps. -/
theorem ofSteps_typed {c : Typing.Context} {i : Instr} {a b : Operand} {w : Width}
    {names : FreshNames} {steps : List Step} (args : i.args = [a, b])
    (left : Guardable c.scope w a) (right : Guardable c.scope w b) (typed : StepsTyped w steps)
    (declared : Declares c.scope (ofSteps i names steps).instrs) :
    HoldsSteps c.scope (ofSteps i names steps) steps ∧
      ∀ j ∈ (ofSteps i names steps).instrs, Typing.Typed c j := by
  induction steps using List.reverseRecOn with
  | nil => simp [HoldsSteps, ofSteps]
  | append_singleton steps s ih =>
    obtain ⟨typedSteps, typedStep⟩ := stepsTyped_snoc.mp typed
    rw [ofSteps_snoc] at declared ⊢
    obtain ⟨held, before⟩ := ih typedSteps fun j member =>
      declared j ((step_begins i _ s).subset member)
    obtain ⟨⟨o, values, sized⟩, all⟩ := step_typed args left right held typedStep declared before
    exact ⟨held.snoc (values_size i names steps) values sized, all⟩

/-- The last operand of a well-typed schedule is a condition. -/
theorem HoldsSteps.condition {scope : Scope} {i : Instr} {names : FreshNames} {w : Width}
    {steps : List Step} (held : HoldsSteps scope (ofSteps i names steps) steps)
    (typed : ScheduleTyped w steps) :
    Sized scope 1 ((ofSteps i names steps).values.back?.getD (.temp 0)) := by
  obtain ⟨last, isLast, bits⟩ : ∃ last, steps.getLast? = some last ∧ last.bits = 1 := by
    simpa using typed.condition
  rw [List.getLast?_eq_getElem?] at isLast
  obtain ⟨o, value, sized⟩ := held _ last isLast
  rw [Array.back?_eq_getElem?, values_size, value]
  simpa [bits] using sized

end Lowering

end GuardedIL.Overflow
