import GuardedIL.Proofs.Exactness
import GuardedIL.Proofs.Lowering
import GuardedIL.Proofs.Runs

/-!
# Checks compute their predicates

The machine reads operands at the types of temporaries, and a predicate is evaluated on words. Both
agree at every step of a well-typed schedule: the operand that holds a step reads as its value. So
running the instructions of a check leaves the truth of the predicate in its condition, and changes
nothing but the temporaries of the check.
-/

namespace GuardedIL

/-! ### Normalised words -/

theorem Word.zeroExtend_zeroExtend {n : Nat} (positive : 0 < n) (wide : n ≤ 64) (v : Int64) :
    zeroExtend n (zeroExtend n v) = zeroExtend n v := by
  rw [← Int64.toBitVec_inj, zeroExtend_toBitVec positive wide, zeroExtend_toBitVec positive wide]
  congr 1
  rw [BitVec.setWidth_setWidth_of_le _ wide, BitVec.setWidth_eq]

theorem Ty.width_le (t : Ty) : t.width ≤ 64 := by
  cases t <;> decide

theorem Ty.width_pos {t : Ty} (integer : t.isInteger = true) : 0 < t.width := by
  simpa [Ty.isInteger, Nat.pos_iff_ne_zero] using integer

theorem Ty.normalize_normalize (t : Ty) (v : Int64) : t.normalize (t.normalize v) = t.normalize v := by
  unfold Ty.normalize
  split_ifs with signed integer
  · exact Word.signExtend_idem t.width v
  · exact Word.zeroExtend_zeroExtend (width_pos integer) t.width_le v
  · rfl

theorem Frame.readWord_normal {fr : Frame} {ty : Ty} {o : Operand} {v : Int64}
    (read : fr.readWord ty o = .ok v) : ty.normalize v = v := by
  unfold Frame.readWord at read
  split at read
  · rw [← Except.ok.inj read, ty.normalize_normalize]
  · simp at read

theorem Frame.readWord_int (fr : Frame) (ty : Ty) (v : Int64) :
    fr.readWord ty (.int v) = .ok (ty.normalize v) := by
  simp [Frame.readWord, Frame.read, Value.word, Ty.normalize_normalize]

namespace Overflow

theorem normalize_word {bits : Int} (word : bits ∈ wordBits) (v : Int64) :
    (tyOfBits bits).normalize v = Word.signExtend bits v := by
  rcases wordBits_cases word with rfl | rfl | rfl | rfl <;> rfl

theorem normalize_truth (b : Bool) : Ty.i1.normalize (truth b) = truth b := by
  cases b <;> decide

/-- A normalised condition is true or false. -/
theorem exists_truth {v : Int64} (normal : Ty.i1.normalize v = v) : ∃ b, v = truth b := by
  have bits : v.toBitVec = (v.toBitVec.setWidth 1).setWidth 64 := by
    rw [← Word.zeroExtend_toBitVec (by decide) (by decide)]
    exact congrArg Int64.toBitVec normal.symm
  rcases BitVec.eq_zero_or_eq_one (v.toBitVec.setWidth 1) with zero | one
  · refine ⟨false, Int64.toBitVec_inj.mp ?_⟩
    rw [bits, zero]
    rfl
  · refine ⟨true, Int64.toBitVec_inj.mp ?_⟩
    rw [bits, one]
    rfl

section Word

variable {bits : Int} (word : bits ∈ wordBits)
include word

theorem wordWidth_tyOfBits : ((tyOfBits bits).wordWidth : Int) = bits := by
  rcases wordBits_cases word with rfl | rfl | rfl | rfl <;> rfl

theorem signedBits_normal {v : Int64} (normal : Word.signExtend bits v = v) :
    (tyOfBits bits).signedBits v = v := by
  rw [Ty.signedBits, wordWidth_tyOfBits word, normal]

theorem lowBits_inj {u v : Int64} (normalU : Word.signExtend bits u = u)
    (normalV : Word.signExtend bits v = v) :
    (tyOfBits bits).lowBits u = (tyOfBits bits).lowBits v ↔ u = v := by
  refine ⟨fun same => ?_, fun same => by rw [same]⟩
  simp only [Ty.lowBits, wordWidth_tyOfBits word] at same
  rw [← normalU, ← normalV, Word.signExtend, Word.signExtend]
  split
  · rename_i wide
    have full : bits = 64 := by
      have := wordBits_cases word
      omega
    subst full
    have all : Word.mask 64 = -1 := by decide
    rw [all, UInt64.and_neg_one, UInt64.and_neg_one] at same
    exact congrArg UInt64.toInt64 same
  · rw [same]

end Word

/-! ### Effects of the instructions of a check -/

section Effect

variable {σ : Type} {p : Program} {host : Host σ} {fr : Frame} {j : Instr} {bits : Int}
  {x y : Operand} {u v : Int64}

/-- The instruction stores a word that its type leaves as it is. -/
structure Stores (p : Program) (host : Host σ) (fr : Frame) (j : Instr) (v : Int64) : Prop where
  effect : Machine.effect p host fr j = .ok (.store (.int v))
  normal : j.ty.normalize v = v

theorem ok_bind {ε α β : Type} (x : α) (f : α → Except ε β) : (Except.ok x >>= f) = f x :=
  rfl

theorem tyOf_temp {fallback ty : Ty} {id : TempId} (declared : fr.scope.ty? id = some ty)
    (real : ty ≠ .void) : fr.tyOf fallback (.temp id) = ty := by
  simp only [Frame.tyOf, declared]

/-- Two operands of one width are compared at a width that both have: their own, unless both are
literals. -/
theorem compare_width {m : Int} (word : m ∈ wordBits) (sizedX : Sized fr.scope m x)
    (sizedY : Sized fr.scope m y) (readX : fr.readWord (tyOfBits m) x = .ok u)
    (readY : fr.readWord (tyOfBits m) y = .ok v) :
    ∃ k ∈ wordBits, fr.tyOf (fr.tyOf .i64 y) x = tyOfBits k ∧
      fr.readWord (tyOfBits k) x = .ok u ∧ fr.readWord (tyOfBits k) y = .ok v := by
  have real := tyOfBits_ne_void word
  cases sizedX with
  | temp id declared => exact ⟨m, word, tyOf_temp declared real, readX, readY⟩
  | literal c _ normal =>
    cases sizedY with
    | temp id declared => exact ⟨m, word, tyOf_temp declared real, readX, readY⟩
    | literal d _ normal' =>
      rw [Frame.readWord_int, normalize_word word, normal] at readX
      rw [Frame.readWord_int, normalize_word word, normal'] at readY
      refine ⟨64, by decide, rfl, ?_, ?_⟩
      · rw [Frame.readWord_int, ← readX]
        rfl
      · rw [Frame.readWord_int, ← readY]
        rfl

theorem op_effect {o : StepOp} {a b : Option Int} (typed : o.WellTyped bits a b)
    (left : ∀ m, a = some m → Sized fr.scope m x ∧ fr.readWord (tyOfBits m) x = .ok u)
    (right : ∀ m, b = some m → Sized fr.scope m y ∧ fr.readWord (tyOfBits m) y = .ok v)
    (nonzero : o = .sdiv → v ≠ 0) (ty : j.ty = tyOfBits bits) (isOp : j.op = o.opcode)
    (args : j.args = [x, y]) : Stores p host fr j (o.apply bits u v) := by
  cases o with
  | add | sub | mul =>
    obtain ⟨word, rfl, rfl⟩ := typed
    have readX := (left bits rfl).2
    have readY := (right bits rfl).2
    simp only [StepOp.apply, ← normalize_word word]
    refine ⟨?_, by rw [ty, Ty.normalize_normalize]⟩
    simp only [Machine.effect, isOp, args, ty, readX, readY, StepOp.opcode, ArithOp.onWords?]
    rfl
  | sdiv =>
    obtain ⟨word, rfl, rfl⟩ := typed
    have readX := (left bits rfl).2
    have readY := (right bits rfl).2
    simp only [StepOp.apply, nonzero rfl, if_false, ← normalize_word word]
    refine ⟨?_, by rw [ty, Ty.normalize_normalize]⟩
    simp only [Machine.effect, isOp, args, ty, readX, readY, StepOp.opcode, ArithOp.onWords?, ok_bind,
      nonzero rfl, if_false]
    rfl
  | bitOr =>
    obtain ⟨word, rfl, rfl⟩ := typed
    have readX := (left bits rfl).2
    have readY := (right bits rfl).2
    simp only [StepOp.apply, ← normalize_word word]
    refine ⟨?_, by rw [ty, Ty.normalize_normalize]⟩
    simp only [Machine.effect, isOp, args, ty, readX, readY, StepOp.opcode, BitOp.apply]
    rfl
  | and | or =>
    obtain ⟨rfl, rfl, rfl⟩ := typed
    have readX : fr.readWord .i1 x = .ok u := (left 1 rfl).2
    have readY : fr.readWord .i1 y = .ok v := (right 1 rfl).2
    obtain ⟨_, rfl⟩ := exists_truth (Frame.readWord_normal readX)
    obtain ⟨_, rfl⟩ := exists_truth (Frame.readWord_normal readY)
    simp only [StepOp.apply, truth_and, truth_or]
    refine ⟨?_, by rw [ty]; exact normalize_truth _⟩
    simp only [Machine.effect, isOp, args, ty, StepOp.opcode, BitOp.apply,
      show tyOfBits 1 = .i1 from rfl, readX, readY, ok_bind, truth_and, truth_or, normalize_truth]
    rfl
  | eq | ne | lt | le | gt | ge =>
    obtain ⟨rfl, m, word, rfl, rfl⟩ := typed
    obtain ⟨k, wordK, width, readX, readY⟩ :=
      compare_width word (left m rfl).1 (right m rfl).1 (left m rfl).2 (right m rfl).2
    have normalU := Frame.readWord_normal readX
    have normalV := Frame.readWord_normal readY
    rw [normalize_word wordK] at normalU normalV
    refine ⟨?_, by rw [ty]; exact normalize_truth _⟩
    simp only [Machine.effect, isOp, args, StepOp.opcode, StepOp.apply, width, readX, readY,
      ok_bind, CmpOp.holds, lowBits_inj wordK normalU normalV, signedBits_normal wordK normalU,
      signedBits_normal wordK normalV, ne_eq]
    rfl

theorem sext_effect {m : Int} {id : TempId} (word : m ∈ wordBits) (target : bits ∈ wordBits)
    (wider : m < bits) (declared : fr.scope.ty? id = some (tyOfBits m))
    (read : fr.readWord (tyOfBits m) (.temp id) = .ok u) (ty : j.ty = tyOfBits bits)
    (isOp : j.op = .cast .sext) (args : j.args = [.temp id]) : Stores p host fr j u := by
  have source : fr.tyOf (tyOfBits bits) (.temp id) = tyOfBits m :=
    tyOf_temp declared (tyOfBits_ne_void word)
  have normal := Frame.readWord_normal read
  rw [normalize_word word] at normal
  have wide := Word.signExtend_eq_self_of_le wider.le normal
  refine ⟨?_, by rw [ty, normalize_word target, wide]⟩
  simp only [Machine.effect, isOp, args, ty, source, read, ok_bind, CastOp.apply,
    wordWidth_tyOfBits word, normal, normalize_word target, wide]
  rfl

theorem zext_effect {id : TempId} (target : bits ∈ wordBits) (declared : fr.scope.ty? id = some .i1)
    (read : fr.readWord .i1 (.temp id) = .ok u) (ty : j.ty = tyOfBits bits)
    (isOp : j.op = .cast .zext) (args : j.args = [.temp id]) : Stores p host fr j (u &&& 1) := by
  have source : fr.tyOf (tyOfBits bits) (.temp id) = .i1 := tyOf_temp declared (by decide)
  obtain ⟨b, rfl⟩ := exists_truth (Frame.readWord_normal read)
  have wide : (tyOfBits bits).normalize (truth b) = truth b := by
    rcases wordBits_cases target with rfl | rfl | rfl | rfl <;> cases b <;> decide
  have bit : Word.zeroExtend Ty.i1.wordWidth (truth b) = truth b := normalize_truth b
  rw [truth_and_one]
  refine ⟨?_, by rw [ty, wide]⟩
  simp only [Machine.effect, isOp, args, ty, source, read, ok_bind, CastOp.apply, bit, wide]
  rfl

end Effect

/-! ### Values of the operands -/

/-- Every step so far reads as its value. -/
def Computes (fr : Frame) (l : Lowering) (steps : List Step) (left right : Int64) : Prop :=
  ∀ (n : Nat) (s : Step) (o : Operand), steps[n]? = some s → l.values[n]? = some o →
    fr.readWord (tyOfBits s.bits) o = .ok (valueAt (stepValues steps left right) (some n))

section Values

variable {fr : Frame} {l l' : Lowering} {steps : List Step} {left right : Int64}

theorem Computes.operandAt (computes : Computes fr l steps left right)
    (held : l.HoldsSteps fr.scope steps) {n : Option Nat} {bits : Int}
    (known : bitsAt steps n = some bits) : fr.readWord (tyOfBits bits) (l.operandAt n) =
      .ok (valueAt (stepValues steps left right) n) := by
  cases n with
  | none => simp [bitsAt] at known
  | some n =>
    obtain ⟨s, at_n, rfl⟩ : ∃ s, steps[n]? = some s ∧ s.bits = bits := by simpa [bitsAt] using known
    obtain ⟨o, value, _⟩ := held n s at_n
    have read := computes n s o at_n value
    simpa [Lowering.operandAt, value] using read

theorem Computes.snoc {s : Step} {o : Operand} (computes : Computes fr l steps left right)
    (size : l.values.size = steps.length) (values : l'.values = l.values.push o)
    (read : fr.readWord (tyOfBits s.bits) o =
      .ok (s.apply (valueAt (stepValues steps left right) s.lhs)
        (valueAt (stepValues steps left right) s.rhs) left right)) :
    Computes fr l' (steps ++ [s]) left right := by
  intro n t x at_n value
  have count := stepValues_size steps left right
  rw [values, Array.getElem?_push] at value
  rw [stepValues_snoc]
  split at value
  · rename_i last
    rw [size] at last
    subst last
    obtain rfl : s = t := by simpa using at_n
    obtain rfl := Option.some.inj value
    rw [read, valueAt_of_getElem? (by rw [← count, Array.getElem?_push_size])]
  · have inside : n < steps.length := by
      rw [← size]
      exact (Array.getElem?_eq_some_iff.mp value).1
    rw [List.getElem?_append_left inside] at at_n
    rw [computes n t x at_n value]
    have before : n < (stepValues steps left right).size := by rwa [count]
    simp [valueAt, Array.getElem?_push_lt, before]

/-- Writing a temporary that holds no step changes no value. -/
theorem Computes.congr {fr' : Frame} (computes : Computes fr l steps left right)
    (same : ∀ id, .temp id ∈ l.values → fr'.regs[id.toNat]? = fr.regs[id.toNat]?) :
    Computes fr' l steps left right := by
  intro n s o at_n value
  have read := computes n s o at_n value
  cases o with
  | temp id =>
    have kept := same id (Array.mem_of_getElem? value)
    simpa only [Frame.readWord, Frame.read, kept] using read
  | _ => exact read

end Values

/-! ### One step -/

theorem readWord_congr (fr fr' : Frame) {o : Operand}
    (same : ∀ id, o = .temp id → fr'.regs[id.toNat]? = fr.regs[id.toNat]?) (ty : Ty) :
    fr'.readWord ty o = fr.readWord ty o := by
  cases o with
  | temp id => simp only [Frame.readWord, Frame.read, same id rfl]
  | _ => rfl

/-- The operand of a guarded instruction reads at its width as the instruction reads it. -/
theorem Guardable.readWord {fr : Frame} {w : Width} {o : Operand} {v : Int64}
    (operand : Guardable fr.scope w o) (read : fr.readWord w.ty o = .ok (w.ty.normalize v)) :
    fr.readWord (tyOfBits w.bits) (atWidth w.bits o) = .ok (Word.signExtend w.bits v) := by
  rw [← tyOfBits_width] at read
  rw [← normalize_word w.bits_mem]
  cases operand with
  | temp id declared => exact read
  | literal c =>
    rw [Frame.readWord_int] at read
    rw [atWidth, Frame.readWord_int, ← normalize_word w.bits_mem, Ty.normalize_normalize, read]

theorem atWidth_temp {bits : Int} {o : Operand} {id : TempId} (temp : atWidth bits o = .temp id) :
    o = .temp id := by
  cases o <;> simp_all [atWidth]

/-- A step is held by an operand of the guarded instruction, by a literal, or by the temporary of an
instruction that stores its value. -/
theorem step_computes {σ : Type} (p : Program) (host : Host σ) {fr : Frame} {i : Instr}
    {a b : Operand} {w : Width} {l : Lowering} {steps : List Step} {s : Step} {left right : Int64}
    (args : i.args = [a, b]) (operandA : Guardable fr.scope w a) (operandB : Guardable fr.scope w b)
    (readA : fr.readWord w.ty a = .ok (w.ty.normalize left))
    (readB : fr.readWord w.ty b = .ok (w.ty.normalize right))
    (held : l.HoldsSteps fr.scope steps) (computes : Computes fr l steps left right)
    (typed : s.WellTyped w steps)
    (nonzero : s.kind = .op .sdiv → valueAt (stepValues steps left right) s.rhs ≠ 0) :
    (∃ o, l.step i s = l.reuse o ∧ (∀ id, o = .temp id → o ∈ i.args) ∧
      fr.readWord (tyOfBits s.bits) o = .ok (s.apply (valueAt (stepValues steps left right) s.lhs)
        (valueAt (stepValues steps left right) s.rhs) left right)) ∨
    ∃ op operands, l.step i s = l.emit op s.bits operands i.loc ∧
      ∀ (j : Instr) (fr' : Frame), j.op = op → j.ty = tyOfBits s.bits → j.args = operands →
        fr'.regs = fr.regs → fr'.scope = fr.scope →
        Stores p host fr' j (s.apply (valueAt (stepValues steps left right) s.lhs)
          (valueAt (stepValues steps left right) s.rhs) left right) := by
  have readAt : ∀ {n : Option Nat} {bits : Int} (fr' : Frame), bitsAt steps n = some bits →
      fr'.regs = fr.regs → fr'.readWord (tyOfBits bits) (l.operandAt n) =
        .ok (valueAt (stepValues steps left right) n) := by
    intro n bits fr' known regs
    rw [readWord_congr fr fr' (fun id _ => by rw [regs])]
    exact computes.operandAt held known
  unfold Step.WellTyped at typed
  split at typed
  next kind =>
    simp only [Step.apply, kind]
    refine .inl ⟨atWidth s.bits a, by simp [Lowering.step, kind, args], ?_, ?_⟩
    · intro id temp
      rw [temp, ← atWidth_temp temp, args]
      exact List.mem_cons_self
    · rw [typed]
      exact operandA.readWord readA
  next kind =>
    simp only [Step.apply, kind]
    refine .inl ⟨atWidth s.bits b, by simp [Lowering.step, kind, args], ?_, ?_⟩
    · intro id temp
      rw [temp, ← atWidth_temp temp, args]
      exact List.mem_cons_of_mem _ List.mem_cons_self
    · rw [typed]
      exact operandB.readWord readB
  next kind =>
    simp only [Step.apply, kind]
    refine .inl ⟨.int s.value, by simp [Lowering.step, kind], by simp, ?_⟩
    rw [Frame.readWord_int, normalize_word typed.1]
  next kind =>
    simp only [Step.apply, kind]
    obtain ⟨word, m, source, known, wider⟩ := typed
    have operand := held.operandAt known
    have read := readAt fr known rfl
    generalize same : l.operandAt s.lhs = x at operand read
    cases operand with
    | temp id declared =>
      refine .inr ⟨_, _, by simp [Lowering.step, kind, same, Operand.isNumeric]; rfl, ?_⟩
      intro j fr' isOp ty operands regs scope
      refine sext_effect source word wider (by rw [scope]; exact declared) ?_ ty isOp operands
      rw [← same]
      exact readAt fr' known regs
    | literal v _ normal =>
      refine .inl ⟨.int v, by simp [Lowering.step, kind, same, Operand.isNumeric], by simp, ?_⟩
      rw [Frame.readWord_int, normalize_word source, normal] at read
      rw [Frame.readWord_int, normalize_word word, Word.signExtend_eq_self_of_le wider.le normal, read]
  next kind =>
    simp only [Step.apply, kind]
    obtain ⟨word, known⟩ := typed
    obtain ⟨id, same, declared⟩ := (held.operandAt known).condition
    refine .inr ⟨_, _, by simp [Lowering.step, kind, same]; rfl, ?_⟩
    intro j fr' isOp ty operands regs scope
    refine zext_effect word (by rw [scope]; exact declared) ?_ ty isOp operands
    rw [← same]
    exact readAt fr' known regs
  next o kind =>
    simp only [Step.apply, kind]
    have step : l.step i s =
        l.emit o.opcode s.bits [l.operandAt s.lhs, l.operandAt s.rhs] i.loc := by
      simp [Lowering.step, kind]
    refine .inr ⟨_, _, step, ?_⟩
    intro j fr' isOp ty operands regs scope
    refine op_effect typed ?_ ?_ (fun division => nonzero (by rw [kind, division])) ty isOp operands
    · exact fun m known => ⟨by rw [scope]; exact held.operandAt known, readAt fr' known regs⟩
    · exact fun m known => ⟨by rw [scope]; exact held.operandAt known, readAt fr' known regs⟩

/-! ### Running a check -/

/-- The frame `fr'` is `fr` past the instructions `instrs`, which have stored their results. -/
structure Past (fr fr' : Frame) (instrs : List Instr) : Prop where
  func : fr'.func = fr.func
  scope : fr'.scope = fr.scope
  block : fr'.block = fr.block
  ip : fr'.ip = fr.ip + instrs.length
  size : fr'.regs.size = fr.regs.size
  others : ∀ k, (∀ j ∈ instrs, ∀ id, j.result = some id → id.toNat ≠ k) →
    fr'.regs[k]? = fr.regs[k]?

theorem Past.refl (fr : Frame) : Past fr fr [] :=
  ⟨rfl, rfl, rfl, rfl, rfl, fun _ _ => rfl⟩

theorem Past.snoc {fr fr' : Frame} {instrs : List Instr} {j : Instr} {id : TempId}
    (past : Past fr fr' instrs) (result : j.result = some id) (v : Value) :
    Past fr ((fr'.advance j).store j.result v) (instrs ++ [j]) := by
  rw [result]
  refine ⟨past.func, past.scope, past.block, ?_, ?_, ?_⟩
  · change fr'.ip + 1 = _
    rw [past.ip, List.length_append]
    rfl
  · change (fr'.regs.setIfInBounds _ _).size = _
    rw [Array.size_setIfInBounds, past.size]
  · intro k differs
    have last : id.toNat ≠ k := differs j (by simp) id result
    change (fr'.regs.setIfInBounds _ _)[k]? = _
    rw [Array.getElem?_setIfInBounds_ne last]
    exact past.others k fun j' member => differs j' (List.mem_append_left _ member)

/-- A frame at the check of the guard of `i`, whose temporaries are the next ones of `names`: the
function declares them, no operand is among them, and they do not wrap around. -/
structure AtCheck (fr : Frame) (names : FreshNames) (i : Instr) (check : List Instr) : Prop where
  placed : check <+: fr.block.instrs.drop fr.ip
  declared : Lowering.Declares fr.scope check
  registers : ∀ j ∈ check, ∀ id, j.result = some id → id.toNat < fr.regs.size
  room : names.nextTemp.toNat + check.length ≤ 2 ^ 32
  older : ∀ id, .temp id ∈ i.args → id.toNat < names.nextTemp.toNat

theorem AtCheck.mono {fr : Frame} {names : FreshNames} {i : Instr} {check part : List Instr}
    (atCheck : AtCheck fr names i check) (first : part <+: check) : AtCheck fr names i part := by
  refine ⟨first.trans atCheck.placed, ?_, ?_, ?_, atCheck.older⟩
  · exact fun j member => atCheck.declared j (first.subset member)
  · exact fun j member => atCheck.registers j (first.subset member)
  · have := first.length_le
    have := atCheck.room
    omega

theorem AtCheck.next {fr : Frame} {names : FreshNames} {i j : Instr} {check : List Instr}
    (atCheck : AtCheck fr names i (check ++ [j])) :
    fr.block.instrs[fr.ip + check.length]? = some j := by
  obtain ⟨rest, whole⟩ := atCheck.placed
  rw [← List.getElem?_drop, ← whole]
  simp

theorem step_store {σ : Type} {p : Program} {host : Host σ} {c : Machine.Config σ} {j : Instr}
    {v : Value} (here : c.frame.block.instrs[c.frame.ip]? = some j)
    (stores : Machine.effect p host (c.frame.advance j) j = .ok (.store v)) :
    Machine.step p host c = .next { c with frame := (c.frame.advance j).store j.result v } := by
  simp only [Machine.step, here, stores, Machine.perform]

section Run

variable {σ : Type} {p : Program} {host : Host σ} {c : Machine.Config σ} {fr : Frame} {i : Instr}
  {names : FreshNames} {l : Lowering} {steps : List Step} {s : Step} {left right : Int64}

/-- The machine has run the instructions of a lowering, and every step reads as its value. The
operands of the steps are older than the temporaries that are still to come. -/
structure Ran (p : Program) (host : Host σ) (c : Machine.Config σ) (fr : Frame) (names : FreshNames)
    (l : Lowering) (steps : List Step) (left right : Int64) : Prop where
  reached : Machine.after (Machine.step p host) l.instrs.length c = some { c with frame := fr }
  past : Past c.frame fr l.instrs
  computes : Computes fr l steps left right
  older : ∀ id, .temp id ∈ l.values → id.toNat < names.nextTemp.toNat + l.instrs.length

theorem Ran.nil (names : FreshNames) : Ran p host c c.frame names { names } [] left right := by
  refine ⟨rfl, Past.refl _, ?_, by simp⟩
  intro n s o at_n
  simp at at_n

/-- The operands of the guarded instruction still read as they did. -/
theorem Ran.readWord (ran : Ran p host c fr names l steps left right) (numbered : l.Numbered names)
    (atCheck : AtCheck c.frame names i l.instrs) {o : Operand} (member : o ∈ i.args) (ty : Ty) :
    fr.readWord ty o = c.frame.readWord ty o := by
  have room : names.HasRoom names.nextTemp.toNat l.instrs.length := .inr ⟨le_rfl, atCheck.room⟩
  refine readWord_congr c.frame fr (fun id temp => ran.past.others _ ?_) ty
  intro j inside id' result
  have new := room.le_of_mem (numbered.mem_temps inside result)
  have old := atCheck.older id (temp ▸ member)
  omega

theorem Ran.reuse (ran : Ran p host c fr names l steps left right)
    (atCheck : AtCheck c.frame names i l.instrs) (size : l.values.size = steps.length) {o : Operand}
    (operand : ∀ id, o = .temp id → o ∈ i.args)
    (read : fr.readWord (tyOfBits s.bits) o =
      .ok (s.apply (valueAt (stepValues steps left right) s.lhs)
        (valueAt (stepValues steps left right) s.rhs) left right)) :
    Ran p host c fr names (l.reuse o) (steps ++ [s]) left right := by
  refine ⟨ran.reached, ran.past, ran.computes.snoc size rfl read, ?_⟩
  intro id member
  rcases Array.mem_push.mp member with early | last
  · exact ran.older id early
  · have := atCheck.older id (last ▸ operand id last.symm)
    change id.toNat < names.nextTemp.toNat + l.instrs.length
    omega

/-- One more instruction stores the value of one more step. -/
theorem Ran.emit (ran : Ran p host c fr names l steps left right) (numbered : l.Numbered names)
    (size : l.values.size = steps.length) {op : Opcode} {operands : List Operand} {loc : Loc}
    (atCheck : AtCheck c.frame names i (l.emit op s.bits operands loc).instrs)
    (stores : ∀ (j : Instr) (fr' : Frame), j.op = op → j.ty = tyOfBits s.bits → j.args = operands →
      fr'.regs = fr.regs → fr'.scope = fr.scope →
      Stores p host fr' j (s.apply (valueAt (stepValues steps left right) s.lhs)
        (valueAt (stepValues steps left right) s.rhs) left right)) :
    ∃ fr', Ran p host c fr' names (l.emit op s.bits operands loc) (steps ++ [s]) left right := by
  generalize emitted : ({ result := some l.names.nextTemp, op, ty := tyOfBits s.bits
                          args := operands, loc, wraps := true } : Instr) = j
  have instrs : (l.emit op s.bits operands loc).instrs = l.instrs ++ [j] := by
    rw [← emitted]
    rfl
  have result : j.result = some l.names.nextTemp := by rw [← emitted]
  rw [instrs] at atCheck
  have number : l.names.nextTemp.toNat = names.nextTemp.toNat + l.instrs.length := by
    have wide : names.HasRoom 0 (l.instrs ++ [j]).length := .inr ⟨Nat.zero_le _, atCheck.room⟩
    rw [numbered.next]
    exact wide.toNat_add (by simp)
  have inside : l.names.nextTemp.toNat < fr.regs.size := by
    rw [ran.past.size]
    exact atCheck.registers j (by simp) _ result
  have here : fr.block.instrs[fr.ip]? = some j := by
    rw [ran.past.block, ran.past.ip]
    exact atCheck.next
  obtain ⟨stored, normal⟩ := stores j (fr.advance j) (by rw [← emitted]) (by rw [← emitted])
    (by rw [← emitted]) rfl rfl
  have moved := step_store (c := { c with frame := fr }) here stored
  have reached := Machine.after_add ran.reached (Machine.after_one moved)
  rw [← List.length_singleton (a := j), ← List.length_append, ← instrs] at reached
  refine ⟨_, reached, ?_, ?_, ?_⟩
  · rw [instrs]
    exact ran.past.snoc result _
  · refine Computes.snoc (ran.computes.congr fun id member => ?_) size rfl ?_
    · have := ran.older id member
      rw [result]
      exact Array.getElem?_setIfInBounds_ne (by omega)
    · have cell (v : Value) : ((fr.advance j).store j.result v).regs[l.names.nextTemp.toNat]? =
          some v := by
        rw [result]
        exact Array.getElem?_setIfInBounds_self_of_lt inside
      rw [← emitted] at normal
      simp only [Frame.readWord, Frame.read, cell, Value.word, normal]
  · intro id member
    rw [instrs, List.length_append, List.length_singleton]
    rcases Array.mem_push.mp member with early | last
    · have := ran.older id early
      omega
    · rw [Operand.temp.inj last]
      omega

/-- Running the instructions of a lowering makes every step read as its value. -/
theorem ofSteps_runs (p : Program) (host : Host σ) {a b : Operand} {w : Width}
    (args : i.args = [a, b]) (operandA : Guardable c.frame.scope w a)
    (operandB : Guardable c.frame.scope w b)
    (readA : c.frame.readWord w.ty a = .ok (w.ty.normalize left))
    (readB : c.frame.readWord w.ty b = .ok (w.ty.normalize right)) (typed : StepsTyped w steps)
    (atCheck : AtCheck c.frame names i (Lowering.ofSteps i names steps).instrs)
    (nonzero : DivisorsNonzero steps left right) :
    ∃ fr, Ran p host c fr names (Lowering.ofSteps i names steps) steps left right := by
  induction steps using List.reverseRecOn with
  | nil => exact ⟨c.frame, Ran.nil names⟩
  | append_singleton steps s ih =>
    rw [Lowering.ofSteps_snoc] at atCheck ⊢
    obtain ⟨typedSteps, typedStep⟩ := stepsTyped_snoc.mp typed
    obtain ⟨nonzeroSteps, nonzeroStep⟩ := divisorsNonzero_snoc.mp nonzero
    have before := atCheck.mono (Lowering.step_begins i _ s)
    obtain ⟨fr, ran⟩ := ih typedSteps before nonzeroSteps
    have size := Lowering.values_size i names steps
    have numbered := Lowering.ofSteps_numbered i names steps
    have held := (Lowering.ofSteps_typed (c := ⟨p, c.frame.func, c.frame.scope⟩) args operandA
      operandB typedSteps before.declared).1
    have sameA := ran.readWord numbered before (o := a) (by simp [args]) w.ty
    have sameB := ran.readWord numbered before (o := b) (by simp [args]) w.ty
    -- From here on it does not matter how the operands of the earlier steps came about.
    generalize Lowering.ofSteps i names steps = l at *
    rw [← ran.past.scope] at operandA operandB held
    rcases step_computes p host args operandA operandB (sameA.trans readA) (sameB.trans readB) held
        ran.computes typedStep nonzeroStep with
      ⟨o, step, operand, read⟩ | ⟨op, operands, step, stores⟩
    · rw [step]
      exact ⟨fr, ran.reuse before size operand read⟩
    · rw [step] at atCheck ⊢
      exact ran.emit numbered size atCheck stores

end Run

theorem evaluate_eq_truth {q : Predicate} {left right v : Int64}
    (last : (stepValues q.steps left right).back? = some v) (normal : Ty.i1.normalize v = v) :
    truth (q.evaluate left right) = v := by
  obtain ⟨b, rfl⟩ := exists_truth normal
  simp only [Predicate.evaluate, last, truth_ne_zero]

/-- Running a check leaves the truth of its predicate in the condition. -/
theorem check_runs {σ : Type} (p : Program) (host : Host σ) {c : Machine.Config σ} {i : Instr}
    {a b : Operand} {w : Width} {names : FreshNames} {q : Predicate} {left right : Int64}
    (args : i.args = [a, b]) (operandA : Guardable c.frame.scope w a)
    (operandB : Guardable c.frame.scope w b)
    (readA : c.frame.readWord w.ty a = .ok (w.ty.normalize left))
    (readB : c.frame.readWord w.ty b = .ok (w.ty.normalize right)) (typed : ScheduleTyped w q.steps)
    (atCheck : AtCheck c.frame names i (Guard.ofInstr i q names).1.check)
    (nonzero : DivisorsNonzero q.steps left right) :
    ∃ fr, Machine.after (Machine.step p host) (Guard.ofInstr i q names).1.check.length c =
        some { c with frame := fr } ∧
      Past c.frame fr (Guard.ofInstr i q names).1.check ∧
      fr.readWord .i1 (Guard.ofInstr i q names).1.condition =
        .ok (truth (q.evaluate left right)) := by
  obtain ⟨fr, reached, past, computes, _⟩ :=
    ofSteps_runs p host args operandA operandB readA readB typed.each atCheck nonzero
  refine ⟨fr, reached, past, ?_⟩
  obtain ⟨last, isLast, bits⟩ : ∃ last, q.steps.getLast? = some last ∧ last.bits = 1 := by
    simpa using typed.condition
  rw [List.getLast?_eq_getElem?] at isLast
  have size := Lowering.values_size i names q.steps
  have bound := (List.getElem?_eq_some_iff.mp isLast).1
  have inside : q.steps.length - 1 < (Lowering.ofSteps i names q.steps).values.size := by rwa [size]
  have value := Array.getElem?_eq_getElem inside
  have read := computes _ last _ isLast value
  have count := stepValues_size q.steps left right
  obtain ⟨v, at_last⟩ : ∃ v, (stepValues q.steps left right)[q.steps.length - 1]? = some v :=
    ⟨_, Array.getElem?_eq_getElem (by rwa [count])⟩
  rw [bits, valueAt_of_getElem? at_last] at read
  have back : (stepValues q.steps left right).back? = some v := by
    rw [Array.back?_eq_getElem?, count, at_last]
  have condition : (Guard.ofInstr i q names).1.condition =
      (Lowering.ofSteps i names q.steps).values[q.steps.length - 1] := by
    change (Lowering.ofSteps i names q.steps).values.back?.getD _ = _
    rw [Array.back?_eq_getElem?, size, value]
    rfl
  rw [condition, evaluate_eq_truth back (Frame.readWord_normal read)]
  exact read

theorem predicate_length (c : Candidate) (s : MulStrategy) : (c.predicate s).steps.length ≤ 64 := by
  obtain ⟨op, w⟩ := c
  cases op <;> cases w <;> cases s <;> decide +kernel

/-- Predicates have well-typed schedules. The check of a well-typed schedule runs to its end without a
trap, stores nothing but its own temporaries, and its condition then reads as what evaluating the
schedule on the operands gives. -/
theorem check_computes_evaluate {σ : Type} (p : Program) (host : Host σ) {c : Machine.Config σ}
    {i : Instr} {a b : Operand} {w : Width} {names : FreshNames} {q : Predicate}
    {left right : Int64} (typed : ScheduleTyped w q.steps) (args : i.args = [a, b])
    (operandA : Guardable c.frame.scope w a) (operandB : Guardable c.frame.scope w b)
    (readA : c.frame.readWord w.ty a = .ok (w.ty.normalize left))
    (readB : c.frame.readWord w.ty b = .ok (w.ty.normalize right))
    (atCheck : AtCheck c.frame names i (Guard.ofInstr i q names).1.check)
    (nonzero : DivisorsNonzero q.steps left right) :
    (∀ (candidate : Candidate) (s : MulStrategy),
      ScheduleTyped candidate.width (candidate.predicate s).steps ∧
        (candidate.predicate s).steps.length ≤ 64) ∧
    ∃ fr, Machine.after (Machine.step p host) (Guard.ofInstr i q names).1.check.length c =
        some { c with frame := fr } ∧
      Past c.frame fr (Guard.ofInstr i q names).1.check ∧
      fr.readWord .i1 (Guard.ofInstr i q names).1.condition =
        .ok (truth (q.evaluate left right)) :=
  ⟨fun candidate s => ⟨predicate_typed candidate s, predicate_length candidate s⟩,
    check_runs p host args operandA operandB readA readB typed atCheck nonzero⟩

/-- A quotient of 8 bits by a literal that reads as `-1`. -/
def quotient : Instr :=
  { result := some 1, op := .arith .sdiv, ty := .i8, args := [.temp 0, .int 255] }

def quotientGuard : Guard :=
  (Guard.ofInstr quotient (Candidate.predicate ⟨.div, .w8⟩ .widen) { nextTemp := 2 }).1

/-- A machine at the check of `quotient`, where the register of the operand reads as `-128`. -/
def atQuotient : Machine.Config Unit where
  frame := {
    func := {}
    scope := [(0, .i8), (2, .i1), (3, .i1), (4, .i1)]
    regs := #[.int 128, .int 0, .int 7, .text "old", .int 0]
    block := { instrs := quotientGuard.check } }
  state := ()

theorem quotientGuard_check : quotientGuard.check = [
    { result := some 2, op := .compare .eq, ty := .i1, args := [.int (-1), .int (-1)], wraps := true },
    { result := some 3, op := .compare .eq, ty := .i1, args := [.temp 0, .int (-128)], wraps := true },
    { result := some 4, op := .bitwise .and, ty := .i1, args := [.temp 2, .temp 3], wraps := true }] := by
  decide +kernel

theorem atCheck_quotient :
    AtCheck atQuotient.frame { nextTemp := 2 } quotient quotientGuard.check := by
  refine ⟨List.prefix_rfl, ?_, ?_, ?_, ?_⟩
  · unfold Lowering.Declares
    rw [quotientGuard_check]
    simp [atQuotient, Scope.ty?, List.lookup]
  · rw [quotientGuard_check]
    simp [atQuotient]
  · rw [quotientGuard_check]
    decide
  · intro id member
    obtain rfl : id = 0 := by simpa [quotient] using member
    decide

theorem check_computes_evaluate_quotient :
    ∃ fr, Machine.after (Machine.step {} Host.standard) quotientGuard.check.length atQuotient =
        some { atQuotient with frame := fr } ∧
      fr.regs[0]? = some (.int 128) ∧ fr.readWord .i1 quotientGuard.condition = .ok 1 := by
  have holds : (Candidate.predicate ⟨.div, .w8⟩ .widen).evaluate 128 255 = true := by decide +kernel
  have readA : atQuotient.frame.readWord Width.w8.ty (.temp 0) = .ok (Width.w8.ty.normalize 128) :=
    rfl
  have readB := atQuotient.frame.readWord_int Width.w8.ty 255
  obtain ⟨_, fr, reached, past, condition⟩ :=
    check_computes_evaluate (c := atQuotient) (i := quotient)
      (q := Candidate.predicate ⟨.div, .w8⟩ .widen) {} Host.standard
      (predicate_typed ⟨.div, .w8⟩ .widen) rfl (.temp 0 rfl) (.literal 255) readA readB
      atCheck_quotient (predicate_divisorsNonzero ⟨.div, .w8⟩ .widen 128 255)
  rw [holds] at condition
  refine ⟨fr, reached, past.others 0 ?_, condition⟩
  change ∀ j ∈ quotientGuard.check, _
  rw [quotientGuard_check]
  simp

end Overflow

end GuardedIL
