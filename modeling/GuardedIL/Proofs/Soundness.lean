import GuardedIL.Proofs.Mirror

/-!
# Accepted programs do not go wrong

What the machine looks up on its way is what the checker has found: blocks, registers, globals and
functions. So a run of an accepted program stands at an instruction with all its parts until it ends,
and a trap has one of six causes, which the checker does not rule out.
-/

namespace GuardedIL.Machine

open Typing Overflow

variable {σ : Type}

/-- The causes of traps in accepted programs. The first is that of a handler. -/
inductive Permitted : Cause → Prop
  | raised (fault : Fault) : Permitted (.raised fault)
  | divisionByZero : Permitted .divisionByZero
  | trapInstr : Permitted .trapInstr
  | depthExceeded (func : String) : Permitted (.depthExceeded func)
  | unresolvedExtern (name : String) : Permitted (.unresolvedExtern name)
  | globalAsValue (name : String) : Permitted (.globalAsValue name)

theorem Permitted.of_runtimeError {cause : Cause} (permitted : Permitted cause)
    (kind : cause.fault.kind = .runtimeError) :
    (∃ fault, cause = .raised fault) ∨ (∃ func, cause = .depthExceeded func) ∨
      (∃ name, cause = .unresolvedExtern name) ∨ ∃ name, cause = .globalAsValue name := by
  cases permitted with
  | raised fault => exact .inl ⟨fault, rfl⟩
  | divisionByZero => exact absurd kind (by decide)
  | trapInstr => exact absurd kind (by decide)
  | depthExceeded func => exact .inr (.inl ⟨func, rfl⟩)
  | unresolvedExtern name => exact .inr (.inr (.inl ⟨name, rfl⟩))
  | globalAsValue name => exact .inr (.inr (.inr ⟨name, rfl⟩))

/-- Everything that the instruction reads and writes in its frame is there, and a 32-bit word counts the
registers. -/
structure Provided (fr : Frame) (i : Instr) : Prop where
  registers : fr.regs.size < 2 ^ 32
  operands : i.op.shape.minArgs ≤ i.args.length
  labels : i.labels.length = i.op.shape.successors
  reads : ∀ id, .temp id ∈ i.args → id.toNat < fr.regs.size
  writes : ∀ id, i.result = some id → id.toNat < fr.regs.size
  targets : ∀ (n : Nat) (label : String), i.labels[n]? = some label →
    ∃ t, fr.func.blockLabelled? label = some t ∧ (i.argsTo n).length = t.params.length ∧
      (∀ id, .temp id ∈ i.argsTo n → id.toNat < fr.regs.size) ∧
      ∀ q ∈ t.params, q.id.toNat < fr.regs.size
  params : ∀ q ∈ fr.func.params, q.id.toNat < fr.regs.size

/-! ### Frames of a program -/

/-- A frame in a block of a function of the program, with all its registers. -/
structure Rooted (p : Program) (fr : Frame) : Prop where
  member : fr.func ∈ p.funcs
  scope : fr.scope = fr.func.scope
  size : fr.regs.size = fr.func.registerCount
  block : fr.block ∈ fr.func.blocks

structure Sound (p : Program) (fr : Frame) : Prop extends Rooted p fr where
  more : fr.block.instrs.drop fr.ip ≠ []

structure SoundConfig (p : Program) (c : Config σ) : Prop where
  frame : Sound p c.frame
  callers : ∀ k ∈ c.callers, Sound p k.frame

variable {p : Program} {fr : Frame} {i : Instr}

theorem Rooted.write (rooted : Rooted p fr) (id : TempId) (v : Value) : Rooted p (fr.write id v) :=
  { rooted with size := Array.size_setIfInBounds.trans rooted.size }

theorem Rooted.bindParams (rooted : Rooted p fr) (params : List Param) (values : List Value) :
    Rooted p (fr.bindParams params values) := by
  unfold Frame.bindParams
  induction params.zip values generalizing fr with
  | nil => exact rooted
  | cons pair rest ih => exact ih (rooted.write pair.1.id _)

theorem Sound.store (sound : Sound p fr) (result : Option TempId) (v : Value) :
    Sound p (fr.store result v) := by
  cases result with
  | none => exact sound
  | some id => exact ⟨sound.toRooted.write id v, sound.more⟩

theorem Rooted.goto (rooted : Rooted p fr) (typed : FuncTyped p fr.func) {t : Block}
    (member : t ∈ fr.func.blocks) (values : List Value) : Sound p (fr.goto t values) := by
  obtain ⟨func, _⟩ := bindParams_keeps fr t.params values
  have bound := rooted.bindParams t.params values
  refine ⟨⟨bound.member, bound.scope, bound.size, ?_⟩, instrs_ne_nil (typed.blocks t member)⟩
  change t ∈ (fr.bindParams t.params values).func.blocks
  rwa [func]

theorem Rooted.size_lt (rooted : Rooted p fr) (small : p.SmallIds) : fr.regs.size < 2 ^ 32 := by
  rw [rooted.size]
  exact Func.registerCount_lt (small _ rooted.member)

theorem Rooted.lt_size (rooted : Rooted p fr) {id : TempId} {ty : Ty}
    (typing : (id, ty) ∈ fr.func.typings) : id.toNat < fr.regs.size := by
  rw [rooted.size]
  exact Func.lt_registerCount_of_typing typing

theorem Rooted.lt_of_known (rooted : Rooted p fr) (typed : FuncTyped p fr.func) {id : TempId}
    (known : Known fr.scope (.temp id)) : id.toNat < fr.regs.size := by
  obtain ⟨ty, has⟩ := known id rfl
  rw [rooted.scope, Func.scope_ty?_iff typed.ids] at has
  exact rooted.lt_size has

theorem enter_sound {f : Func} (member : f ∈ p.funcs) (typed : FuncTyped p f) {args : List Value}
    (count : args.length = f.params.length) (depth : Nat) (site : Site) :
    (Frame.depthLimit ≤ depth ∧ Frame.enter f args depth site = .error (.depthExceeded f.name)) ∨
      ∃ fr, Frame.enter f args depth site = .ok fr ∧ Sound p fr := by
  obtain ⟨entry, later, blocks⟩ := List.exists_cons_of_ne_nil typed.nonempty
  have inside : entry ∈ f.blocks := by simp [blocks]
  simp only [Frame.enter, blocks, count]
  split_ifs with deep
  · exact .inl ⟨deep, rfl⟩
  · exact absurd rfl ‹_›
  · refine .inr ⟨_, rfl, ?_⟩
    generalize initial : ({ func := f, scope := f.scope
                            regs := Array.replicate f.registerCount (.int 0), block := entry
                            site } : Frame) = fr
    have rooted : Rooted p fr := by
      subst initial
      exact ⟨member, rfl, by simp, inside⟩
    obtain ⟨_, block, ip⟩ := bindParams_keeps fr f.params args
    refine ⟨rooted.bindParams f.params args, ?_⟩
    rw [block, ip, ← initial]
    exact instrs_ne_nil (typed.blocks entry inside)

/-! ### Effects -/

/-- What an instruction of the function `f` may do. Only a terminator leaves the block. -/
inductive Safe (p : Program) (f : Func) (i : Instr) : Except Cause (Effect σ) → Prop
  | error {cause : Cause} (permitted : Permitted cause) : Safe p f i (.error cause)
  | store (v : Value) (straight : i.op.isTerminator = false) : Safe p f i (.ok (.store v))
  | jump (t : Block) (values : List Value) (member : t ∈ f.blocks) : Safe p f i (.ok (.jump t values))
  | enter (callee : Func) (args : List Value) (member : callee ∈ p.funcs)
    (count : args.length = callee.params.length) (straight : i.op.isTerminator = false) :
    Safe p f i (.ok (.enter callee args))
  | handle (handler : Handler σ) (args : List Value) (straight : i.op.isTerminator = false) :
    Safe p f i (.ok (.handle handler args))
  | leave (v : Value) : Safe p f i (.ok (.leave v))

theorem bind_ok {ε α β : Type} {x : Except ε α} {g : α → Except ε β} {b : β} (ok : (x >>= g) = .ok b) :
    ∃ a, x = .ok a ∧ g a = .ok b := by
  cases x with
  | error cause => simp [bind, Except.bind] at ok
  | ok a => exact ⟨a, rfl, ok⟩

theorem Safe.bind {f : Func} {α : Type} {x : Except Cause α} {g : α → Except Cause (Effect σ)}
    (permitted : ∀ cause, x = .error cause → Permitted cause)
    (safe : ∀ a, x = .ok a → Safe p f i (g a)) : Safe p f i (x >>= g) := by
  cases x with
  | error cause => exact .error (permitted cause rfl)
  | ok a => exact safe a rfl

section Reads

variable (rooted : Rooted p fr) (typed : FuncTyped p fr.func)
include rooted typed

theorem read_permitted {o : Operand} (known : Known fr.scope o) (ty : Ty) :
    ∀ cause, fr.read ty o = .error cause → Permitted cause := by
  intro cause fails
  cases o with
  | temp id =>
    have inside := rooted.lt_of_known typed known
    simp [Frame.read, Array.getElem?_eq_getElem inside] at fails
  | global name =>
    obtain rfl := Except.error.inj fails
    exact .globalAsValue name
  | _ => simp [Frame.read] at fails

theorem readWord_permitted {o : Operand} (known : Known fr.scope o) (ty : Ty) :
    ∀ cause, fr.readWord ty o = .error cause → Permitted cause := by
  intro cause fails
  unfold Frame.readWord at fails
  split at fails
  · simp at fails
  · rename_i cause' read
    obtain rfl := Except.error.inj fails
    exact read_permitted rooted typed known ty _ read

theorem readAll_permitted {operands : List (Ty × Operand)}
    (known : ∀ pair ∈ operands, Known fr.scope pair.2) :
    ∀ cause, fr.readAll operands = .error cause → Permitted cause := by
  induction operands with
  | nil => simp [Frame.readAll]
  | cons pair rest ih =>
    obtain ⟨ty, o⟩ := pair
    intro cause fails
    rw [Frame.readAll] at fails
    cases first : fr.read ty o with
    | error cause' =>
      rw [first] at fails
      obtain rfl := Except.error.inj fails
      exact read_permitted rooted typed (known _ List.mem_cons_self) ty _ first
    | ok v =>
      cases later : fr.readAll rest with
      | error cause' =>
        rw [first, later] at fails
        obtain rfl := Except.error.inj fails
        exact ih (fun pair member => known pair (List.mem_cons_of_mem _ member)) _ later
      | ok vs =>
        rw [first, later] at fails
        exact absurd fails (by simp [bind, Except.bind, pure, Except.pure])

omit rooted typed in
theorem readAll_ok {operands : List (Ty × Operand)} {values : List Value} :
    fr.readAll operands = .ok values ↔
      List.Forall₂ (fun pair v => fr.read pair.1 pair.2 = .ok v) operands values := by
  induction operands generalizing values with
  | nil => simp [Frame.readAll, eq_comm]
  | cons pair rest ih =>
    obtain ⟨ty, o⟩ := pair
    rw [Frame.readAll, List.forall₂_cons_left_iff]
    cases first : fr.read ty o with
    | error cause => simp [bind, Except.bind]
    | ok v =>
      cases later : fr.readAll rest with
      | error cause => simp [← ih, later, bind, Except.bind]
      | ok vs =>
        simp only [← ih, later, Except.ok.injEq, exists_eq_left', exists_and_left]
        exact ⟨fun same => (Except.ok.inj same).symm, fun same => congrArg Except.ok same.symm⟩

omit rooted typed in
theorem readAll_length {operands : List (Ty × Operand)} {values : List Value}
    (read : fr.readAll operands = .ok values) : values.length = operands.length :=
  (readAll_ok.mp read).length_eq.symm

theorem jump_safe {label : String} {t : Block} {args : List Operand}
    (target : fr.func.blockLabelled? label = some t) (count : args.length = t.params.length)
    (known : ∀ o ∈ args, Known fr.scope o) :
    Safe p fr.func i (jump fr label args : Except Cause (Effect σ)) := by
  simp only [jump, target, count, ne_eq, not_true_eq_false, if_false]
  refine Safe.bind (readAll_permitted rooted typed fun pair inside => ?_) fun values _ => ?_
  · exact known pair.2 (List.of_mem_zip inside).2
  · exact .jump t values (mem_of_blockLabelled? target).1

end Reads

/-- A name of a function is the name of no external function and of no other function. -/
theorem signature?_func (typed : ProgramTyped p) {f : Func} (member : f ∈ p.funcs) :
    p.funcNamed? f.name = some f ∧ p.signature? f.name = some f.signature := by
  obtain ⟨_, distinct, apart⟩ := List.nodup_append.mp typed.names
  have named : p.funcNamed? f.name = some f := by
    rw [Program.funcNamed?, List.find?_eq_some_iff_getElem]
    obtain ⟨n, inside, rfl⟩ := List.mem_iff_getElem.mp member
    refine ⟨by simp, n, inside, rfl, fun m before => ?_⟩
    have differ := List.pairwise_iff_getElem.mp distinct m n (by simp; omega) (by simpa using inside)
      before
    simpa using differ
  have noExtern : p.externNamed? f.name = none := by
    rw [Program.externNamed?, List.find?_eq_none]
    intro e isExtern same
    exact apart _ (List.mem_map_of_mem isExtern) _ (List.mem_map_of_mem member) (by simpa using same)
  exact ⟨named, by rw [Program.signature?, noExtern, named]; rfl⟩

theorem call_safe (typed : ProgramTyped p) (host : Host σ) (rooted : Rooted p fr)
    (straight : i.op.isTerminator = false) {sig : Signature} (signature : p.signature? i.callee = some sig)
    (count : i.args.length = sig.params.length) (known : ∀ o ∈ i.args, Known fr.scope o) :
    Safe p fr.func i (call p host fr i) := by
  have func := typed.funcs _ rooted.member
  unfold call
  cases found : p.funcNamed? i.callee with
  | some callee =>
    have member := List.mem_of_find?_eq_some found
    have name : callee.name = i.callee := by simpa using List.find?_some found
    rw [← name, (signature?_func typed member).2] at signature
    obtain rfl := Option.some.inj signature
    refine Safe.bind (readAll_permitted rooted func fun pair inside => ?_) fun args read => ?_
    · obtain ⟨⟨o, n⟩, member, rfl⟩ := List.mem_map.mp inside
      exact known o (List.fst_mem_of_mem_zipIdx member)
    · refine .enter callee args member ?_ straight
      rw [readAll_length read, List.length_map, List.length_zipIdx, count]
      simp [Func.signature]
  | none =>
    cases host.handler? i.callee with
    | none => exact .error (.unresolvedExtern _)
    | some handler =>
      refine Safe.bind (readAll_permitted rooted func fun pair inside => ?_) fun args _ =>
        .handle handler args straight
      obtain ⟨o, member, rfl⟩ := List.mem_map.mp inside
      exact known o member

theorem effect_safe (typed : ProgramTyped p) (host : Host σ) (rooted : Rooted p fr)
    (admitted : Admitted ⟨p, fr.func, fr.scope⟩ i) : Safe p fr.func i (effect p host fr i) := by
  have func := typed.funcs _ rooted.member
  have known := known_args admitted.typed
  have word : ∀ o ∈ i.args, ∀ ty cause, fr.readWord ty o = .error cause → Permitted cause :=
    fun o member ty => readWord_permitted rooted func (known o member) ty
  have branch : ∀ (n : Nat) (label : String), i.labels[n]? = some label →
      Safe p fr.func i (jump fr label (i.argsTo n) : Except Cause (Effect σ)) := by
    intro n label successor
    obtain ⟨t, target, count, _⟩ := admitted.branches n label successor
    exact jump_safe rooted func target count (known_argsTo admitted.branches successor)
  cases admitted.typed with
  | arith op a b isOp args result =>
    have straight := (admitted.typed.straight result).1
    simp only [effect, isOp, args]
    refine Safe.bind (word a (by simp [args]) _) fun x _ => ?_
    refine Safe.bind (word b (by simp [args]) _) fun y _ => ?_
    cases op.onWords? i.ty x y with
    | none => exact .error .divisionByZero
    | some z => exact .store _ straight
  | bitwise op a b isOp args result =>
    have straight := (admitted.typed.straight result).1
    simp only [effect, isOp, args]
    refine Safe.bind (word a (by simp [args]) _) fun x _ => ?_
    exact Safe.bind (word b (by simp [args]) _) fun y _ => .store _ straight
  | compare op a b ta tb isOp args result =>
    have straight := (admitted.typed.straight result).1
    simp only [effect, isOp, args]
    refine Safe.bind (word a (by simp [args]) _) fun x _ => ?_
    exact Safe.bind (word b (by simp [args]) _) fun y _ => .store _ straight
  | cast op a source isOp args result =>
    have straight := (admitted.typed.straight result).1
    simp only [effect, isOp, args]
    exact Safe.bind (word a (by simp [args]) _) fun x _ => .store _ straight
  | constStr name isOp args result labels text found =>
    have straight := (admitted.typed.straight result).1
    obtain ⟨g, same⟩ := Option.isSome_iff_exists.mp found
    simp only at same
    simp only [effect, isOp, args, globalName, same]
    exact .store _ straight
  | call sig isOp labels signature count =>
    simp only [effect, isOp]
    exact call_safe typed host rooted (by simp [isOp, Opcode.isTerminator, Opcode.shape]) signature
      count known
  | br isOp args result labels =>
    obtain ⟨label, only⟩ := List.length_eq_one_iff.mp labels
    simp only [effect, isOp, only]
    exact branch 0 label (by simp [only])
  | cbr a isOp args result labels =>
    obtain ⟨first, second, both⟩ := List.length_eq_two.mp labels
    simp only [effect, isOp, args]
    refine Safe.bind (word a (by simp [args]) _) fun x _ => ?_
    cases successor : i.labels[if x = 0 then 1 else 0]? with
    | none => split_ifs at successor <;> simp [both] at successor
    | some label => exact branch _ label successor
  | ret isOp =>
    cases args : i.args with
    | nil =>
      simp only [effect, isOp, args]
      exact .leave _
    | cons a rest =>
      simp only [effect, isOp, args]
      exact Safe.bind (read_permitted rooted func (known a (by simp [args])) _) fun v _ => .leave _
  | trap isOp =>
    simp only [effect, isOp]
    exact .error .trapInstr

/-! ### Steps and runs -/

inductive SoundStep (p : Program) : Step σ → Prop
  | next {c : Config σ} (sound : SoundConfig p c) : SoundStep p (.next c)
  | returned (v : Option Value) (state : σ) : SoundStep p (.halt (.returned v) state)
  | trapped {t : Trap} (permitted : Permitted t.cause) (state : σ) : SoundStep p (.halt (.trapped t) state)

theorem perform_sound (typed : ProgramTyped p) {c : Config σ} {e : Effect σ}
    (rooted : Rooted p c.frame) (callers : ∀ k ∈ c.callers, Sound p k.frame)
    (safe : Safe p c.frame.func i (.ok e))
    (later : i.op.isTerminator = false → Sound p c.frame) : SoundStep p (perform c i e) := by
  cases safe with
  | store v straight => exact .next ⟨(later straight).store _ v, callers⟩
  | jump t values member =>
    exact .next ⟨rooted.goto (typed.funcs _ rooted.member) member values, callers⟩
  | enter callee args member count straight =>
    rcases enter_sound member (typed.funcs callee member) count (c.callers.length + 1) c.frame.site with
      ⟨_, enters⟩ | ⟨fr, enters, sound⟩
    · simp only [perform, enters]
      exact .trapped (.depthExceeded _) _
    · simp only [perform, enters]
      refine .next ⟨sound, fun k member => ?_⟩
      rcases List.mem_cons.mp member with rfl | waiting
      · exact later straight
      · exact callers k waiting
  | handle handler args straight =>
    simp only [perform]
    cases handler args c.state with
    | mk answer state =>
      cases answer with
      | error fault => exact .trapped (.raised _) _
      | ok v => exact .next ⟨(later straight).store _ _, callers⟩
  | leave v =>
    cases waiting : c.callers with
    | nil =>
      simp only [perform, waiting]
      exact .returned _ _
    | cons k rest =>
      simp only [perform, waiting]
      rw [waiting] at callers
      exact .next ⟨(callers k List.mem_cons_self).store _ _, fun k' member =>
        callers k' (List.mem_cons_of_mem _ member)⟩

section Accepted

variable (typed : ProgramTyped p)
include typed

theorem Sound.admitted (sound : Sound p fr) (here : fr.block.instrs[fr.ip]? = some i) :
    Admitted ⟨p, fr.func, fr.scope⟩ i := by
  rw [sound.scope]
  exact (typed.funcs _ sound.member).admitted sound.block (List.mem_of_getElem? here)

theorem Sound.declares (sound : Sound p fr) (here : fr.block.instrs[fr.ip]? = some i) {id : TempId}
    (result : i.result = some id) : fr.func.scope.ty? id = some i.ty :=
  Func.scope_ty?_result (typed.funcs _ sound.member).ids sound.block (List.mem_of_getElem? here) result

theorem Sound.next (sound : Sound p fr) : ∃ i rest, fr.block.instrs.drop fr.ip = i :: rest ∧
    fr.block.instrs[fr.ip]? = some i ∧ Admitted ⟨p, fr.func, fr.scope⟩ i := by
  obtain ⟨i, rest, next⟩ := List.exists_cons_of_ne_nil sound.more
  have here := getElem?_of_drop next
  exact ⟨i, rest, next, here, sound.admitted typed here⟩

theorem step_sound (host : Host σ) {c : Config σ} (sound : SoundConfig p c) :
    SoundStep p (step p host c) := by
  obtain ⟨i, rest, next, here, admitted⟩ := sound.frame.next typed
  have rooted : Rooted p (c.frame.advance i) := { sound.frame.toRooted with }
  have safe : Safe p c.frame.func i (effect p host (c.frame.advance i) i) :=
    effect_safe typed host rooted admitted
  simp only [step, here]
  generalize effect p host (c.frame.advance i) i = result at safe ⊢
  cases result with
  | error cause =>
    cases safe with
    | error permitted => exact .trapped permitted _
  | ok e =>
    refine perform_sound typed rooted sound.callers safe fun straight => ⟨rooted, ?_⟩
    -- An accepted block ends in a terminator, so another instruction follows.
    have block := (typed.funcs _ sound.frame.member).blocks _ sound.frame.block
    have follows : c.frame.block.instrs.drop (c.frame.ip + 1) = rest := by
      rw [← List.drop_drop, next]
      rfl
    change c.frame.block.instrs.drop (c.frame.ip + 1) ≠ []
    rw [follows]
    exact rest_ne_nil block next straight

theorem after_sound {host : Host σ} {c d : Config σ} {n : Nat} (sound : SoundConfig p c)
    (reached : after (step p host) n c = some d) : SoundConfig p d := by
  refine after_invariant (fun c d sound moves => ?_) sound reached
  have moved := step_sound typed host sound
  rw [moves] at moved
  cases moved with
  | next sound => exact sound

theorem start_sound {name : String} {args : List Value} {state : σ} {c : Config σ}
    (starts : start p name args state = .ok c) : SoundConfig p c := by
  unfold start at starts
  cases found : p.funcNamed? name with
  | none => simp [found] at starts
  | some f =>
    have member := List.mem_of_find?_eq_some found
    simp only [found] at starts
    obtain ⟨fr, enters, done⟩ := bind_ok starts
    obtain rfl := Except.ok.inj done
    -- Any other number of arguments is refused on entry.
    have count : args.length = f.params.length := by
      by_contra differ
      obtain ⟨entry, later, blocks⟩ := List.exists_cons_of_ne_nil (typed.funcs f member).nonempty
      simp [Frame.enter, blocks, differ, Frame.depthLimit] at enters
    rcases enter_sound member (typed.funcs f member) count 0 {} with ⟨deep, _⟩ | ⟨fr', enters', sound⟩
    · exact absurd deep (by decide)
    · obtain rfl := Except.ok.inj (enters.symm.trans enters')
      exact ⟨sound, by simp⟩

theorem Sound.provided (small : p.SmallIds) (sound : Sound p fr) :
    ∃ i, fr.block.instrs[fr.ip]? = some i ∧ Provided fr i := by
  obtain ⟨i, _, _, here, admitted⟩ := sound.next typed
  have func := typed.funcs _ sound.member
  have register : ∀ {id ty}, fr.func.scope.ty? id = some ty → id.toNat < fr.regs.size := fun declared =>
    sound.toRooted.lt_size ((Func.scope_ty?_iff func.ids).mp declared)
  obtain ⟨shape, _⟩ := seq_ok.mp ((checkInstr_iff _ i).mpr admitted.typed)
  obtain ⟨operands, _, _, _, labels⟩ := checkShape_ok.mp shape
  refine ⟨i, here, sound.toRooted.size_lt small, operands, labels, ?_, ?_, ?_, ?_⟩
  · intro id member
    exact sound.toRooted.lt_of_known func (known_args admitted.typed _ member)
  · intro id result
    exact register (sound.declares typed here result)
  · intro n label successor
    obtain ⟨t, target, count, _⟩ := admitted.branches n label successor
    refine ⟨t, target, count, fun id member => ?_, fun q member => ?_⟩
    · exact sound.toRooted.lt_of_known func (known_argsTo admitted.branches successor _ member)
    · exact register (Func.scope_ty?_blockParam func.ids (mem_of_blockLabelled? target).1 member)
  · intro q member
    exact register (Func.scope_ty?_param func.ids member)

end Accepted

end GuardedIL.Machine

namespace GuardedIL.Program

open Machine Typing

/-- A function of an accepted program starts on as many arguments as it has parameters, stands at an
instruction with all its parts for as long as it runs, and traps for no cause but those permitted. Of
these, three are runtime errors of the machine itself. -/
theorem verified_run_sound {σ : Type} {p : Program} {f : Func} {args : List Value}
    (accepted : p.verify = .ok ()) (small : p.SmallIds) (member : f ∈ p.funcs)
    (count : args.length = f.params.length) (host : Host σ) (state : σ) :
    ∃ c, start p f.name args state = .ok c ∧
      (∀ n d, after (step p host) n c = some d →
        ∃ i, d.frame.block.instrs[d.frame.ip]? = some i ∧ Provided d.frame i) ∧
      ∀ bound t final, run p host bound f.name args state = some (.trapped t, final) →
        Permitted t.cause ∧ (t.cause.fault.kind = .runtimeError →
          (∃ fault, t.cause = .raised fault) ∨ (∃ func, t.cause = .depthExceeded func) ∨
          (∃ name, t.cause = .unresolvedExtern name) ∨ ∃ name, t.cause = .globalAsValue name) := by
  rw [verify_iff] at accepted
  obtain ⟨named, _⟩ := signature?_func accepted member
  obtain ⟨fr, enters⟩ : ∃ fr, Frame.enter f args 0 {} = .ok fr := by
    rcases enter_sound member (accepted.funcs f member) count 0 {} with ⟨deep, _⟩ | ⟨fr, enters, _⟩
    · exact absurd deep (by decide)
    · exact ⟨fr, enters⟩
  have starts : start p f.name args state = .ok { frame := fr, state } := by
    simp only [start, named, enters]
    rfl
  have sound := start_sound accepted starts
  refine ⟨_, starts, fun n d reached => ?_, fun bound t final ends => ?_⟩
  · exact (after_sound accepted sound reached).frame.provided accepted small
  · simp only [run, starts, runFrom_eq_iterate] at ends
    obtain ⟨n, d, reached, halts⟩ := exists_halt ends
    have last := step_sound accepted host (after_sound accepted sound reached)
    rw [halts] at last
    cases last with
    | trapped permitted => exact ⟨permitted, permitted.of_runtimeError⟩

/-- `main n` reports `n`, `n - 1` and so on to an external function, until it comes to zero. -/
def countdown : Program where
  externs := [{ name := "report", params := [.i32] }]
  funcs := [{
    name := "main"
    params := [{ name := "n", ty := .i32, id := 4 }]
    blocks := [
      { label := "entry"
        instrs := [{ op := .br, labels := ["loop"], labelArgs := [[.temp 4]] }] },
      { label := "loop", params := [{ name := "k", ty := .i32, id := 0 }]
        instrs := [
          { result := some 1, op := .compare .eq, ty := .i1, args := [.temp 0, .int 0] },
          { op := .cbr, args := [.temp 1], labels := ["done", "more"] }] },
      { label := "more"
        instrs := [
          { op := .call, callee := "report", args := [.temp 0] },
          { result := some 2, op := .arith .sub, ty := .i32, args := [.temp 0, .int 1] },
          { op := .br, labels := ["loop"], labelArgs := [[.temp 2]] }] },
      { label := "done", instrs := [{ op := .ret }] }] }]

/-- Without a handler the first report is the end of the run; it is reached with all its parts. -/
theorem verified_run_sound_countdown : countdown.verify = .ok () ∧ countdown.SmallIds ∧
    ∃ c, start countdown "main" [.int 2] () = .ok c ∧
      (∃ d i, after (step countdown Host.empty) 3 c = some d ∧
        d.frame.block.instrs[d.frame.ip]? = some i ∧ i.op = .call ∧ Provided d.frame i) ∧
      ∃ t, run countdown Host.empty 4 "main" [.int 2] () = some (.trapped t, ()) ∧
        t.cause = .unresolvedExtern "report" ∧ Permitted t.cause := by
  have accepted : countdown.verify = .ok () := by decide +kernel
  have small : countdown.SmallIds := by decide +kernel
  obtain ⟨c, starts, stands, ends⟩ := @verified_run_sound Unit countdown countdown.funcs[0] [.int 2]
    accepted small List.mem_cons_self rfl Host.empty ()
  have reports : ((after (step countdown Host.empty) 3 c).bind fun d =>
      d.frame.block.instrs[d.frame.ip]?).map (·.op) = some .call := by
    obtain rfl := Except.ok.inj starts
    decide +kernel
  have traps : run countdown Host.empty 4 "main" [.int 2] () =
      some (.trapped ⟨.unresolvedExtern "report", ⟨"main", "more", 0, -1⟩⟩, ()) := by decide +kernel
  refine ⟨accepted, small, c, starts, ?_, _, traps, rfl, (ends 4 _ () traps).1⟩
  cases reached : after (step countdown Host.empty) 3 c with
  | none => simp [reached] at reports
  | some d =>
    obtain ⟨i, here, provided⟩ := stands 3 d reached
    simp only [reached, Option.bind_some, here, Option.map_some, Option.some.injEq] at reports
    exact ⟨d, i, rfl, here, reports, provided⟩

end GuardedIL.Program
