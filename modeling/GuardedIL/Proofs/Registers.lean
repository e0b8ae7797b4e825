import GuardedIL.Proofs.Soundness

/-!
# Registers hold normalised values

Whatever writes a register of an accepted program normalises the value first, at the one type that its
temporary has: arithmetic, casts, calls, the parameters of blocks and functions. So the words in registers
are always those of their types, and so are the words that functions return.
-/

namespace GuardedIL

theorem Ty.normalize_zero (t : Ty) : t.normalize 0 = 0 := by
  cases t <;> decide

theorem Value.normalize_normalize (t : Ty) (v : Value) : (v.normalize t).normalize t = v.normalize t := by
  unfold Value.normalize
  split
  · rw [Value.word, Ty.normalize_normalize]
  · rfl

theorem Value.normalize_int (t : Ty) (w : Int64) : (Value.int w).normalize t = .int (t.normalize w) := by
  cases t <;> rfl

/-- Every temporary of the function has a register, whose value is normalised at the type it declares. -/
def Frame.Normal (fr : Frame) : Prop :=
  ∀ id ty, fr.func.scope.ty? id = some ty → ∃ v, fr.regs[id.toNat]? = some v ∧ v.normalize ty = v

namespace Frame.Normal

variable {fr : Frame} (normal : fr.Normal)
include normal

theorem write {id : TempId} {ty : Ty} (declared : fr.func.scope.ty? id = some ty) {v : Value}
    (same : v.normalize ty = v) : (fr.write id v).Normal := by
  intro id' ty' declared'
  change fr.func.scope.ty? id' = some ty' at declared'
  obtain ⟨old, register, kept⟩ := normal id' ty' declared'
  have inside : id'.toNat < fr.regs.size := (Array.getElem?_eq_some_iff.mp register).1
  change ∃ v', (fr.regs.setIfInBounds id.toNat v)[id'.toNat]? = some v' ∧ v'.normalize ty' = v'
  rw [Array.getElem?_setIfInBounds]
  by_cases here : id.toNat = id'.toNat
  · obtain rfl := UInt32.toNat_inj.mp here
    obtain rfl := Option.some.inj (declared.symm.trans declared')
    exact ⟨v, by rw [if_pos rfl, if_pos inside], same⟩
  · exact ⟨old, by rw [if_neg here, register], kept⟩

theorem store {result : Option TempId} {ty : Ty}
    (declared : ∀ id, result = some id → fr.func.scope.ty? id = some ty) {v : Value}
    (same : v.normalize ty = v) : (fr.store result v).Normal := by
  cases result with
  | none => exact normal
  | some id => exact normal.write (declared id rfl) same

theorem bindParams {params : List Param}
    (declared : ∀ q ∈ params, fr.func.scope.ty? q.id = some q.ty) (values : List Value) :
    (fr.bindParams params values).Normal := by
  have pairs : ∀ pair ∈ params.zip values, fr.func.scope.ty? pair.1.id = some pair.1.ty :=
    fun pair member => declared _ (List.of_mem_zip member).1
  unfold Frame.bindParams
  clear declared
  generalize params.zip values = bound at pairs ⊢
  induction bound generalizing fr with
  | nil => exact normal
  | cons pair rest ih =>
    refine ih (normal.write (pairs pair List.mem_cons_self) (Value.normalize_normalize _ _)) ?_
    exact fun later member => pairs later (List.mem_cons_of_mem _ member)

end Frame.Normal

namespace Machine

open Typing Overflow

variable {σ : Type} {p : Program}

/-! ### Activations -/

theorem enter_ok {f : Func} {args : List Value} {depth : Nat} {site : Site} {fr : Frame}
    (enters : Frame.enter f args depth site = .ok fr) :
    ∃ entry, entry ∈ f.blocks ∧ fr = Frame.bindParams
      { func := f, scope := f.scope, regs := Array.replicate f.registerCount (.int 0), block := entry, site }
      f.params args := by
  unfold Frame.enter at enters
  split at enters
  · simp at enters
  · split at enters
    · simp at enters
    · rename_i entry later blocks
      split at enters
      · simp at enters
      · exact ⟨entry, by rw [blocks]; exact List.mem_cons_self, (Except.ok.inj enters).symm⟩

theorem enter_normal {f : Func} (typed : FuncTyped p f) {args : List Value} {depth : Nat} {site : Site}
    {fr : Frame} (enters : Frame.enter f args depth site = .ok fr) : fr.func = f ∧ fr.Normal := by
  obtain ⟨entry, _, rfl⟩ := enter_ok enters
  refine ⟨(bindParams_keeps _ _ _).1, Frame.Normal.bindParams ?_ (fun q member => ?_) args⟩
  · intro id ty declared
    have inside := Func.lt_registerCount_of_typing ((Func.scope_ty?_iff typed.ids).mp declared)
    exact ⟨.int 0, by simp [inside], by rw [Value.normalize_int, Ty.normalize_zero]⟩
  · exact Func.scope_ty?_param typed.ids member

/-! ### Effects -/

/-- What the instruction of the function `f` stores or returns is normalised, and what calls is a call. -/
def Effect.Normal (f : Func) (i : Instr) : Effect σ → Prop
  | .store v => v.normalize i.ty = v
  | .leave v => v.normalize f.ret = v
  | .enter _ _ | .handle _ _ => i.op = .call
  | .jump _ _ => True

section Effect

variable {f : Func} {fr : Frame} {i : Instr} {e : Effect σ}

theorem stored_normal {v : Value} (ok : (pure (Effect.store v) : Except Cause (Effect σ)) = .ok e)
    (same : v.normalize i.ty = v) : e.Normal f i := by
  obtain rfl := Except.ok.inj ok
  exact same

theorem jump_normal {label : String} {args : List Operand}
    (ok : (jump fr label args : Except Cause (Effect σ)) = .ok e) : e.Normal f i := by
  unfold jump at ok
  split at ok
  · simp at ok
  · split at ok
    · simp at ok
    · obtain ⟨values, _, done⟩ := bind_ok ok
      obtain rfl := Except.ok.inj done
      trivial

theorem call_normal {host : Host σ} (isCall : i.op = .call) (ok : call p host fr i = .ok e) :
    e.Normal f i := by
  unfold call at ok
  split at ok
  · obtain ⟨args, _, done⟩ := bind_ok ok
    obtain rfl := Except.ok.inj done
    exact isCall
  · split at ok
    · simp at ok
    · obtain ⟨args, _, done⟩ := bind_ok ok
      obtain rfl := Except.ok.inj done
      exact isCall

theorem effect_normal {host : Host σ} (ok : effect p host fr i = .ok e)
    (typed : Typed ⟨p, fr.func, fr.scope⟩ i) : e.Normal fr.func i := by
  have word : ∀ w, (Value.int (i.ty.normalize w)).normalize i.ty = .int (i.ty.normalize w) := fun w => by
    rw [Value.normalize_int, Ty.normalize_normalize]
  cases typed with
  | arith op a b isOp args =>
    simp only [effect, isOp, args] at ok
    obtain ⟨x, _, ok⟩ := bind_ok ok
    obtain ⟨y, _, ok⟩ := bind_ok ok
    split at ok
    · exact stored_normal ok (word _)
    · simp at ok
  | bitwise op a b isOp args =>
    simp only [effect, isOp, args] at ok
    obtain ⟨x, _, ok⟩ := bind_ok ok
    obtain ⟨y, _, ok⟩ := bind_ok ok
    exact stored_normal ok (word _)
  | compare op a b ta tb isOp args result labels condition =>
    simp only [effect, isOp, args] at ok
    obtain ⟨x, _, ok⟩ := bind_ok ok
    obtain ⟨y, _, ok⟩ := bind_ok ok
    refine stored_normal ok ?_
    rw [condition, Value.normalize_int]
    exact congrArg Value.int (normalize_truth _)
  | cast op a source isOp args =>
    simp only [effect, isOp, args] at ok
    obtain ⟨x, _, ok⟩ := bind_ok ok
    refine stored_normal ok ?_
    cases op <;> exact word _
  | constStr name isOp args result labels text =>
    simp only [effect, isOp, args] at ok
    split at ok
    · refine stored_normal ok ?_
      rw [text]
      rfl
    · simp at ok
  | call sig isOp =>
    simp only [effect, isOp] at ok
    exact call_normal isOp ok
  | br isOp args result labels =>
    obtain ⟨label, only⟩ := List.length_eq_one_iff.mp labels
    simp only [effect, isOp, only] at ok
    exact jump_normal ok
  | cbr a isOp args =>
    simp only [effect, isOp, args] at ok
    obtain ⟨x, _, ok⟩ := bind_ok ok
    split at ok
    · exact jump_normal ok
    · simp at ok
  | ret isOp result labels count form =>
    cases args : i.args with
    | nil =>
      simp only [effect, isOp, args] at ok
      obtain rfl := Except.ok.inj ok
      change (Value.int 0).normalize fr.func.ret = .int 0
      rw [Value.normalize_int, Ty.normalize_zero]
    | cons a rest =>
      simp only [effect, isOp, args] at ok
      obtain ⟨v, _, done⟩ := bind_ok ok
      obtain rfl := Except.ok.inj done
      exact Value.normalize_normalize _ _
  | trap isOp =>
    simp only [effect, isOp] at ok
    simp at ok

end Effect

/-! ### Steps -/

theorem step_next {host : Host σ} {c d : Config σ} (moves : step p host c = .next d) :
    ∃ i e, c.frame.block.instrs[c.frame.ip]? = some i ∧
      effect p host (c.frame.advance i) i = .ok e ∧
      perform { c with frame := c.frame.advance i } i e = .next d := by
  unfold step at moves
  split at moves
  · simp at moves
  · rename_i i here
    dsimp only at moves
    split at moves
    · simp at moves
    · rename_i e effects
      exact ⟨i, e, here, effects, moves⟩

theorem step_returned {host : Host σ} {c : Config σ} {v : Value} {final : σ}
    (halts : step p host c = .halt (.returned (some v)) final) :
    ∃ i, c.frame.block.instrs[c.frame.ip]? = some i ∧
      effect p host (c.frame.advance i) i = .ok (.leave v) ∧ c.callers = [] := by
  unfold step at halts
  split at halts
  · simp at halts
  · rename_i i here
    dsimp only at halts
    split at halts
    · simp at halts
    · rename_i e effects
      unfold perform at halts
      split at halts
      · simp at halts
      · simp at halts
      · split at halts <;> simp at halts
      · split at halts <;> simp at halts
      · split at halts
        · rename_i alone
          obtain ⟨returned, _⟩ := Step.halt.inj halts
          obtain ⟨_, same⟩ := Option.ite_none_left_eq_some.mp (Outcome.returned.inj returned)
          obtain rfl := Option.some.inj same
          exact ⟨i, here, effects, alone⟩
        · simp at halts

/-- Where a step leads: on in the running frame, into another function, or back to a frame that waits. -/
inductive Moved (c d : Config σ) (i : Instr) : Prop
  | within (func : d.frame.func = c.frame.func) (callers : d.callers = c.callers)
  | called (callers : d.callers = ⟨c.frame, i⟩ :: c.callers)
  | returned (k : Caller) (callers : c.callers = k :: d.callers) (func : d.frame.func = k.frame.func)

theorem perform_moved {c d : Config σ} {i : Instr} {e : Effect σ} (moves : perform c i e = .next d) :
    Moved c d i := by
  unfold perform at moves
  split at moves
  · obtain rfl := Step.next.inj moves
    exact .within (store_keeps _ _ _).1 rfl
  · obtain rfl := Step.next.inj moves
    exact .within (bindParams_keeps c.frame _ _).1 rfl
  · split at moves
    · simp at moves
    · obtain rfl := Step.next.inj moves
      exact .called rfl
  · split at moves
    · simp at moves
    · obtain rfl := Step.next.inj moves
      exact .within (store_keeps _ _ _).1 rfl
  · split at moves
    · simp at moves
    · rename_i k rest callers
      obtain rfl := Step.next.inj moves
      exact .returned k callers (store_keeps k.frame _ _).1

/-- The function in which the run has started. -/
def Config.base (c : Config σ) : Func :=
  (c.callers.getLast?.map (·.frame.func)).getD c.frame.func

theorem Moved.base {c d : Config σ} {i : Instr} (moved : Moved c d i) : d.base = c.base := by
  unfold Config.base
  cases moved with
  | within func callers => rw [func, callers]
  | called callers =>
    rw [callers, List.getLast?_cons]
    cases c.callers.getLast? <;> rfl
  | returned k callers func =>
    rw [callers, List.getLast?_cons, func]
    cases d.callers.getLast? <;> rfl

def Config.frames (c : Config σ) : List Frame :=
  c.frame :: c.callers.map (·.frame)

theorem Config.forall_frames {c : Config σ} {holds : Frame → Prop} :
    (∀ fr ∈ c.frames, holds fr) ↔ holds c.frame ∧ ∀ k ∈ c.callers, holds k.frame := by
  rw [Config.frames, List.forall_mem_cons, List.forall_mem_map]

theorem call_typed {c : Context} {i : Instr} (typed : Typed c i) (isCall : i.op = .call) :
    ∃ sig, c.program.signature? i.callee = some sig ∧ i.args.length = sig.params.length ∧
      (∀ pair ∈ sig.params.zip i.args, c.scope.operandTy? pair.1 pair.2 = some pair.1) ∧
      (i.result.isSome → i.ty = sig.ret ∧ sig.ret ≠ .void) := by
  cases typed with
  | call sig _ _ known count args result => exact ⟨sig, known, count, args, result⟩
  | _ => simp_all

/-- The frame waits at a call that the checker has accepted. -/
structure Awaits (p : Program) (k : Caller) : Prop where
  typed : Typed ⟨p, k.frame.func, k.frame.scope⟩ k.call
  isCall : k.call.op = .call
  declared : ∀ id, k.call.result = some id → k.frame.func.scope.ty? id = some k.call.ty

theorem Awaits.returns {k : Caller} (awaits : Awaits p k) {id : TempId} {sig : Signature}
    (result : k.call.result = some id) (signature : p.signature? k.call.callee = some sig) :
    k.frame.func.scope.ty? id = some sig.ret := by
  obtain ⟨sig', known, _, _, returned⟩ := call_typed awaits.typed awaits.isCall
  obtain rfl := Option.some.inj (known.symm.trans signature)
  rw [awaits.declared id result, (returned (by rw [result]; rfl)).1]

structure NormalConfig (p : Program) (f : Func) (c : Config σ) : Prop where
  sound : SoundConfig p c
  frame : c.frame.Normal
  callers : ∀ k ∈ c.callers, k.frame.Normal ∧ Awaits p k
  base : c.base = f

theorem NormalConfig.frames {f : Func} {c : Config σ} (normal : NormalConfig p f c) :
    ∀ fr ∈ c.frames, fr.Normal :=
  Config.forall_frames.mpr ⟨normal.frame, fun k waiting => (normal.callers k waiting).1⟩

theorem SoundConfig.frames {c : Config σ} (sound : SoundConfig p c) : ∀ fr ∈ c.frames, Sound p fr :=
  Config.forall_frames.mpr ⟨sound.frame, sound.callers⟩

/-- The step from `c` to `d` ends the call `i`: a handler has served it, or a function has returned. -/
def EndsCall (c d : Config σ) (i : Instr) : Prop :=
  (c.frame.block.instrs[c.frame.ip]? = some i ∧ i.op = .call ∧ d.callers = c.callers) ∨
    ∃ fr, c.callers = ⟨fr, i⟩ :: d.callers

/-- What is normalised where the run stands at `c`: the registers of all active frames, which a 32-bit word
counts, a value that the running function returns, and the result of a call that ends. -/
structure NormalAt (p : Program) (host : Host σ) (c : Config σ) : Prop where
  registers : ∀ fr ∈ c.frames, fr.regs.size < 2 ^ 32
  frames : ∀ fr ∈ c.frames, fr.Normal
  returns : ∀ i v, c.frame.block.instrs[c.frame.ip]? = some i →
    effect p host (c.frame.advance i) i = .ok (.leave v) → v.normalize c.frame.func.ret = v
  calls : ∀ d i id sig, step p host c = .next d → EndsCall c d i → i.result = some id →
    p.signature? i.callee = some sig → ∃ v, d.frame.regs[id.toNat]? = some v ∧ v.normalize sig.ret = v

section Accepted

variable (typed : ProgramTyped p) {host : Host σ} {f : Func} {c d : Config σ}
include typed

theorem Sound.awaits {fr : Frame} {i : Instr} (sound : Sound p fr) (here : fr.block.instrs[fr.ip]? = some i)
    (isCall : i.op = .call) : Awaits p ⟨fr.advance i, i⟩ :=
  ⟨(sound.admitted typed here).typed, isCall, fun _ result => sound.declares typed here result⟩

theorem step_normal (normal : NormalConfig p f c) (moves : step p host c = .next d) :
    NormalConfig p f d := by
  have sound : SoundConfig p d := after_sound typed normal.sound (after_one moves)
  obtain ⟨i, e, here, effects, moves⟩ := step_next moves
  have base : d.base = f := (perform_moved moves).base.trans normal.base
  have admitted := normal.sound.frame.admitted typed here
  have rooted : Rooted p (c.frame.advance i) := { normal.sound.frame.toRooted with }
  have safe : Safe p c.frame.func i (effect p host (c.frame.advance i) i) :=
    effect_safe typed host rooted admitted
  have yields : e.Normal (c.frame.advance i).func i := effect_normal effects admitted.typed
  have declared : ∀ id, i.result = some id → c.frame.func.scope.ty? id = some i.ty := fun _ result =>
    normal.sound.frame.declares typed here result
  have advanced : (c.frame.advance i).Normal := normal.frame
  rw [effects] at safe
  cases safe with
  | store v =>
    obtain rfl := Step.next.inj moves
    exact ⟨sound, advanced.store declared yields, normal.callers, base⟩
  | jump t values member =>
    obtain rfl := Step.next.inj moves
    have ids := (typed.funcs _ normal.sound.frame.member).ids
    have bound := advanced.bindParams (fun q inside => Func.scope_ty?_blockParam ids member inside) values
    exact ⟨sound, bound, normal.callers, base⟩
  | enter callee args member =>
    simp only [perform] at moves
    split at moves
    · simp at moves
    · rename_i fr enters
      obtain rfl := Step.next.inj moves
      refine ⟨sound, (enter_normal (typed.funcs callee member) enters).2, fun k waiting => ?_, base⟩
      rcases List.mem_cons.mp waiting with rfl | earlier
      · exact ⟨advanced, normal.sound.frame.awaits typed here yields⟩
      · exact normal.callers k earlier
  | handle handler args =>
    simp only [perform] at moves
    split at moves
    · simp at moves
    · obtain rfl := Step.next.inj moves
      exact ⟨sound, advanced.store declared (Value.normalize_normalize _ _), normal.callers, base⟩
  | leave v =>
    simp only [perform] at moves
    split at moves
    · simp at moves
    · rename_i k rest callers
      obtain rfl := Step.next.inj moves
      obtain ⟨waiting, awaits⟩ := normal.callers k (by rw [callers]; exact List.mem_cons_self)
      refine ⟨sound, waiting.store awaits.declared (Value.normalize_normalize _ _), fun k' later => ?_, base⟩
      exact normal.callers k' (by rw [callers]; exact List.mem_cons_of_mem _ later)

theorem NormalConfig.at (small : p.SmallIds) (normal : NormalConfig p f c) (host : Host σ) :
    NormalAt p host c := by
  refine ⟨fun fr member => (normal.sound.frames fr member).size_lt small, normal.frames,
    fun i v here effects => ?_, fun d i id sig moves ends result signature => ?_⟩
  · exact effect_normal effects (normal.sound.frame.admitted typed here).typed
  · refine (step_normal typed normal moves).frame id sig.ret ?_
    obtain ⟨j, e, here, _, performed⟩ := step_next moves
    rcases ends with ⟨same, isCall, callers⟩ | ⟨fr, callers⟩
    · obtain rfl := Option.some.inj (here.symm.trans same)
      have declared := (normal.sound.frame.awaits typed here isCall).returns result signature
      cases perform_moved performed with
      | within func => rwa [func]
      | called more => simp [callers] at more
      | returned k fewer => simp [callers] at fewer
    · have declared := (normal.callers ⟨fr, i⟩ (by rw [callers]; exact List.mem_cons_self)).2.returns
        result signature
      cases perform_moved performed with
      | within func same => simp [callers] at same
      | called more => exact absurd (congrArg List.length more) (by simp [callers]; omega)
      | returned k fewer func =>
        obtain ⟨rfl, _⟩ := List.cons.inj (callers.symm.trans fewer)
        rwa [func]

theorem start_normal {name : String} {args : List Value} {state : σ}
    (starts : start p name args state = .ok c) : ∃ f, p.funcNamed? name = some f ∧ NormalConfig p f c := by
  have sound := start_sound typed starts
  unfold start at starts
  split at starts
  · simp at starts
  · rename_i f found
    have func := typed.funcs f (List.mem_of_find?_eq_some found)
    obtain ⟨fr, enters, done⟩ := bind_ok starts
    obtain rfl := Except.ok.inj done
    obtain ⟨same, normal⟩ := enter_normal func enters
    exact ⟨f, found, sound, normal, by simp, same⟩

theorem after_normal {n : Nat} (normal : NormalConfig p f c)
    (reached : after (step p host) n c = some d) : NormalConfig p f d :=
  after_invariant (fun _ _ normal moves => step_normal typed normal moves) normal reached

theorem returned_normal {v : Value} {final : σ} (normal : NormalConfig p f c)
    (halts : step p host c = .halt (.returned (some v)) final) : v.normalize f.ret = v := by
  obtain ⟨i, here, effects, alone⟩ := step_returned halts
  have entry : c.frame.func = f := by
    rw [← normal.base, Config.base, alone]
    rfl
  rw [← entry]
  exact effect_normal effects (normal.sound.frame.admitted typed here).typed

end Accepted

end Machine

namespace Program

open Machine Typing

/-- In every run of an accepted program the registers of all active frames hold normalised values, whatever
the arguments are and whatever the handlers of the host return; and so do calls, and the run itself. -/
theorem verified_registers_normal {σ : Type} {p : Program} (accepted : p.verify = .ok ()) (small : p.SmallIds)
    (host : Host σ) (name : String) (args : List Value) (state : σ) :
    (∀ c, start p name args state = .ok c → ∀ n d, after (step p host) n c = some d → NormalAt p host d) ∧
      ∀ bound v final, run p host bound name args state = some (.returned (some v), final) →
        ∃ f, p.funcNamed? name = some f ∧ v.normalize f.ret = v := by
  rw [verify_iff] at accepted
  refine ⟨fun c starts n d reached => ?_, fun bound v final ends => ?_⟩
  · obtain ⟨f, _, normal⟩ := start_normal accepted starts
    exact (after_normal accepted normal reached).at accepted small host
  · unfold run at ends
    split at ends
    · simp at ends
    · rename_i c starts
      obtain ⟨f, found, normal⟩ := start_normal accepted starts
      rw [runFrom_eq_iterate] at ends
      obtain ⟨n, d, reached, halts⟩ := exists_halt ends
      exact ⟨f, found, returned_normal accepted (after_normal accepted normal reached) halts⟩

/-- `main x` returns what an external function answers for the byte `x`, through a second function. -/
def relayed : Program where
  externs := [{ name := "sensor", params := [.i8], ret := .u8 }]
  funcs := [
    { name := "main", ret := .u8
      params := [{ name := "x", ty := .i8, id := 0 }]
      blocks := [
        { label := "entry"
          instrs := [
            { result := some 1, op := .call, ty := .u8, callee := "relay", args := [.temp 0] },
            { op := .ret, args := [.temp 1] }] }] },
    { name := "relay", ret := .u8
      params := [{ name := "x", ty := .i8, id := 0 }]
      blocks := [
        { label := "entry"
          instrs := [
            { result := some 1, op := .call, ty := .u8, callee := "sensor", args := [.temp 0] },
            { op := .ret, args := [.temp 1] }] }] }]

/-- Neither the argument -200 nor the answer 300 is a byte; after the second return both are. -/
theorem verified_registers_normal_relayed : relayed.verify = .ok () ∧ relayed.SmallIds ∧
    let host : Host Unit := Host.empty.register "sensor" fun _ state => (.ok (.int 300), state)
    (∃ c d, start relayed "main" [.int (-200)] () = .ok c ∧ after (step relayed host) 3 c = some d ∧
      d.frame.regs = #[.int 56, .int 44] ∧ NormalAt relayed host d) ∧
    run relayed host 4 "main" [.int (-200)] () = some (.returned (some (.int 44)), ()) ∧
      ∃ f, relayed.funcNamed? "main" = some f ∧ (Value.int 44).normalize f.ret = .int 44 := by
  have accepted : relayed.verify = .ok () := by decide +kernel
  have small : relayed.SmallIds := by decide +kernel
  refine ⟨accepted, small, ?_⟩
  intro host
  obtain ⟨stands, ends⟩ := verified_registers_normal accepted small host "main" [.int (-200)] ()
  have returns : run relayed host 4 "main" [.int (-200)] () = some (.returned (some (.int 44)), ()) := by
    decide +kernel
  have registers : ((start relayed "main" [.int (-200)] ()).toOption.bind
      (after (step relayed host) 3)).map (·.frame.regs) = some #[.int 56, .int 44] := by decide +kernel
  refine ⟨?_, returns, ends 4 _ _ returns⟩
  obtain ⟨d, reached, same⟩ := Option.map_eq_some_iff.mp registers
  cases starts : start relayed "main" [.int (-200)] () with
  | error cause => simp [starts, Except.toOption] at reached
  | ok c =>
    simp only [starts, Except.toOption, Option.bind_some] at reached
    exact ⟨c, d, rfl, reached, same, stands c starts 3 d reached⟩

end Program

end GuardedIL
