import GuardedIL.Proofs.Registers

/-!
# What handlers receive

A function gets its arguments normalised at the types of its parameters. A handler gets them as they are
read: what a register holds, and a literal as a word of 64 bits. So each argument of a handler is a word of
the parameter's type, and what a function would get in its place, unless it is a literal outside that type.
-/

namespace GuardedIL

/-- The operand is not a literal outside the words of the type. -/
def Operand.Fits (ty : Ty) : Operand → Prop
  | .int w => ty.normalize w = w
  | _ => True

namespace Machine

open Typing

variable {σ : Type} {p : Program} {fr : Frame}

/-! ### The parameters of a function -/

theorem bindParams_other {params : List Param} {id : TempId} (other : id ∉ params.map (·.id))
    (values : List Value) : (fr.bindParams params values).regs[id.toNat]? = fr.regs[id.toNat]? := by
  induction params generalizing fr values with
  | nil => rfl
  | cons q rest ih =>
    obtain ⟨differ, later⟩ := not_or.mp (List.mem_cons.not.mp other)
    cases values with
    | nil => rfl
    | cons v vs =>
      change ((fr.write q.id (v.normalize q.ty)).bindParams rest vs).regs[id.toNat]? = _
      rw [ih later]
      exact Array.getElem?_setIfInBounds_ne fun same => differ (UInt32.toNat_inj.mp same).symm

theorem bindParams_register {params : List Param} (distinct : (params.map (·.id)).Nodup)
    {values : List Value} {k : Nat} {q : Param} {v : Value} (param : params[k]? = some q)
    (value : values[k]? = some v) (inside : q.id.toNat < fr.regs.size) :
    (fr.bindParams params values).regs[q.id.toNat]? = some (v.normalize q.ty) := by
  induction params generalizing fr values k with
  | nil => simp at param
  | cons first rest ih =>
    obtain ⟨apart, later⟩ := List.nodup_cons.mp distinct
    cases values with
    | nil => simp at value
    | cons u us =>
      change ((fr.write first.id (u.normalize first.ty)).bindParams rest us).regs[q.id.toNat]? = _
      cases k with
      | zero =>
        obtain rfl : first = q := by simpa using param
        obtain rfl : u = v := by simpa using value
        rw [bindParams_other apart]
        exact Array.getElem?_setIfInBounds_self_of_lt inside
      | succ k =>
        exact ih later (by simpa using param) (by simpa using value) (by simpa [Frame.write] using inside)

/-! ### One argument, as a handler and as a function read it -/

theorem read_argument (normal : fr.Normal) (scope : fr.scope = fr.func.scope) {ty : Ty} {o : Operand}
    {v : Value} (typed : fr.scope.operandTy? ty o = some ty) (read : fr.read (fr.tyOf .i64 o) o = .ok v) :
    (v.normalize ty = v ↔ o.Fits ty) ∧ (∀ w, o = .int w → v = .int w) ∧
      ∃ u, fr.read ty o = .ok u ∧ u.normalize ty = v.normalize ty := by
  cases o with
  | temp id =>
    have declared : fr.func.scope.ty? id = some ty := by rwa [← scope]
    obtain ⟨u, register, same⟩ := normal id ty declared
    obtain rfl : u = v := by simpa [Frame.read, register] using read
    exact ⟨iff_of_true same trivial, by simp, u, read, rfl⟩
  | int w =>
    change Except.ok (Value.int w) = .ok v at read
    obtain rfl := Except.ok.inj read
    refine ⟨?_, fun w' same => by rw [Operand.int.inj same], _, rfl, ?_⟩
    · rw [Value.normalize_int, Value.int.injEq]
      rfl
    · rw [Value.normalize_int, Value.normalize_int, Ty.normalize_normalize]
  | bool b =>
    obtain rfl := Option.some.inj typed
    change Except.ok (Value.int (Ty.i64.normalize (if b then 1 else 0))) = .ok v at read
    obtain rfl := Except.ok.inj read
    exact ⟨iff_of_true (by cases b <;> decide) trivial, by simp, _, rfl, by cases b <;> decide⟩
  | str s =>
    obtain rfl := Option.some.inj typed
    exact ⟨iff_of_true rfl trivial, by simp, v, read, rfl⟩
  | null =>
    obtain rfl := Option.some.inj typed
    exact ⟨iff_of_true rfl trivial, by simp, v, read, rfl⟩
  | global name => simp [Frame.read] at read

/-! ### The arguments of a call -/

theorem exists_getElem?_of_forall₂ {α β : Type} {r : α → β → Prop} {as : List α} {bs : List β}
    (all : List.Forall₂ r as bs) {k : Nat} {a : α} (left : as[k]? = some a) :
    ∃ b, bs[k]? = some b ∧ r a b := by
  induction all generalizing k with
  | nil => simp at left
  | cons first _ ih =>
    cases k with
    | zero =>
      obtain rfl := Option.some.inj left
      exact ⟨_, rfl, first⟩
    | succ k => exact ih left

theorem externNamed?_of_signature? {name : String} {sig : Signature} (known : p.signature? name = some sig)
    (unnamed : p.funcNamed? name = none) : ∃ e, p.externNamed? name = some e ∧ e.signature = sig := by
  unfold Program.signature? at known
  split at known
  · rename_i e found
    exact ⟨e, found, Option.some.inj known⟩
  · simp [unnamed] at known

theorem call_handle {host : Host σ} {i : Instr} {handler : Handler σ} {values : List Value}
    (ok : call p host fr i = .ok (.handle handler values)) :
    p.funcNamed? i.callee = none ∧
      List.Forall₂ (fun o v => fr.read (fr.tyOf .i64 o) o = .ok v) i.args values := by
  unfold call at ok
  split at ok
  · obtain ⟨args, _, done⟩ := bind_ok ok
    simp [pure, Except.pure] at done
  · rename_i unnamed
    split at ok
    · simp at ok
    · obtain ⟨args, read, done⟩ := bind_ok ok
      obtain ⟨_, rfl⟩ := Effect.handle.inj (Except.ok.inj done)
      exact ⟨unnamed, List.forall₂_map_left_iff.mp (readAll_ok.mp read)⟩

theorem readAll_params (normal : fr.Normal) (scope : fr.scope = fr.func.scope) {operands : List Operand}
    {values : List Value}
    (read : List.Forall₂ (fun o v => fr.read (fr.tyOf .i64 o) o = .ok v) operands values) {tys : List Ty}
    (count : tys.length = operands.length)
    (typed : ∀ pair ∈ tys.zip operands, fr.scope.operandTy? pair.1 pair.2 = some pair.1) :
    ∃ args, fr.readAll (tys.zip operands) = .ok args ∧
      List.Forall₂ (fun pair u => u.normalize pair.1 = pair.2.normalize pair.1) (tys.zip values) args := by
  induction read generalizing tys with
  | nil =>
    obtain rfl := List.length_eq_zero_iff.mp count
    exact ⟨[], rfl, .nil⟩
  | @cons o v os vs first _ ih =>
    obtain ⟨ty, rest, rfl⟩ := List.exists_cons_of_length_eq_add_one count
    obtain ⟨_, _, u, reads, same⟩ := read_argument normal scope (typed (ty, o) List.mem_cons_self) first
    obtain ⟨args, readsAll, all⟩ := ih (Nat.succ.inj count) fun pair later =>
      typed pair (List.mem_cons_of_mem _ later)
    refine ⟨u :: args, ?_, .cons same all⟩
    rw [List.zip_cons_cons, Frame.readAll, reads, readsAll]
    rfl

theorem operands_at_params {g : Func} {operands : List Operand} (count : operands.length = g.params.length) :
    (operands.zipIdx.map fun (o, n) => ((g.params[n]?.map (·.ty)).getD .i64, o)) =
      g.signature.params.zip operands := by
  apply List.ext_getElem
  · simp [Func.signature, count]
  · intro n inside inside'
    have param : n < g.params.length := by
      rw [List.length_map, List.length_zipIdx, count] at inside
      exact inside
    simp [Func.signature, param]

/-- A function of these parameters is entered on the same operands, and then its parameters hold the
handler's arguments, normalised. -/
theorem function_arguments (normal : fr.Normal) (scope : fr.scope = fr.func.scope) {host : Host σ} {i : Instr}
    (isCall : i.op = .call) {values : List Value}
    (read : List.Forall₂ (fun o v => fr.read (fr.tyOf .i64 o) o = .ok v) i.args values)
    (accepted : ProgramTyped p) {g : Func} (named : p.funcNamed? i.callee = some g)
    (count : i.args.length = g.params.length)
    (typed : ∀ pair ∈ g.signature.params.zip i.args, fr.scope.operandTy? pair.1 pair.2 = some pair.1)
    {depth : Nat} (shallow : depth < Frame.depthLimit) (site : Site) :
    ∃ args entered, effect p host fr i = .ok (.enter g args) ∧ Frame.enter g args depth site = .ok entered ∧
      ∀ (k : Nat) q v, g.params[k]? = some q → values[k]? = some v →
        entered.regs[q.id.toNat]? = some (v.normalize q.ty) := by
  have member := List.mem_of_find?_eq_some named
  have func := accepted.funcs g member
  obtain ⟨args, reads, same⟩ := readAll_params normal scope read (by simp [Func.signature, count]) typed
  have calls : effect p host fr i = .ok (.enter g args) := by
    simp only [effect, isCall, call, named, operands_at_params count, reads]
    rfl
  have length : args.length = g.params.length := by
    rw [readAll_length reads, List.length_zip, count]
    simp [Func.signature]
  rcases enter_sound member func length depth site with ⟨deep, _⟩ | ⟨entered, enters, _⟩
  · exact absurd deep (by omega)
  · refine ⟨args, entered, calls, enters, fun k q v param value => ?_⟩
    obtain ⟨entry, _, rfl⟩ := enter_ok enters
    have distinct : (g.params.map (·.id)).Nodup := by
      have ids := func.ids
      rw [Func.defs, List.map_append, List.map_map] at ids
      exact ids.of_append_left
    have inside : q.id.toNat < g.registerCount := Func.lt_registerCount_of_typing
      ((Func.scope_ty?_iff func.ids).mp (Func.scope_ty?_param func.ids (List.mem_of_getElem? param)))
    have pair : (g.signature.params.zip values)[k]? = some (q.ty, v) :=
      List.getElem?_zip_eq_some.mpr ⟨by simp [Func.signature, param], value⟩
    obtain ⟨u, arg, normalized⟩ := exists_getElem?_of_forall₂ same pair
    rw [bindParams_register distinct param arg (by rw [Array.size_replicate]; exact inside)]
    exact congrArg some normalized

end Machine

namespace Program

open Machine Typing

/-- A handler gets one argument for each parameter of the external function. It is normalised, and it is
what a function with these parameters would hold in its place, exactly if the operand fits the parameter. -/
theorem handler_arguments {σ : Type} {p : Program} (accepted : p.verify = .ok ()) {host : Host σ}
    {name : String} {args : List Value} {state : σ} {c d : Config σ} {n : Nat}
    (starts : start p name args state = .ok c) (reached : after (step p host) n c = some d)
    {i : Instr} (here : d.frame.block.instrs[d.frame.ip]? = some i)
    {handler : Handler σ} {values : List Value}
    (dispatched : effect p host (d.frame.advance i) i = .ok (.handle handler values)) :
    ∃ e, p.externNamed? i.callee = some e ∧ i.args.length = e.params.length ∧
      values.length = e.params.length ∧
      ∀ (k : Nat) ty o v, e.params[k]? = some ty → i.args[k]? = some o → values[k]? = some v →
        (v.normalize ty = v ↔ o.Fits ty) ∧ (∀ w, o = .int w → v = .int w) ∧
        ∀ (p' : Program) g depth site, p'.verify = .ok () → p'.funcNamed? i.callee = some g →
          g.signature.params = e.params → depth < Frame.depthLimit →
          ∃ args entered q, effect p' host (d.frame.advance i) i = .ok (.enter g args) ∧
            Frame.enter g args depth site = .ok entered ∧ g.params[k]? = some q ∧
            (entered.regs[q.id.toNat]? = some v ↔ o.Fits ty) := by
  rw [verify_iff] at accepted
  obtain ⟨_, _, config⟩ := start_normal accepted starts
  have reachedNormal := after_normal accepted config reached
  have normal : (d.frame.advance i).Normal := reachedNormal.frame
  have scope : (d.frame.advance i).scope = (d.frame.advance i).func.scope := reachedNormal.sound.frame.scope
  have admitted := reachedNormal.sound.frame.admitted accepted here
  have isCall : i.op = .call := effect_normal dispatched admitted.typed
  obtain ⟨unnamed, read⟩ := call_handle (by simpa only [effect, isCall] using dispatched)
  obtain ⟨sig, known, count, typed, _⟩ := call_typed admitted.typed isCall
  obtain ⟨e, found, rfl⟩ := externNamed?_of_signature? known unnamed
  refine ⟨e, found, count, read.length_eq ▸ count, fun k ty o v param operand value => ?_⟩
  have pair : (e.params.zip i.args)[k]? = some (ty, o) := List.getElem?_zip_eq_some.mpr ⟨param, operand⟩
  obtain ⟨u, value', reads⟩ := exists_getElem?_of_forall₂ read operand
  obtain rfl := Option.some.inj (value'.symm.trans value)
  obtain ⟨fits, literal, _⟩ := read_argument normal scope (typed _ (List.mem_of_getElem? pair)) reads
  refine ⟨fits, literal, fun p' g depth site accepted' named same shallow => ?_⟩
  have params : g.params.length = e.params.length := by rw [← same, Func.signature, List.length_map]
  obtain ⟨args, entered, enters, starts, holds⟩ := function_arguments normal scope isCall read
    ((verify_iff p').mp accepted') named (count.trans params.symm) (by rw [same]; exact typed)
    shallow site
  obtain ⟨q, known, rfl⟩ : ∃ q, g.params[k]? = some q ∧ q.ty = ty := by
    rw [← same] at param
    simpa [Func.signature] using param
  refine ⟨args, entered, q, enters, starts, known, ?_⟩
  rw [holds k q u known value, Option.some.injEq]
  exact fits

/-- A byte and a literal that is no byte are passed to a function of two bytes. -/
def handing : Instr :=
  { result := some 1, op := .call, ty := .i64, callee := "log", args := [.temp 0, .int 300] }

def handed : Program where
  externs := [{ name := "log", params := [.i8, .i8], ret := .i64 }]
  funcs := [{
    name := "main", ret := .i64
    params := [{ name := "x", ty := .i8, id := 0 }]
    blocks := [
      { label := "entry"
        instrs := [handing, { op := .ret, args := [.temp 1] }] }] }]

/-- The same `main` with a function of these parameters in place of the external one. -/
def handedInside : Program where
  funcs := handed.funcs ++ [{
    name := "log", ret := .i64
    params := [{ name := "a", ty := .i8, id := 0 }, { name := "b", ty := .i8, id := 1 }]
    blocks := [
      { label := "entry"
        instrs := [
          { result := some 2, op := .cast .sext, ty := .i64, args := [.temp 1] },
          { op := .ret, args := [.temp 2] }] }] }]

def echo : Host Unit :=
  Host.empty.register "log" fun args state => (.ok (args.getLast?.getD (.int 0)), state)

theorem handler_arguments_handed : handed.verify = .ok () ∧ handedInside.verify = .ok () ∧
    ∃ c handler, start handed "main" [.int 5] () = .ok c ∧
      c.frame.block.instrs[c.frame.ip]? = some handing ∧
      effect handed echo (c.frame.advance handing) handing = .ok (.handle handler [.int 5, .int 300]) ∧
      (Value.int 5).normalize .i8 = .int 5 ∧ (Value.int 300).normalize .i8 ≠ .int 300 ∧
      ∃ g args entered q, effect handedInside echo (c.frame.advance handing) handing = .ok (.enter g args) ∧
        Frame.enter g args 1 {} = .ok entered ∧ g.params[1]? = some q ∧
        entered.regs[q.id.toNat]? ≠ some (.int 300) := by
  have accepted : handed.verify = .ok () := by decide +kernel
  have accepted' : handedInside.verify = .ok () := by decide +kernel
  have wide : ¬ (Operand.int 300).Fits .i8 := by
    unfold Operand.Fits
    decide
  obtain ⟨c, handler, starts, here, dispatched⟩ : ∃ c handler,
      start handed "main" [.int 5] () = .ok c ∧ c.frame.block.instrs[c.frame.ip]? = some handing ∧
      effect handed echo (c.frame.advance handing) handing = .ok (.handle handler [.int 5, .int 300]) :=
    ⟨_, _, rfl, rfl, rfl⟩
  have reached : after (step handed echo) 0 c = some c := rfl
  refine ⟨accepted, accepted', c, handler, starts, here, dispatched, ?_⟩
  obtain ⟨e, found, _, _, all⟩ := handler_arguments accepted starts reached here dispatched
  obtain rfl := Option.some.inj found
  obtain ⟨narrow, _, _⟩ := all 0 .i8 (.temp 0) (.int 5) rfl rfl rfl
  obtain ⟨literal, _, inside⟩ := all 1 .i8 (.int 300) (.int 300) rfl rfl rfl
  obtain ⟨args, entered, q, calls, enters, param, holds⟩ := inside handedInside _ 1 {} accepted' rfl rfl
    (by decide)
  exact ⟨narrow.mpr trivial, literal.not.mpr wide, _, args, entered, q, calls, enters, param,
    holds.not.mpr wide⟩

/-- The handler is given 300 for a byte, where a function is given 44. -/
theorem handler_receives_wide_literal : handed.verify = .ok () ∧
    (handed.externNamed? "log").map (·.params) = some [.i8, .i8] ∧
    (Value.int 300).normalize .i8 ≠ .int 300 ∧
    run handed echo 2 "main" [.int 5] () = some (.returned (some (.int 300)), ()) ∧
    run handedInside echo 4 "main" [.int 5] () = some (.returned (some (.int 44)), ()) := by
  refine ⟨?_, ?_, ?_, ?_, ?_⟩ <;> decide +kernel

end Program

end GuardedIL
