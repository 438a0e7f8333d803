import Monkey.Proofs.Compiling

/-!
# Compiling only extends

A step of compiling that fails keeps what it did up to then, at whatever depth of nested functions it
fails. `Compiling.after` is the compilation that is left in either case, and `Compilation.Extends`
says that nothing of the old one got lost in it: the code and the constants are continued, the names
keep their slots, and the code around the function is as it was.

Three steps write into code that is there already: a patch, the end of a block that takes its last
instruction back, and the end of a body that turns it into a return. None of them reaches behind the
tree that it belongs to. A jump that is patched was appended by the same tree. The last instruction of
a block is one of its own, or the jump in front of it, which is no `OpPop` (`Compiling.Advancing`), so
the marks that an earlier program left are never followed. A body starts with no code at all.

`Compilation.Reachable` are the compilations that can be come to, and `Reachable.add_keeps` says what
one more program does to them.
-/

namespace Monkey

namespace Compiling

/-! ### What a step leaves -/

variable {α β : Type} {c c₁ c₂ : Compilation}

/-- The compilation that the step `x` leaves, whether it succeeds or fails. -/
def after (x : Compiling α) (c : Compilation) : Compilation := (x.run.run c).2

theorem after_of_gives {x : Compiling α} {a : α} (h : Gives x c a c₁) : x.after c = c₁ := by
  unfold after
  rw [h]

/-- What holds behind the first step and is kept by the second holds behind both. -/
theorem after_bind {x : Compiling α} {f : α → Compiling β} {P : Compilation → Prop}
    (hx : P (x.after c)) (hf : ∀ a c₁, Gives x c a c₁ → P c₁ → P ((f a).after c₁)) :
    P ((x >>= f).after c) := by
  unfold after at hx ⊢
  rw [run_bind]
  cases h : x.run.run c with
  | mk r c₁ =>
    rw [h] at hx
    cases r with
    | error e => exact hx
    | ok a => exact hf a c₁ h hx

/-- A step that is tried succeeds with its outcome. -/
theorem run_lift (x : Compiling α) (c : Compilation) :
    (ExceptT.lift x.run : Compiling _).run.run c = (.ok (x.run.run c).1, (x.run.run c).2) := rfl

/-- A function is closed behind its body, whether that succeeds or fails. -/
theorem run_function (name : Option String) (parameters : List Ident) (body : Compiling Unit)
    (c : Compilation) :
    (function name parameters body).run.run c =
      match (do defineAll parameters; body : Compiling Unit).run.run c.enter with
      | (.ok (), c₁) =>
        (emitConstant (.function (c₁.close name parameters.length).1)).run.run c₁.leave
      | (.error e, c₁) => (.error e, c₁.leave) := by
  unfold function
  generalize (do defineAll parameters; body : Compiling Unit) = x
  rw [run_bind]
  change (ExceptT.lift x.run >>= _ : Compiling Unit).run.run c.enter = _
  rw [run_bind, run_lift]
  cases x.run.run c.enter with
  | mk r c₁ =>
    cases r with
    | error e => rfl
    | ok u => rfl

end Compiling

/-! ### Extensions -/

/-- Nothing of `c` got lost in `c'`. -/
structure Compilation.Extends (c c' : Compilation) : Prop where
  outer : c'.outer = c.outer
  scope : c.scope.Grows c'.scope
  constants : c.constants.toList <+: c'.constants.toList
  code : c.buffer.code.toList <+: c'.buffer.code.toList

namespace Compilation

variable {c c₁ c₂ : Compilation}

theorem Extends.refl (c : Compilation) : c.Extends c :=
  ⟨rfl, .refl _, List.prefix_rfl, List.prefix_rfl⟩

theorem Extends.trans (h : c.Extends c₁) (h' : c₁.Extends c₂) : c.Extends c₂ where
  outer := h'.outer.trans h.outer
  scope := h.scope.trans h'.scope
  constants := h.constants.trans h'.constants
  code := h.code.trans h'.code

theorem Extends.size_le (h : c.Extends c₁) : c.buffer.size ≤ c₁.buffer.size := by
  simpa [Buffer.size] using h.code.length_le

/-- The code may be changed behind what was there before. -/
theorem Extends.modify_buffer (h : c.Extends c₁) {b : Buffer}
    (hb : c.buffer.code.toList <+: b.code.toList) : c.Extends { c₁ with buffer := b } :=
  ⟨h.outer, h.scope, h.constants, hb⟩

/-- What is left of a function when it is closed are its constants. -/
theorem Extends.leave_eq (h : c.enter.Extends c₁) :
    c₁.leave = { c with constants := c₁.constants } := by
  rw [leave, h.scope.outer?, h.outer]
  rfl

theorem Extends.leave (h : c.enter.Extends c₁) : c.Extends c₁.leave := by
  rw [h.leave_eq]
  exact ⟨rfl, .refl _, h.constants, List.prefix_rfl⟩

end Compilation

namespace Buffer

theorem size_append (b : Buffer) (op : Opcode) (bytes : List UInt8) :
    (b.append op bytes).size = b.size + bytes.length := by
  simpa [size] using congrArg List.length (b.toList_append op bytes)

/-- Bytes that are written behind a part of the code leave that part alone. -/
theorem prefix_overwrite {b : Buffer} {l : List UInt8} {position : Nat} (bytes : List UInt8)
    (h : l <+: b.code.toList) (hposition : l.length ≤ position) :
    l <+: (b.overwrite position bytes).code.toList := by
  induction bytes generalizing b position with
  | nil => exact h
  | cons byte bytes ih =>
    obtain ⟨behind, hbehind⟩ := h
    have hset : (b.code.setIfInBounds position byte).toList =
        l ++ behind.set (position - l.length) byte := by
      rw [Array.toList_setIfInBounds, ← hbehind, List.set_append_right _ _ hposition]
    refine ih ⟨behind.set (position - l.length) byte, hset.symm⟩ ?_
    exact Nat.le_succ_of_le hposition

/-- The last instruction of `b'` stands behind `b`, and the code ends with it. -/
def EndsBehind (b b' : Buffer) : Prop :=
  ∃ e, b'.last = some e ∧ b.size ≤ e.position ∧
    e.position + 1 + e.op.layout.operandLength = b'.size

end Buffer

namespace Compiling

variable {α β : Type} {c c₁ c₂ : Compilation}

/-- The step only extends the compilation, also when it fails. -/
def Extending (x : Compiling α) : Prop := ∀ c : Compilation, c.Extends (x.after c)

/-- The step only extends, and when it succeeds the last instruction is one that it appended. -/
structure Emitting (x : Compiling α) : Prop where
  extending : x.Extending
  ends : ∀ {c a c'}, Gives x c a c' → c.buffer.EndsBehind c'.buffer

/-- The step only extends, and when it succeeds the last instruction is one that it appended, unless
it appended none. -/
structure Advancing (x : Compiling α) : Prop where
  extending : x.Extending
  ends : ∀ {c a c'}, Gives x c a c' → c'.buffer = c.buffer ∨ c.buffer.EndsBehind c'.buffer

theorem Extending.of_gives {x : Compiling α} {a : α} (hx : x.Extending) (h : Gives x c a c₁) :
    c.Extends c₁ :=
  after_of_gives h ▸ hx c

theorem Extending.bind {x : Compiling α} {f : α → Compiling β} (hx : x.Extending)
    (hf : ∀ a, (f a).Extending) : (x >>= f).Extending := by
  intro c
  exact after_bind (hx c) fun a c₁ _ h => h.trans (hf a c₁)

theorem extending_pure (a : α) : Extending (pure a) := Compilation.Extends.refl

theorem extending_throw (e : CompileError) : Extending (throw e : Compiling α) :=
  Compilation.Extends.refl

theorem extending_get : Extending get := Compilation.Extends.refl

theorem extending_ite {p : Prop} [Decidable p] {x y : Compiling α} (hx : x.Extending)
    (hy : y.Extending) : Extending (if p then x else y) := by
  split
  · exact hx
  · exact hy

theorem Emitting.advancing {x : Compiling α} (hx : x.Emitting) : x.Advancing :=
  ⟨hx.extending, fun h => .inr (hx.ends h)⟩

/-- Whatever comes first, the last instruction is one of what comes last. -/
theorem Emitting.after_extending {x : Compiling α} {f : α → Compiling β} (hx : x.Extending)
    (hf : ∀ a, (f a).Emitting) : (x >>= f).Emitting where
  extending := hx.bind fun a => (hf a).extending
  ends h := by
    obtain ⟨a, c₁, h₁, h₂⟩ := gives_bind.mp h
    obtain ⟨e, hlast, hposition, hsize⟩ := (hf a).ends h₂
    exact ⟨e, hlast, (hx.of_gives h₁).size_le.trans hposition, hsize⟩

theorem Advancing.bind {x y : Compiling Unit} (hx : x.Advancing) (hy : y.Advancing) :
    Advancing (do x; y) where
  extending := hx.extending.bind fun _ => hy.extending
  ends h := by
    obtain ⟨_, c₁, h₁, h₂⟩ := gives_bind.mp h
    rcases hy.ends h₂ with hsame | ⟨e, hlast, hposition, hsize⟩
    · rw [hsame]
      exact hx.ends h₁
    · exact .inr ⟨e, hlast, (hx.extending.of_gives h₁).size_le.trans hposition, hsize⟩

theorem advancing_pure (a : α) : Advancing (pure a) :=
  ⟨extending_pure a, fun h => .inl (by rw [(gives_pure.mp h).2])⟩

/-! ### Steps that append -/

theorem emitting_emit (op : Opcode) (ns : List Nat) : Emitting (emit op ns) where
  extending := by
    intro c
    cases h : op.encode ns with
    | error e =>
      unfold emit
      rw [h]
      exact .refl c
    | ok bytes =>
      have hgives : Gives (emit op ns) c () { c with buffer := c.buffer.append op bytes } :=
        gives_emit.mpr ⟨bytes, h, rfl⟩
      rw [after_of_gives hgives]
      refine (Compilation.Extends.refl c).modify_buffer ?_
      rw [Buffer.toList_append]
      exact List.prefix_append _ _
  ends h := by
    obtain ⟨bytes, hbytes, rfl⟩ := gives_emit.mp h
    refine ⟨⟨op, _⟩, rfl, Nat.le_refl _, ?_⟩
    rw [Buffer.size_append, Opcode.length_of_encode hbytes]
    exact Nat.add_assoc ..

theorem endsWith_emit {op : Opcode} {ns : List Nat} {u : Unit} (h : Gives (emit op ns) c u c₁)
    (op' : Opcode) : c₁.buffer.endsWith op' = (op == op') := by
  obtain ⟨bytes, -, rfl⟩ := gives_emit.mp h
  rfl

theorem extending_emit (op : Opcode) (ns : List Nat) : Extending (emit op ns) :=
  (emitting_emit op ns).extending

theorem extending_emitJump (op : Opcode) : Extending (emitJump op) :=
  (extending_get.bind fun _ => extending_pure _).bind fun position =>
    (extending_emit op _).bind fun _ => extending_pure position

theorem extending_emitConstant (v : Value) : Extending (emitConstant v) := by
  refine extending_get.bind fun c => extending_ite (.bind ?_ fun _ => extending_emit _ _)
    (extending_throw _)
  intro c
  change c.Extends { c with constants := c.constants.push v }
  refine ⟨rfl, .refl _, ?_, List.prefix_rfl⟩
  rw [Array.toList_push]
  exact List.prefix_append _ _

theorem extending_define (id : Ident) : Extending (define id) := by
  refine .bind (fun c => ?_) fun _ => extending_get.bind fun c => ?_
  · change c.Extends { c with scope := c.scope.define id.name }
    exact ⟨rfl, c.scope.grows_define id.name, List.prefix_rfl, List.prefix_rfl⟩
  · dsimp only
    split
    · exact extending_ite (extending_pure _) (extending_throw _)
    · exact extending_ite (extending_pure _) (extending_throw _)

theorem extending_defineAll (ids : List Ident) : Extending (defineAll ids) := by
  induction ids with
  | nil => exact extending_pure ()
  | cons id ids ih => exact (extending_define id).bind fun _ => ih

theorem extending_load (id : Ident) : Extending (load id) := by
  refine extending_get.bind fun c => ?_
  split
  · exact extending_emit _ _
  · exact extending_emit _ _
  · exact extending_throw _

theorem emitting_store (s : Symbol) : Emitting (store s) := by
  unfold store
  split
  · exact emitting_emit _ _
  · exact emitting_emit _ _

theorem extending_checkLength (length : Nat) (span : Span) : Extending (checkLength length span) :=
  extending_ite (extending_pure ()) (extending_throw _)

/-! ### Steps that write into the code -/

/-- A patch changes some bytes of the code, or none when it fails. -/
theorem after_patchJump (position : Nat) (c : Compilation) :
    ∃ bytes, (patchJump position).after c =
      { c with buffer := c.buffer.overwrite position bytes } := by
  have hnone : ∃ bytes, c = { c with buffer := c.buffer.overwrite position bytes } := ⟨[], rfl⟩
  change ∃ bytes, Compiling.after (ite (c.buffer.size ≤ maxTarget) (get >>= _) _) c = _
  split
  · refine after_bind (P := fun c' => ∃ bytes, c' =
      { c with buffer := c.buffer.overwrite position bytes }) hnone fun c₁ c₂ hget _ => ?_
    obtain ⟨rfl, rfl⟩ := gives_get.mp hget
    split
    · split
      · next bytes _ => exact ⟨bytes, rfl⟩
      · exact hnone
    · exact hnone
  · exact hnone

/-- A jump that was appended behind `c` is patched behind `c`. -/
theorem patchJump_extends {position : Nat} (h : c.Extends c₁) (hposition : c.buffer.size ≤ position) :
    c.Extends ((patchJump position).after c₁) := by
  obtain ⟨bytes, hafter⟩ := after_patchJump position c₁
  rw [hafter]
  refine h.modify_buffer (Buffer.prefix_overwrite bytes h.code ?_)
  simpa [Buffer.size] using hposition

/-- A block takes back no instruction but its own. -/
theorem finishBlock_extends (hstart : c.buffer.endsWith .pop = false) (h : c.Extends c₁)
    (hends : c₁.buffer = c.buffer ∨ c.buffer.EndsBehind c₁.buffer) :
    c.Extends (finishBlock.after c₁) := by
  change c.Extends (Compiling.after (ite (c₁.buffer.endsWith .pop = true) _ _) c₁)
  split
  · next hpop =>
    rcases hends with hsame | ⟨e, hlast, hposition, -⟩
    · -- the block appended nothing, and in front of it stands no `OpPop`
      rw [hsame, hstart] at hpop
      cases hpop
    · change c.Extends { c₁ with buffer := c₁.buffer.dropLast }
      refine h.modify_buffer ?_
      obtain ⟨behind, hbehind⟩ := h.code
      have hcode : c₁.buffer.dropLast.code.toList =
          c.buffer.code.toList ++ behind.take (e.position - c.buffer.code.toList.length) := by
        rw [Buffer.dropLast, hlast, Array.toList_shrink, ← hbehind, List.take_append,
          List.take_of_length_le (by simpa [Buffer.size] using hposition)]
      rw [hcode]
      exact List.prefix_append _ _
  · exact h.trans (extending_emit _ _ c₁)

/-- Behind no code at all, the body of a function may write where it likes. -/
theorem finishBody_extends (hstart : c.buffer.code = #[]) (h : c.Extends c₁) :
    c.Extends (finishBody.after c₁) := by
  -- what comes behind the last statement, once an `OpPop` of it was turned into a return
  have hreturn : ∀ c₂, c.Extends c₂ → c.Extends ((do
      unless (← get).buffer.endsWith .returnValue do
        emit .ret [] : Compiling Unit).after c₂) := by
    intro c₂ h₂
    change c.Extends (Compiling.after (ite (c₂.buffer.endsWith .returnValue = true) _ _) c₂)
    split
    · exact h₂
    · exact h₂.trans (extending_emit _ _ c₂)
  change c.Extends (Compiling.after (ite (c₁.buffer.endsWith .pop = true)
    (modifyBuffer (·.replaceLast .returnValue) >>= _) _) c₁)
  split
  · refine after_bind (P := c.Extends) ?_ fun _ c₂ _ h₂ => hreturn c₂ h₂
    change c.Extends { c₁ with buffer := c₁.buffer.replaceLast .returnValue }
    refine h.modify_buffer ?_
    rw [hstart]
    exact List.nil_prefix
  · exact hreturn c₁ h

/-- The body of a function is compiled behind no code, and nothing of what is around it changes. -/
theorem enter_extends (parameters : List Ident) {body : Block} (hbody : body.compile.Extending)
    (c : Compilation) : c.enter.Extends
      ((do defineAll parameters; body.compile; finishBody : Compiling Unit).after c.enter) := by
  refine after_bind (P := c.enter.Extends) (extending_defineAll parameters _) fun _ c₁ _ h₁ => ?_
  refine after_bind (P := c.enter.Extends) (h₁.trans (hbody c₁)) fun _ c₂ _ h₂ => ?_
  exact finishBody_extends rfl h₂

/-- A function literal adds constants, that of the function as the last one, and the instruction that
pushes it, whatever becomes of its body. -/
theorem extending_function {name : Option String} {parameters : List Ident} {body : Block}
    (hbody : body.compile.Extending) :
    Extending (function name parameters do body.compile; finishBody) := by
  intro c
  have hparts := enter_extends parameters hbody c
  unfold after at hparts ⊢
  rw [run_function]
  cases h : (do defineAll parameters; body.compile; finishBody : Compiling Unit).run.run c.enter with
  | mk r c₁ =>
    rw [h] at hparts
    cases r with
    | error e => exact hparts.leave
    | ok u => exact hparts.leave.trans (extending_emitConstant _ c₁.leave)

/-- The first block of a conditional takes back its own instructions, and its first jump is patched
behind what was there before. -/
theorem extending_cond {condition consequence : Compiling Unit} {rest : Nat → Compiling Unit}
    (hcondition : condition.Extending) (hconsequence : consequence.Advancing)
    (hrest : ∀ {c c₁ : Compilation} {toEnd : Nat}, c.Extends c₁ → c.buffer.size ≤ toEnd →
      c₁.buffer.endsWith .pop = false → c.Extends ((rest toEnd).after c₁)) :
    Extending (do
      condition
      let toAlternative ← emitJump .jumpNotTruthy
      consequence
      finishBlock
      let toEnd ← emitJump .jump
      patchJump toAlternative
      rest toEnd) := by
  intro c
  refine after_bind (P := c.Extends) (hcondition c) fun _ c₁ _ h₁ => ?_
  refine after_bind (P := c.Extends) (h₁.trans (extending_emitJump _ c₁)) fun m c₂ hm h₂ => ?_
  obtain ⟨rfl, hjump₂⟩ := gives_emitJump.mp hm
  refine after_bind (P := c.Extends) (h₂.trans (hconsequence.extending c₂)) fun _ c₃ hblock h₃ => ?_
  have hfinish : c₂.Extends (finishBlock.after c₃) :=
    finishBlock_extends (endsWith_emit hjump₂ .pop) (hconsequence.extending.of_gives hblock)
      (hconsequence.ends hblock)
  refine after_bind (P := c.Extends) (h₂.trans hfinish) fun _ c₄ _ h₄ => ?_
  refine after_bind (P := c.Extends) (h₄.trans (extending_emitJump _ c₄)) fun n c₅ hn h₅ => ?_
  obtain ⟨rfl, hjump₅⟩ := gives_emitJump.mp hn
  refine after_bind (P := c.Extends) (patchJump_extends h₅ h₁.size_le) fun _ c₆ hpatch h₆ => ?_
  refine hrest h₆ h₄.size_le ?_
  obtain ⟨-, op, bytes, -, -, rfl⟩ := gives_patchJump.mp hpatch
  rw [Buffer.endsWith, Buffer.last_overwrite]
  exact endsWith_emit hjump₅ .pop

end Compiling

open Compiling

/-! ### Trees -/

mutual

/-- **Compiling an expression only extends**, also when it fails. -/
theorem Expr.compile_extending (e : Expr) : e.compile.Extending := by
  cases e with
  | name id => exact extending_load id
  | integer _ n => exact extending_emitConstant _
  | string _ s => exact extending_emitConstant _
  | boolean _ b =>
    cases b with
    | true => exact extending_emit _ _
    | false => exact extending_emit _ _
  | unary _ op e => exact (Expr.compile_extending e).bind fun _ => extending_emit _ _
  | binary _ op l r =>
    have hl := Expr.compile_extending l
    have hr := Expr.compile_extending r
    rw [Expr.compile]
    refine extending_ite ?_ ?_
    · exact hr.bind fun _ => hl.bind fun _ => extending_emit _ _
    · exact hl.bind fun _ => hr.bind fun _ => extending_emit _ _
  | cond _ condition consequence alternative =>
    have hcondition := Expr.compile_extending condition
    have hconsequence := Block.compile_advancing consequence
    cases alternative with
    | none =>
      refine extending_cond hcondition hconsequence fun {c c₁ toEnd} h hposition _ => ?_
      refine after_bind (P := c.Extends) (h.trans (extending_emit _ _ c₁)) fun _ c₂ _ h₂ => ?_
      exact patchJump_extends h₂ hposition
    | some block =>
      have hblock := Block.compile_advancing block
      refine extending_cond hcondition hconsequence fun {c c₁ toEnd} h hposition hlast => ?_
      refine after_bind (P := c.Extends) (h.trans (hblock.extending c₁)) fun _ c₂ hgives h₂ => ?_
      have hfinish : c₁.Extends (finishBlock.after c₂) :=
        finishBlock_extends hlast (hblock.extending.of_gives hgives) (hblock.ends hgives)
      refine after_bind (P := c.Extends) (h.trans hfinish) fun _ c₃ _ h₃ => ?_
      exact patchJump_extends h₃ hposition
  | function _ parameters body => exact extending_function (Block.compile_advancing body).extending
  | call _ callee arguments =>
    have hcall := (Expr.compile_extending callee).bind fun _ =>
      (Expr.compileAll_extending arguments).bind fun _ => extending_emit .call [arguments.length]
    exact extending_ite ((extending_throw _).bind fun _ => hcall) hcall
  | array _ elements =>
    exact (extending_checkLength _ _).bind fun _ =>
      (Expr.compileAll_extending elements).bind fun _ => extending_emit _ _
  | hash _ pairs =>
    exact (extending_checkLength _ _).bind fun _ =>
      (Expr.compilePairs_extending pairs).bind fun _ => extending_emit _ _
  | index _ collection key =>
    exact (Expr.compile_extending collection).bind fun _ =>
      (Expr.compile_extending key).bind fun _ => extending_emit _ _
termination_by structural e

theorem Expr.compileAll_extending (es : List Expr) : (Expr.compileAll es).Extending := by
  cases es with
  | nil => exact extending_pure ()
  | cons e es => exact (Expr.compile_extending e).bind fun _ => Expr.compileAll_extending es
termination_by structural es

theorem Expr.compilePairs_extending (ps : List (Expr × Expr)) :
    (Expr.compilePairs ps).Extending := by
  cases ps with
  | nil => exact extending_pure ()
  | cons p ps =>
    cases p with
    | mk key value =>
      exact (Expr.compile_extending key).bind fun _ =>
        (Expr.compile_extending value).bind fun _ => Expr.compilePairs_extending ps
termination_by structural ps

theorem Block.compile_advancing (b : Block) : b.compile.Advancing := by
  cases b with
  | mk _ statements => exact Stmt.compileAll_advancing statements
termination_by structural b

/-- **Compiling a statement only extends**, also when it fails. -/
theorem Stmt.compile_advancing (s : Stmt) : s.compile.Advancing := by
  cases s with
  | bind _ id value =>
    -- only a function literal takes the name that it is bound to
    have hstore {value : Compiling Unit} (hvalue : value.Extending) :
        (do let s ← define id; value; store s : Compiling Unit).Advancing :=
      (Emitting.after_extending (extending_define id) fun s =>
        .after_extending hvalue fun _ => emitting_store s).advancing
    cases value with
    | function _ parameters body =>
      exact hstore (extending_function (Block.compile_advancing body).extending)
    | _ => exact hstore (Expr.compile_extending _)
  | ret _ value =>
    exact (Emitting.after_extending (Expr.compile_extending value) fun _ =>
      emitting_emit _ _).advancing
  | expr _ value =>
    exact (Emitting.after_extending (Expr.compile_extending value) fun _ =>
      emitting_emit _ _).advancing
  | block body => exact Block.compile_advancing body
termination_by structural s

theorem Stmt.compileAll_advancing (ss : List Stmt) : (Stmt.compileAll ss).Advancing := by
  cases ss with
  | nil => exact advancing_pure ()
  | cons s ss => exact (Stmt.compile_advancing s).bind (Stmt.compileAll_advancing ss)
termination_by structural ss

end

theorem Scope.isOutermost_iff {s : Scope} : s.isOutermost = true ↔ s.locals? = none := by
  cases s <;> simp [isOutermost, outer?, locals?]

namespace Compilation

/-- **One more program only extends**, also when it does not compile. -/
theorem add_extends (c : Compilation) (p : Program) : c.Extends (c.add p).2 :=
  (Stmt.compileAll_advancing p.statements).extending c

/-- The compilations that can be come to: programs are added one after the other, whether they compile
or not, and the names and constants are carried over to fresh code. -/
inductive Reachable : Compilation → Prop
  | empty : Reachable empty
  | add {c : Compilation} (p : Program) : Reachable c → Reachable (c.add p).2
  | carry {c : Compilation} : Reachable c → Reachable (resume c.scope c.constants)

/-- Between programs no function is open. -/
theorem Reachable.outermost {c : Compilation} (h : Reachable c) :
    c.outer = [] ∧ c.scope.locals? = none := by
  induction h with
  | empty => exact ⟨rfl, rfl⟩
  | @add c p _ ih =>
    have hextends := c.add_extends p
    refine ⟨hextends.outer.trans ih.1, ?_⟩
    rw [← Option.not_isSome_iff_eq_none, ← hextends.scope.locals?.isSome_eq, ih.2]
    simp
  | carry _ ih => exact ⟨rfl, ih.2⟩

/-- **Compilation only extends, also when it fails.** -/
theorem Reachable.add_keeps {c : Compilation} (h : Reachable c) (p : Program) :
    (c.add p).2.outer = [] ∧ (c.add p).2.scope.isOutermost = true ∧
      c.buffer.code.toList <+: (c.add p).2.buffer.code.toList ∧
      c.constants.toList <+: (c.add p).2.constants.toList ∧
      ∀ x s, c.scope.resolve x = some s → (c.add p).2.scope.resolve x = some s := by
  have hextends := c.add_extends p
  obtain ⟨houter, hlocals⟩ := (h.add p).outermost
  refine ⟨houter, Scope.isOutermost_iff.mpr hlocals, hextends.code, hextends.constants, ?_⟩
  intro x s hs
  rw [Scope.resolve_of_outermost h.outermost.2] at hs
  rw [Scope.resolve_of_outermost hlocals]
  obtain ⟨i, hi, rfl⟩ := Option.map_eq_some_iff.mp hs
  rw [hextends.scope.globals x i hi]
  rfl

end Compilation

/-- The program `1; fn() { 2; fn() { 3(4, …) } };`. The call has one argument too many. -/
def Program.failsInside : Program where
  statements := [.expr default (.integer default 1),
    .expr default (.function default [] (.mk default [.expr default (.integer default 2),
      .expr default (.function default [] (.mk default [.expr default
        (.call default (.integer default 3) (List.replicate 256 (.integer default 4)))]))]))]

/-- The program `if (true) { }`, whose block has no instruction of its own to take back. -/
def Program.emptyBranch : Program where
  statements := [.expr default (.cond default (.boolean default true) (.mk default []) none)]

/-- What is left of a program that fails two functions deep, continued with another one. -/
theorem Compilation.Reachable.add_keeps_failsInside :
    (Compilation.empty.add .failsInside).1 = .error (.tooManyArguments default) ∧
      (Compilation.empty.add .failsInside).2.buffer.last = some ⟨.pop, 3⟩ ∧
      Reachable (Compilation.empty.add .failsInside).2 ∧
      ((Compilation.empty.add .failsInside).2.add .emptyBranch).2.outer = [] ∧
      ((Compilation.empty.add .failsInside).2.add .emptyBranch).2.scope.isOutermost = true ∧
      (Compilation.empty.add .failsInside).2.buffer.code.toList <+:
        ((Compilation.empty.add .failsInside).2.add .emptyBranch).2.buffer.code.toList ∧
      (Compilation.empty.add .failsInside).2.constants.toList <+:
        ((Compilation.empty.add .failsInside).2.add .emptyBranch).2.constants.toList ∧
      ∀ x s, (Compilation.empty.add .failsInside).2.scope.resolve x = some s →
        ((Compilation.empty.add .failsInside).2.add .emptyBranch).2.scope.resolve x = some s :=
  have h : Reachable (Compilation.empty.add .failsInside).2 := .add .failsInside .empty
  ⟨by decide +kernel, by decide +kernel, h, Reachable.add_keeps h .emptyBranch⟩

end Monkey
