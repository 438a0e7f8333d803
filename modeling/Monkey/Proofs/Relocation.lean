import Monkey.Error
import Monkey.Proofs.Steps

/-!
# Trees at other places

Tokens and trees keep the spans that they were read from. `relocate` puts other spans in their place,
and leaves all the rest as it is.

The compiler does not look at spans. It only hands them on to the errors that it raises, so that the
program at other places has the same code, or the same error at another place
(`Program.compile_relocate`).
-/

namespace Monkey

/-! ### Tokens and trees -/

/-- The token at the place that `f` makes of its own. -/
def Token.relocate (f : Span → Span) (t : Token) : Token := { t with span := f t.span }

/-- The name at another place. -/
def Ident.relocate (f : Span → Span) (id : Ident) : Ident := ⟨id.token.relocate f⟩

@[simp] theorem Token.kind_relocate (f : Span → Span) (t : Token) : (t.relocate f).kind = t.kind := rfl

@[simp] theorem Token.literal_relocate (f : Span → Span) (t : Token) :
    (t.relocate f).literal = t.literal := rfl

@[simp] theorem Token.span_relocate (f : Span → Span) (t : Token) :
    (t.relocate f).span = f t.span := rfl

@[simp] theorem Ident.name_relocate (f : Span → Span) (id : Ident) :
    (id.relocate f).name = id.name := rfl

mutual

/-- The expression with all its tokens at other places. -/
def Expr.relocate (f : Span → Span) : Expr → Expr
  | .name id => .name (id.relocate f)
  | .integer t n => .integer (t.relocate f) n
  | .boolean t b => .boolean (t.relocate f) b
  | .string t s => .string (t.relocate f) s
  | .unary t op e => .unary (t.relocate f) op (e.relocate f)
  | .binary t op l r => .binary (t.relocate f) op (l.relocate f) (r.relocate f)
  | .cond t c yes none => .cond (t.relocate f) (c.relocate f) (yes.relocate f) none
  | .cond t c yes (some no) =>
    .cond (t.relocate f) (c.relocate f) (yes.relocate f) (some (no.relocate f))
  | .function t ps body => .function (t.relocate f) (ps.map (Ident.relocate f)) (body.relocate f)
  | .call t e es => .call (t.relocate f) (e.relocate f) (Expr.relocateAll f es)
  | .array t es => .array (t.relocate f) (Expr.relocateAll f es)
  | .hash t ps => .hash (t.relocate f) (Expr.relocatePairs f ps)
  | .index t e i => .index (t.relocate f) (e.relocate f) (i.relocate f)
termination_by structural e => e

/-- Several expressions with their tokens at other places. -/
def Expr.relocateAll (f : Span → Span) : List Expr → List Expr
  | [] => []
  | e :: es => e.relocate f :: Expr.relocateAll f es
termination_by structural es => es

/-- The entries of a hash literal with their tokens at other places. -/
def Expr.relocatePairs (f : Span → Span) : List (Expr × Expr) → List (Expr × Expr)
  | [] => []
  | (k, v) :: ps => (k.relocate f, v.relocate f) :: Expr.relocatePairs f ps
termination_by structural ps => ps

/-- The block with all its tokens at other places. -/
def Block.relocate (f : Span → Span) : Block → Block
  | .mk t ss => .mk (t.relocate f) (Stmt.relocateAll f ss)
termination_by structural b => b

/-- The statement with all its tokens at other places. -/
def Stmt.relocate (f : Span → Span) : Stmt → Stmt
  | .bind t id e => .bind (t.relocate f) (id.relocate f) (e.relocate f)
  | .ret t e => .ret (t.relocate f) (e.relocate f)
  | .expr t e => .expr (t.relocate f) (e.relocate f)
  | .block b => .block (b.relocate f)
termination_by structural s => s

/-- Several statements with their tokens at other places. -/
def Stmt.relocateAll (f : Span → Span) : List Stmt → List Stmt
  | [] => []
  | s :: ss => s.relocate f :: Stmt.relocateAll f ss
termination_by structural ss => ss

end

/-- The program with all its tokens at other places. -/
def Program.relocate (f : Span → Span) (p : Program) : Program := ⟨Stmt.relocateAll f p.statements⟩

section

variable (f : Span → Span)

theorem Expr.relocateAll_eq_map (es : List Expr) : relocateAll f es = es.map (relocate f) := by
  induction es with
  | nil => rfl
  | cons e es ih => rw [relocateAll, ih, List.map_cons]

theorem Expr.relocatePairs_eq_map (ps : List (Expr × Expr)) :
    relocatePairs f ps = ps.map (Prod.map (relocate f) (relocate f)) := by
  induction ps with
  | nil => rfl
  | cons p ps ih =>
    rw [relocatePairs, ih, List.map_cons]
    rfl

theorem Stmt.relocateAll_eq_map (ss : List Stmt) : relocateAll f ss = ss.map (relocate f) := by
  induction ss with
  | nil => rfl
  | cons s ss ih => rw [relocateAll, ih, List.map_cons]

end

/-! ### Errors -/

/-- The diagnostic about another place. -/
def Diagnostic.relocate (f : Span → Span) : Diagnostic → Diagnostic
  | unexpectedToken expected found s => unexpectedToken expected found (f s)
  | noExpression kind s => noExpression kind (f s)
  | invalidInteger literal s => invalidInteger literal (f s)

/-- The error at another place, if it has one. -/
def CompileError.relocate (f : Span → Span) : CompileError → CompileError
  | undefinedVariable name s => undefinedVariable name (f s)
  | tooManyGlobals s => tooManyGlobals (f s)
  | tooManyLocals s => tooManyLocals (f s)
  | tooManyArguments s => tooManyArguments (f s)
  | tooManyElements s => tooManyElements (f s)
  | e@(tooManyConstants) | e@(jumpOutOfRange _) | e@(instruction _) => e

/-- The error at other places. A fault of a run has none. -/
def Error.relocate (f : Span → Span) : Error → Error
  | parse ds => parse (ds.map (Diagnostic.relocate f))
  | compile e => compile (e.relocate f)
  | e@(runtime _) | e@(limits _) | e@(unreadable _) | e@unfinished => e

/-! ### Compiling at other places -/

namespace Compiling

variable {α β : Type} (f : Span → Span)

/-- The step that raises its errors at other places. -/
def relocate (x : Compiling α) : Compiling α := ExceptT.adapt (CompileError.relocate f) x

theorem run_relocate (x : Compiling α) (c : Compilation) :
    (x.relocate f).run.run c =
      ((x.run.run c).1.mapError (CompileError.relocate f), (x.run.run c).2) := rfl

/-- Two steps are the same if they do the same to every compilation. -/
theorem eq_of_run {x y : Compiling α} (h : ∀ c, x.run.run c = y.run.run c) : x = y := funext h

/-- What is done one after the other can be relocated one after the other. -/
@[simp] theorem relocate_bind (x : Compiling α) (g : α → Compiling β) :
    relocate f (x >>= g) = relocate f x >>= fun a => relocate f (g a) := by
  apply eq_of_run
  intro c
  rw [run_relocate, run_bind, run_bind, run_relocate]
  cases x.run.run c with
  | mk r c₁ =>
    cases r with
    | error e => rfl
    | ok a => rfl

@[simp] theorem relocate_pure (a : α) : relocate f (pure a) = pure a := rfl

@[simp] theorem relocate_throw (e : CompileError) :
    relocate f (throw e : Compiling α) = throw (e.relocate f) := rfl

@[simp] theorem relocate_get : relocate f get = get := rfl

@[simp] theorem relocate_modify (g : Compilation → Compilation) :
    relocate f (modify g) = modify g := rfl

@[simp] theorem relocate_modifyBuffer (g : Buffer → Buffer) :
    relocate f (modifyBuffer g) = modifyBuffer g := rfl

@[simp] theorem relocate_emit (op : Opcode) (operands : List Nat) :
    relocate f (emit op operands) = emit op operands := by
  unfold emit
  split
  · rfl
  · rfl

theorem relocate_ite {p : Prop} [Decidable p] (x y : Compiling α) :
    relocate f (if p then x else y) = if p then relocate f x else relocate f y :=
  apply_ite (relocate f) p x y

@[simp] theorem relocate_emitJump (op : Opcode) : relocate f (emitJump op) = emitJump op := by
  simp only [emitJump, offset, relocate_bind, relocate_get, relocate_emit, relocate_pure]

@[simp] theorem relocate_offset : relocate f offset = offset := rfl

@[simp] theorem relocate_patchJump (position : Nat) :
    relocate f (patchJump position) = patchJump position := by
  unfold patchJump
  rw [relocate_bind, relocate_offset]
  refine bind_congr fun target => ?_
  rw [relocate_ite, relocate_bind, relocate_get]
  congr 1
  refine bind_congr fun c => ?_
  split
  · split
    · rfl
    · rfl
  · rfl

@[simp] theorem relocate_emitConstant (v : Value) :
    relocate f (emitConstant v) = emitConstant v := by
  simp only [emitConstant, relocate_bind, relocate_get, relocate_ite, relocate_modify, relocate_emit,
    relocate_throw, CompileError.relocate]

/-- The name is bound in the same way, and its span is only looked at when there is no slot left. -/
theorem relocate_define (id : Ident) : relocate f (define id) = define (id.relocate f) := by
  -- both sides bind the same name, which is seen once the token is taken apart
  obtain ⟨kind, name, span⟩ := id
  show relocate f (define ⟨kind, name, span⟩) = define ⟨kind, name, f span⟩
  unfold define
  dsimp only [Ident.name]
  rw [relocate_bind, relocate_modify]
  refine bind_congr fun _ => ?_
  rw [relocate_bind, relocate_get]
  refine bind_congr fun c => ?_
  split
  · rw [relocate_ite]
    rfl
  · rw [relocate_ite]
    rfl

theorem relocate_defineAll (ids : List Ident) :
    relocate f (defineAll ids) = defineAll (ids.map (Ident.relocate f)) := by
  induction ids with
  | nil => rfl
  | cons id ids ih =>
    simp only [defineAll, List.map_cons, relocate_bind, relocate_define, ih]

theorem relocate_load (id : Ident) : relocate f (load id) = load (id.relocate f) := by
  simp only [load, relocate_bind, relocate_get, Ident.name_relocate]
  refine bind_congr fun c => ?_
  split
  · exact relocate_emit f _ _
  · exact relocate_emit f _ _
  · rfl

@[simp] theorem relocate_store (symbol : Symbol) : relocate f (store symbol) = store symbol := by
  unfold store
  split
  · exact relocate_emit f _ _
  · exact relocate_emit f _ _

@[simp] theorem relocate_finishBody : relocate f finishBody = finishBody := by
  simp only [finishBody, relocate_bind, relocate_get, relocate_ite, relocate_modifyBuffer,
    relocate_pure, relocate_emit]

@[simp] theorem relocate_finishBlock : relocate f finishBlock = finishBlock := by
  simp only [finishBlock, relocate_bind, relocate_get, relocate_ite, relocate_modifyBuffer,
    relocate_emit]

theorem relocate_checkLength (length : Nat) (span : Span) :
    relocate f (checkLength length span) = checkLength length (f span) := by
  simp only [checkLength, relocate_ite, relocate_pure, relocate_throw, CompileError.relocate]

/-- What is done with the outcome of a step that is tried at other places. -/
theorem relocate_lift_bind (x : Compiling α) (g : Except CompileError α → Compiling β) :
    (ExceptT.lift (relocate f x).run : Compiling _) >>= g =
      (ExceptT.lift x.run : Compiling _) >>= fun outcome =>
        g (outcome.mapError (CompileError.relocate f)) := by
  apply eq_of_run
  intro c
  rw [run_bind, run_bind]
  rfl

/-- A function is closed before the error of its body is raised, so that it does not matter what that is
about. -/
theorem relocate_function (name : Option String) (parameters : List Ident) (body : Compiling Unit) :
    relocate f (function name parameters body) =
      function name (parameters.map (Ident.relocate f)) (relocate f body) := by
  -- what the function is made of is relocated as a whole
  have hparts : (do defineAll (parameters.map (Ident.relocate f)); relocate f body) =
      relocate f (do defineAll parameters; body) := by
    rw [relocate_bind, relocate_defineAll]
  have hlift : relocate f (ExceptT.lift (ExceptT.run (do defineAll parameters; body))) =
      ExceptT.lift (ExceptT.run (do defineAll parameters; body)) := rfl
  unfold function
  rw [hparts, List.length_map, relocate_bind, relocate_modify]
  refine bind_congr fun _ => ?_
  rw [relocate_lift_bind, relocate_bind, hlift]
  refine bind_congr fun outcome => ?_
  rw [relocate_bind]
  refine bind_congr fun function => ?_
  cases outcome with
  | error e => rfl
  | ok u => exact relocate_emitConstant f _

end Compiling

open Compiling

/-! ### Trees compile alike at all places -/

mutual

/-- **The compiler looks at no span** of an expression. -/
theorem Expr.compile_relocate (f : Span → Span) (e : Expr) :
    (e.relocate f).compile = relocate f e.compile := by
  cases e with
  | name id => exact (relocate_load f id).symm
  | integer _ n => exact (relocate_emitConstant f _).symm
  | string _ s => exact (relocate_emitConstant f _).symm
  | boolean _ b =>
    cases b with
    | true => exact (relocate_emit f _ _).symm
    | false => exact (relocate_emit f _ _).symm
  | unary _ op e =>
    have he := Expr.compile_relocate f e
    simp only [Expr.relocate, Expr.compile, relocate_bind, relocate_emit, he]
  | binary _ op l r =>
    have hl := Expr.compile_relocate f l
    have hr := Expr.compile_relocate f r
    simp only [Expr.relocate, Expr.compile, relocate_bind, relocate_ite, relocate_emit, hl, hr]
  | cond _ c yes no =>
    have hc := Expr.compile_relocate f c
    have hyes := Block.compile_relocate f yes
    cases no with
    | none =>
      simp only [Expr.relocate, Expr.compile, relocate_bind, relocate_emitJump, relocate_patchJump,
        relocate_finishBlock, relocate_emit, hc, hyes]
    | some no =>
      have hno := Block.compile_relocate f no
      simp only [Expr.relocate, Expr.compile, relocate_bind, relocate_emitJump, relocate_patchJump,
        relocate_finishBlock, hc, hyes, hno]
  | function _ ps body =>
    have hbody := Block.compile_relocate f body
    simp only [Expr.relocate, Expr.compile, relocate_function, relocate_bind, relocate_finishBody,
      hbody]
  | call t e es =>
    have he := Expr.compile_relocate f e
    have hes := Expr.compileAll_relocate f es
    simp only [Expr.relocate, Expr.compile, relocate_bind, relocate_ite, relocate_throw,
      relocate_emit, CompileError.relocate, Token.span_relocate, he, hes]
    -- the error names the number of arguments, which stays
    simp only [Expr.relocateAll_eq_map, List.length_map]
  | array t es =>
    have hes := Expr.compileAll_relocate f es
    simp only [Expr.relocate, Expr.compile, relocate_bind, relocate_checkLength, relocate_emit,
      Token.span_relocate, hes]
    simp only [Expr.relocateAll_eq_map, List.length_map]
  | hash t ps =>
    have hps := Expr.compilePairs_relocate f ps
    simp only [Expr.relocate, Expr.compile, relocate_bind, relocate_checkLength, relocate_emit,
      Token.span_relocate, hps]
    simp only [Expr.relocatePairs_eq_map, List.length_map]
  | index _ e i =>
    have he := Expr.compile_relocate f e
    have hi := Expr.compile_relocate f i
    simp only [Expr.relocate, Expr.compile, relocate_bind, relocate_emit, he, hi]
termination_by structural e

theorem Expr.compileAll_relocate (f : Span → Span) (es : List Expr) :
    Expr.compileAll (Expr.relocateAll f es) = relocate f (Expr.compileAll es) := by
  cases es with
  | nil => rfl
  | cons e es =>
    have he := Expr.compile_relocate f e
    have hes := Expr.compileAll_relocate f es
    simp only [Expr.relocateAll, Expr.compileAll, relocate_bind, he, hes]
termination_by structural es

theorem Expr.compilePairs_relocate (f : Span → Span) (ps : List (Expr × Expr)) :
    Expr.compilePairs (Expr.relocatePairs f ps) = relocate f (Expr.compilePairs ps) := by
  cases ps with
  | nil => rfl
  | cons p ps =>
    cases p with
    | mk k v =>
      have hk := Expr.compile_relocate f k
      have hv := Expr.compile_relocate f v
      have hps := Expr.compilePairs_relocate f ps
      simp only [Expr.relocatePairs, Expr.compilePairs, relocate_bind, hk, hv, hps]
termination_by structural ps

theorem Block.compile_relocate (f : Span → Span) (b : Block) :
    (b.relocate f).compile = relocate f b.compile := by
  cases b with
  | mk t ss => exact Stmt.compileAll_relocate f ss
termination_by structural b

/-- **The compiler looks at no span** of a statement. -/
theorem Stmt.compile_relocate (f : Span → Span) (s : Stmt) :
    (s.relocate f).compile = relocate f s.compile := by
  cases s with
  | bind t id e =>
    have he := Expr.compile_relocate f e
    -- only a function literal takes the name that it is bound to
    cases e with
    | function _ ps body =>
      have hbody := Block.compile_relocate f body
      simp only [Stmt.relocate, Stmt.compile, Expr.relocate, relocate_bind, relocate_define,
        relocate_function, relocate_finishBody, relocate_store, Ident.name_relocate, hbody]
    | cond _ _ _ no =>
      cases no with
      | none =>
        rw [Expr.relocate] at he
        simp only [Stmt.relocate, Stmt.compile, Expr.relocate, relocate_bind, relocate_define,
          relocate_store, he]
      | some no =>
        rw [Expr.relocate] at he
        simp only [Stmt.relocate, Stmt.compile, Expr.relocate, relocate_bind, relocate_define,
          relocate_store, he]
    | _ =>
      rw [Expr.relocate] at he
      simp only [Stmt.relocate, Stmt.compile, Expr.relocate, relocate_bind, relocate_define,
        relocate_store, he]
  | ret _ e =>
    have he := Expr.compile_relocate f e
    simp only [Stmt.relocate, Stmt.compile, relocate_bind, relocate_emit, he]
  | expr _ e =>
    have he := Expr.compile_relocate f e
    simp only [Stmt.relocate, Stmt.compile, relocate_bind, relocate_emit, he]
  | block b => exact Block.compile_relocate f b
termination_by structural s

theorem Stmt.compileAll_relocate (f : Span → Span) (ss : List Stmt) :
    Stmt.compileAll (Stmt.relocateAll f ss) = relocate f (Stmt.compileAll ss) := by
  cases ss with
  | nil => rfl
  | cons s ss =>
    have hs := Stmt.compile_relocate f s
    have hss := Stmt.compileAll_relocate f ss
    simp only [Stmt.relocateAll, Stmt.compileAll, relocate_bind, hs, hss]
termination_by structural ss

end

/-- **A program at other places compiles alike.** -/
theorem Compilation.add_relocate (f : Span → Span) (c : Compilation) (p : Program) :
    c.add (p.relocate f) = ((c.add p).1.mapError (CompileError.relocate f), (c.add p).2) := by
  unfold Compilation.add
  rw [Program.relocate, Stmt.compileAll_relocate, run_relocate]

/-- A program at other places has the same code, or the same error at another place. -/
theorem Program.compile_relocate (f : Span → Span) (p : Program) :
    (p.relocate f).compile = p.compile.mapError (CompileError.relocate f) := by
  unfold Program.compile
  rw [Compilation.add_relocate]
  cases Compilation.empty.add p with
  | mk outcome c =>
    cases outcome with
    | error e => rfl
    | ok u => rfl

end Monkey
