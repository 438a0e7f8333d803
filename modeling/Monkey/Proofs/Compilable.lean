import Mathlib.Data.List.Dedup
import Mathlib.Data.List.Perm.Basic
import Monkey.Proofs.Deciding
import Monkey.Proofs.Inventory

/-!
# When a program compiles

The conditions on a program that limit a number can be read off its tree (`Program.Compilable`): how
many literals there are, how many names each scope binds, how many arguments, elements and pairs. What a
name means and where a jump goes depends on all that comes before, so these conditions are those of
the pass itself.

`Pass.Sums` says of a pass what it adds to the numbers, and that its limiting conditions are met when
the sums are within the limits at its end. The sums only grow, so that a limit that holds at the end
held all the way. Each way to put passes together has a lemma, and each tree is one of these
(`Expr.pass_sums`, `Stmt.passAll_sums`). `Program.compile_exact` is the result.
-/

namespace Monkey

/-! ### Numbers of names -/

/-- There are as many numbers as there are different things. -/
theorem Numbering.size_eq_length_dedup {ns : Numbering String} {xs : List String}
    (h : ∀ x, (ns.find? x).isSome ↔ x ∈ xs) : ns.size = xs.dedup.length := by
  have hperm : ns.table.keys.Perm xs.dedup := by
    rw [List.perm_ext_iff_of_nodup Std.HashMap.nodup_keys xs.nodup_dedup]
    intro x
    rw [Std.HashMap.mem_keys, List.mem_dedup, ← h x]
    simp [find?]
  rw [size, ← Std.HashMap.length_keys, hperm.length_eq]

theorem Numbering.isSome_find?_add_iff (ns : Numbering String) (x y : String) :
    ((ns.add x).find? y).isSome ↔ (ns.find? y).isSome ∨ y = x := by
  rw [find?_add]
  by_cases hxy : x = y
  · subst hxy
    cases h : ns.find? x <;> simp
  · rw [if_neg (by simp [hxy])]
    exact ⟨.inl, fun h => h.resolve_right (Ne.symm hxy)⟩

theorem Numbering.size_le_add (ns : Numbering String) (x : String) : ns.size ≤ (ns.add x).size := by
  rw [size_add]
  split
  · exact Nat.le_refl _
  · exact Nat.le_succ _

/-! ### What the trees contain -/

mutual

/-- The number of integer, string and function literals in an expression. -/
def Expr.literalCount : Expr → Nat
  | .name _ | .boolean _ _ => 0
  | .integer _ _ | .string _ _ => 1
  | .unary _ _ e => e.literalCount
  | .binary _ _ l r => l.literalCount + r.literalCount
  | .cond _ condition consequence alternative =>
    condition.literalCount + consequence.literalCount +
      match alternative with
      | some block => block.literalCount
      | none => 0
  | .function _ _ body => body.literalCount + 1
  | .call _ callee arguments => callee.literalCount + Expr.literalCountAll arguments
  | .array _ elements => Expr.literalCountAll elements
  | .hash _ pairs => Expr.literalCountPairs pairs
  | .index _ collection key => collection.literalCount + key.literalCount
termination_by structural e => e

/-- The number of literals in several expressions. -/
def Expr.literalCountAll : List Expr → Nat
  | [] => 0
  | e :: es => e.literalCount + Expr.literalCountAll es
termination_by structural es => es

/-- The number of literals in keys and values. -/
def Expr.literalCountPairs : List (Expr × Expr) → Nat
  | [] => 0
  | (key, value) :: pairs => key.literalCount + value.literalCount + Expr.literalCountPairs pairs
termination_by structural pairs => pairs

/-- The number of literals in a block. -/
def Block.literalCount : Block → Nat
  | .mk _ statements => Stmt.literalCountAll statements
termination_by structural b => b

/-- The number of literals in a statement. -/
def Stmt.literalCount : Stmt → Nat
  | .bind _ _ value | .ret _ value | .expr _ value => value.literalCount
  | .block body => body.literalCount
termination_by structural s => s

/-- The number of literals in several statements. -/
def Stmt.literalCountAll : List Stmt → Nat
  | [] => 0
  | s :: ss => s.literalCount + Stmt.literalCountAll ss
termination_by structural ss => ss

end

/-- The names among marks. -/
def Mark.names (marks : List Mark) : List String := marks.filterMap Mark.name?

@[simp] theorem Mark.names_append (marks marks' : List Mark) :
    names (marks ++ marks') = names marks ++ names marks' := List.filterMap_append

/-- The names that a function binds: its parameters, and those of the `let` statements in its body that
stand in no function within. -/
def Block.boundNames (parameters : List Ident) (body : Block) : List String :=
  parameters.map Ident.name ++ Mark.names body.marks

namespace Program

/-- The number of integer, string and function literals of a program. -/
def literalCount (p : Program) : Nat := Stmt.literalCountAll p.statements

/-- The numbers of arguments of all calls, of elements of all arrays, and of keys and values of all
hashes, wherever they stand. -/
def counts (p : Program) : List (Opcode × Nat) :=
  Stmt.countsAll p.statements ++ p.functions.flatMap fun f => f.2.counts

/-- A program that is within all limits, in which every name has a meaning where it is used. -/
structure Compilable (p : Program) : Prop where
  bound : ∀ scope id, .bound scope id ∈ p.conditions → (scope.resolve id.name).isSome
  literals : p.literalCount ≤ 65536
  globals : p.lets.dedup.length ≤ 65536
  locals : ∀ f ∈ p.functions, (f.2.boundNames f.1).dedup.length ≤ 256
  arguments : ∀ n, (.call, n) ∈ p.counts → n ≤ 255
  elements : ∀ n, (.array, n) ∈ p.counts → n ≤ 65535
  /-- Keys and values come in pairs. -/
  pairs : ∀ n, (.hash, n) ∈ p.counts → n / 2 ≤ 32767
  targets : ∀ offset, .target offset ∈ p.conditions → offset ≤ 65535

end Program

/-! ### Sums -/

/-- Whether the condition limits a number that can be read off the tree. -/
def Condition.limits : Condition → Bool
  | bound _ _ | target _ => false
  | literals _ | names _ _ _ | arguments _ _ | elements _ _ => true

/-- The number is within the limit of its instruction. -/
def CountFits : Opcode × Nat → Prop
  | (.call, n) => n ≤ maxArguments
  | (.array, n) | (.hash, n) => n ≤ maxElements
  | _ => True

/-- The function is within the limits for its names, and the calls and literals in its body are within
theirs. -/
structure FunctionFits (f : List Ident × Block) : Prop where
  names : (f.2.boundNames f.1).dedup.length ≤ maxLocals
  counts : ∀ x ∈ f.2.counts, CountFits x

/-- What a pass adds to the numbers of its place, and that its conditions on them are met when they are
within the limits at its end. -/
structure Pass.Sums (P : Pass) (names : List String) (literals : Nat) (counts : List (Opcode × Nat))
    (functions : List (List Ident × Block)) : Prop where
  names : ∀ p x, ((P p).2.scope.names.find? x).isSome ↔
    (p.scope.names.find? x).isSome ∨ x ∈ names
  storage : ∀ p, (P p).2.scope.storage = p.scope.storage
  size_le : ∀ p, p.scope.size ≤ (P p).2.scope.size
  literals : ∀ p, (P p).2.literals = p.literals + literals
  holds : ∀ p, p.literals ≤ maxConstants → p.scope.size ≤ p.scope.storage.limit →
    ((∀ k ∈ (P p).1, k.holds = true) ↔ (∀ k ∈ (P p).1, k.limits = false → k.holds = true) ∧
      (P p).2.literals ≤ maxConstants ∧ (P p).2.scope.size ≤ p.scope.storage.limit ∧
      (∀ x ∈ counts, CountFits x) ∧ ∀ f ∈ functions, FunctionFits f)

namespace Pass

variable {P Q : Pass} {xs ys : List String} {m n : Nat} {cs ds : List (Opcode × Nat)}
  {fs gs : List (List Ident × Block)}

/-- The order in which things are met does not matter for the sums. -/
theorem Sums.congr (h : P.Sums xs m cs fs) (hxs : ∀ x, x ∈ xs ↔ x ∈ ys)
    (hcs : ∀ x, x ∈ cs ↔ x ∈ ds) : P.Sums ys m ds fs := by
  obtain ⟨hnames, hstorage, hsize, hliterals, hholds⟩ := h
  refine ⟨fun p x => ?_, hstorage, hsize, hliterals, fun p hm hs => ?_⟩
  · rw [hnames, hxs]
  · simp only [hholds p hm hs, hcs]

theorem Sums.append (hP : P.Sums xs m cs fs) (hQ : Q.Sums ys n ds gs) :
    (P ++ Q).Sums (xs ++ ys) (m + n) (cs ++ ds) (fs ++ gs) where
  names p x := by
    show ((Q (P p).2).2.scope.names.find? x).isSome ↔ _
    rw [hQ.names, hP.names, List.mem_append, or_assoc]
  storage p := (hQ.storage _).trans (hP.storage p)
  size_le p := (hP.size_le p).trans (hQ.size_le _)
  literals p := by
    show (Q (P p).2).2.literals = _
    rw [hQ.literals, hP.literals, Nat.add_assoc]
  holds p hm hs := by
    have hp := hP.holds p hm hs
    have hq := hQ.holds (P p).2
    rw [hP.storage p] at hq
    -- the numbers in the middle are at most those at the end
    have hliterals : (P p).2.literals ≤ (Q (P p).2).2.literals := by
      rw [hQ.literals]
      exact Nat.le_add_right _ _
    have hsize := hQ.size_le (P p).2
    change ((∀ k ∈ (P p).1 ++ (Q (P p).2).1, _) ↔ (∀ k ∈ (P p).1 ++ (Q (P p).2).1, _) ∧
      (Q (P p).2).2.literals ≤ _ ∧ (Q (P p).2).2.scope.size ≤ _ ∧ _)
    simp only [List.forall_mem_append]
    constructor
    · rintro ⟨hks, hls⟩
      obtain ⟨hks, hm₁, hs₁, hcs, hfs⟩ := hp.mp hks
      obtain ⟨hls, hm₂, hs₂, hds, hgs⟩ := (hq hm₁ hs₁).mp hls
      exact ⟨⟨hks, hls⟩, hm₂, hs₂, ⟨hcs, hds⟩, hfs, hgs⟩
    · rintro ⟨⟨hks, hls⟩, hm₂, hs₂, ⟨hcs, hds⟩, hfs, hgs⟩
      have hm₁ := hliterals.trans hm₂
      have hs₁ := hsize.trans hs₂
      exact ⟨hp.mpr ⟨hks, hm₁, hs₁, hcs, hfs⟩, (hq hm₁ hs₁).mpr ⟨hls, hm₂, hs₂, hds, hgs⟩⟩

/-- What adds nothing may come behind. -/
theorem Sums.append_same (hP : P.Sums xs m cs fs) (hQ : Q.Sums [] 0 [] []) :
    (P ++ Q).Sums xs m cs fs := by
  have h := hP.append hQ
  rwa [List.append_nil, List.append_nil, List.append_nil] at h

/-- A pass that adds nothing. -/
theorem sums_same (hconditions : ∀ p, ∀ k ∈ (P p).1, k.limits = false)
    (hscope : ∀ p, (P p).2.scope = p.scope) (hliterals : ∀ p, (P p).2.literals = p.literals) :
    P.Sums [] 0 [] [] where
  names p x := by simp [hscope]
  storage p := by rw [hscope]
  size_le p := by rw [hscope]
  literals := hliterals
  holds p hm hs := by
    rw [hscope, hliterals]
    constructor
    · intro h
      exact ⟨fun k hk _ => h k hk, hm, hs, List.forall_mem_nil _, List.forall_mem_nil _⟩
    · rintro ⟨h, -⟩ k hk
      exact h k hk (hconditions p k hk)

/-- A condition on a count, in front of what is counted. -/
theorem Sums.count {k : Condition} {x : Opcode × Nat} (hP : P.Sums xs m cs fs)
    (hk : k.limits = true) (hx : k.holds = true ↔ CountFits x) :
    ((condition fun _ => k) ++ P).Sums xs m (x :: cs) fs := by
  have hcount : (condition fun _ => k).Sums [] 0 [x] [] := by
    refine ⟨fun p x => (or_iff_left List.not_mem_nil).symm, fun p => rfl, fun p => Nat.le_refl _,
      fun p => rfl, fun p hm hs => ?_⟩
    simp [condition, hk, hx, hm, hs]
  have h := hcount.append hP
  rwa [Nat.zero_add] at h

theorem sums_nothing : nothing.Sums [] 0 [] [] :=
  sums_same (fun _ => List.forall_mem_nil _) (fun _ => rfl) fun _ => rfl

/-- An instruction adds nothing, whichever it is. -/
theorem sums_instructions (h : ∀ p, ∃ op, P p = instruction op p) : P.Sums [] 0 [] [] := by
  refine sums_same (fun p => ?_) (fun p => ?_) fun p => ?_
  all_goals
    obtain ⟨op, hop⟩ := h p
    rw [hop]
  · exact List.forall_mem_nil _
  · rfl
  · rfl

theorem sums_instruction (op : Opcode) : (instruction op).Sums [] 0 [] [] :=
  sums_instructions fun _ => ⟨op, rfl⟩

/-- A condition that limits no number. -/
theorem sums_condition {k : Place → Condition} (hk : ∀ p, (k p).limits = false) :
    (condition k).Sums [] 0 [] [] :=
  sums_same (fun p => List.forall_mem_singleton.mpr (hk p)) (fun _ => rfl) fun _ => rfl

theorem sums_target : target.Sums [] 0 [] [] := sums_condition fun _ => rfl

theorem sums_finishBlock (endsInValue : Bool) : (finishBlock endsInValue).Sums [] 0 [] [] := by
  cases endsInValue with
  | false => exact sums_instruction .null
  | true => exact sums_same (fun _ => List.forall_mem_nil _) (fun _ => rfl) fun _ => rfl

theorem sums_store : store.Sums [] 0 [] [] := sums_instructions fun _ => ⟨_, rfl⟩

theorem sums_load (id : Ident) : (load id).Sums [] 0 [] [] :=
  (sums_condition fun _ => rfl).append_same (sums_instructions fun _ => ⟨_, rfl⟩)

theorem sums_literal : literal.Sums [] 1 [] [] where
  names p x := (or_iff_left List.not_mem_nil).symm
  storage p := rfl
  size_le p := Nat.le_refl _
  literals p := rfl
  holds p hm hs := by
    change (∀ k ∈ [Condition.literals (p.literals + 1)], _) ↔
      (∀ k ∈ [Condition.literals (p.literals + 1)], _) ∧ p.literals + 1 ≤ maxConstants ∧
        p.scope.size ≤ _ ∧ _
    simp [Condition.holds, Condition.limits, hs]

theorem sums_define (id : Ident) : (define id).Sums [id.name] 0 [] [] where
  names p x := by
    change ((p.scope.define id.name).names.find? x).isSome ↔ _
    rw [Scope.names_define, Numbering.isSome_find?_add_iff, List.mem_singleton]
  storage p := Scope.storage_define _ _
  size_le p := by
    change p.scope.size ≤ (p.scope.define id.name).names.size
    rw [Scope.names_define]
    exact Numbering.size_le_add _ _
  literals p := rfl
  holds p hm hs := by
    change (∀ k ∈ [Condition.names _ (p.scope.define id.name).size _], _) ↔
      (∀ k ∈ [Condition.names _ (p.scope.define id.name).size _], _) ∧ p.literals ≤ maxConstants ∧
        (p.scope.define id.name).size ≤ _ ∧ _
    simp [Condition.holds, Condition.limits, hm]

theorem sums_defineAll (ids : List Ident) :
    (defineAll ids).Sums (ids.map Ident.name) 0 [] [] := by
  induction ids with
  | nil => exact sums_nothing
  | cons id ids ih => exact (sums_define id).append ih

/-- A function literal is one literal more than its body. -/
theorem function_eq (parameters : List Ident) (P : Pass) (p : Place) :
    function parameters P p =
      (((defineAll parameters ++ P) ⟨p.scope.enclose, p.literals, 0⟩).1 ++
        [.literals (((defineAll parameters ++ P) ⟨p.scope.enclose, p.literals, 0⟩).2.literals + 1)],
      ⟨p.scope, ((defineAll parameters ++ P) ⟨p.scope.enclose, p.literals, 0⟩).2.literals + 1,
        p.offset + 3⟩) := rfl

/-- The names of a function count for themselves, and its literals for the program. -/
theorem sums_function {parameters : List Ident} {body : Block}
    (h : body.pass.Sums (Mark.names body.marks) m body.counts fs) :
    (function parameters body.pass).Sums [] (m + 1) [] (fs ++ [(parameters, body)]) := by
  have hbody := (sums_defineAll parameters).append h
  rw [Nat.zero_add, List.nil_append, List.nil_append] at hbody
  refine ⟨fun p x => (or_iff_left List.not_mem_nil).symm, fun p => rfl, fun p => Nat.le_refl _,
    fun p => ?_, fun p hm hs => ?_⟩
  · rw [function_eq]
    exact (congrArg (· + 1) (hbody.literals _)).trans (Nat.add_assoc ..)
  · have hstart : p.scope.enclose.size ≤ p.scope.enclose.storage.limit := by
      change Numbering.empty.size ≤ _
      rw [Numbering.size_empty]
      exact Nat.zero_le _
    have hholds := hbody.holds ⟨p.scope.enclose, p.literals, 0⟩ hm hstart
    have hnames := hbody.names ⟨p.scope.enclose, p.literals, 0⟩
    rw [function_eq]
    generalize (defineAll parameters ++ body.pass) ⟨p.scope.enclose, p.literals, 0⟩ = q
      at hholds hnames
    have hsize : q.2.scope.size = (body.boundNames parameters).dedup.length :=
      Numbering.size_eq_length_dedup fun x =>
        (hnames x).trans (or_iff_right (by simp [Scope.enclose, Scope.names]))
    simp only [List.forall_mem_append, List.forall_mem_singleton]
    constructor
    · rintro ⟨hks, hliteral⟩
      obtain ⟨hks, -, hlocals, hcs, hfs⟩ := hholds.mp hks
      exact ⟨⟨hks, fun _ => hliteral⟩, of_decide_eq_true hliteral, hs, List.forall_mem_nil _, hfs,
        hsize ▸ hlocals, hcs⟩
    · rintro ⟨⟨hks, -⟩, hliteral, -, -, hfs, hf⟩
      refine ⟨hholds.mpr ⟨hks, Nat.le_of_succ_le hliteral, ?_, hf.counts, hfs⟩,
        decide_eq_true hliteral⟩
      rw [hsize]
      exact hf.names

end Pass

open Pass

/-! ### Trees -/

mutual

theorem Expr.pass_sums (e : Expr) :
    e.pass.Sums (Mark.names e.marks) e.literalCount e.counts e.functions := by
  cases e with
  | name id => exact sums_load id
  | integer _ n => exact sums_literal
  | string _ s => exact sums_literal
  | boolean _ b =>
    cases b with
    | true => exact sums_instruction _
    | false => exact sums_instruction _
  | unary _ op e => exact (Expr.pass_sums e).append_same (sums_instruction _)
  | binary _ op l r =>
    have hl := Expr.pass_sums l
    have hr := Expr.pass_sums r
    rw [Expr.pass, Expr.marks, Expr.literalCount, Expr.counts, Expr.functions]
    split
    · rw [Mark.names_append, Nat.add_comm]
      exact (hr.append hl).append_same (sums_instruction _)
    · rw [Mark.names_append]
      exact (hl.append hr).append_same (sums_instruction _)
  | cond _ condition consequence alternative =>
    have hcondition := (Expr.pass_sums condition).append_same (sums_instruction .jumpNotTruthy)
    have hconsequence := ((hcondition.append (Block.pass_sums consequence)).append_same
      (sums_finishBlock (consequence.endsInValue false))).append_same (sums_instruction .jump)
    have hfront := hconsequence.append_same sums_target
    cases alternative with
    | none =>
      rw [Expr.marks, Mark.names_append, Expr.counts, Expr.functions, List.append_nil,
        List.append_nil]
      exact (hfront.append_same (sums_instruction .null)).append_same sums_target
    | some block =>
      have hblock := (Block.pass_sums block).append_same
        (sums_finishBlock (block.endsInValue false))
      rw [Expr.marks, Mark.names_append, Mark.names_append, Expr.counts, Expr.functions,
        ← List.append_assoc, ← List.append_assoc, ← List.append_assoc]
      exact (hfront.append hblock).append_same sums_target
  | function _ parameters body => exact sums_function (Block.pass_sums body)
  | call t callee arguments =>
    have hcallee := (Expr.pass_sums callee).count (k := .arguments arguments.length t.span)
      (x := (.call, arguments.length)) rfl decide_eq_true_iff
    -- the length is checked before the operands, and counted behind them
    have h := (hcallee.append (Expr.passAll_sums arguments)).append_same (sums_instruction .call)
    rw [Expr.marks, Mark.names_append]
    refine h.congr (fun x => Iff.rfl) fun x => ?_
    rw [Expr.counts, ← List.append_assoc]
    exact (List.perm_append_singleton _ _).mem_iff.symm
  | array t elements =>
    have helements := (Expr.passAll_sums elements).count (k := .elements elements.length t.span)
      (x := (.array, elements.length)) rfl decide_eq_true_iff
    refine (helements.append_same (sums_instruction .array)).congr (fun x => Iff.rfl) fun x => ?_
    exact (List.perm_append_singleton _ _).mem_iff.symm
  | hash t pairs =>
    have hpairs := (Expr.passPairs_sums pairs).count (k := .elements (2 * pairs.length) t.span)
      (x := (.hash, 2 * pairs.length)) rfl decide_eq_true_iff
    refine (hpairs.append_same (sums_instruction .hash)).congr (fun x => Iff.rfl) fun x => ?_
    exact (List.perm_append_singleton _ _).mem_iff.symm
  | index _ collection key =>
    rw [Expr.marks, Mark.names_append]
    exact ((Expr.pass_sums collection).append (Expr.pass_sums key)).append_same (sums_instruction _)
termination_by structural e

theorem Expr.passAll_sums (es : List Expr) : (Expr.passAll es).Sums (Mark.names (Expr.marksAll es))
    (Expr.literalCountAll es) (Expr.countsAll es) (Expr.functionsAll es) := by
  cases es with
  | nil => exact sums_nothing
  | cons e es =>
    rw [Expr.marksAll, Mark.names_append]
    exact (Expr.pass_sums e).append (Expr.passAll_sums es)
termination_by structural es

theorem Expr.passPairs_sums (ps : List (Expr × Expr)) :
    (Expr.passPairs ps).Sums (Mark.names (Expr.marksPairs ps)) (Expr.literalCountPairs ps)
      (Expr.countsPairs ps) (Expr.functionsPairs ps) := by
  cases ps with
  | nil => exact sums_nothing
  | cons p ps =>
    cases p with
    | mk key value =>
      rw [Expr.marksPairs, Mark.names_append, Mark.names_append, Expr.countsPairs,
        Expr.functionsPairs, ← List.append_assoc, ← List.append_assoc, ← List.append_assoc]
      exact ((Expr.pass_sums key).append (Expr.pass_sums value)).append (Expr.passPairs_sums ps)
termination_by structural ps

theorem Block.pass_sums (b : Block) :
    b.pass.Sums (Mark.names b.marks) b.literalCount b.counts b.functions := by
  cases b with
  | mk _ statements => exact Stmt.passAll_sums statements
termination_by structural b

theorem Stmt.pass_sums (s : Stmt) :
    s.pass.Sums (Mark.names s.marks) s.literalCount s.counts s.functions := by
  cases s with
  | bind _ id value =>
    have h := ((sums_define id).append (Expr.pass_sums value)).append_same sums_store
    rw [Nat.zero_add] at h
    refine h.congr (fun x => ?_) fun x => Iff.rfl
    -- here the name comes first, among the marks it comes last
    rw [Stmt.marks, Mark.names_append]
    exact (List.perm_append_singleton _ _).mem_iff.symm
  | ret _ value =>
    rw [Stmt.marks, Mark.names_append]
    refine ((Expr.pass_sums value).append_same (sums_instruction _)).congr (fun x => ?_)
      fun x => Iff.rfl
    rw [show Mark.names [.returned] = [] from rfl, List.append_nil]
  | expr _ value =>
    exact (Expr.pass_sums value).append_same (sums_instruction _)
  | block body => exact Block.pass_sums body
termination_by structural s

theorem Stmt.passAll_sums (ss : List Stmt) : (Stmt.passAll ss).Sums (Mark.names (Stmt.marksAll ss))
    (Stmt.literalCountAll ss) (Stmt.countsAll ss) (Stmt.functionsAll ss) := by
  cases ss with
  | nil => exact sums_nothing
  | cons s ss =>
    rw [Stmt.marksAll, Mark.names_append]
    exact (Stmt.pass_sums s).append (Stmt.passAll_sums ss)
termination_by structural ss

end

/-! ### Programs -/

theorem firstFault_eq_none_iff {ks : List Condition} :
    firstFault ks = none ↔ ∀ k ∈ ks, k.holds = true := by
  simp [firstFault]

/-- The conditions that limit no number are those on names and on targets. -/
theorem Condition.forall_not_limits_iff {ks : List Condition} :
    (∀ k ∈ ks, k.limits = false → k.holds = true) ↔
      (∀ scope id, .bound scope id ∈ ks → (scope.resolve id.name).isSome) ∧
        ∀ offset, .target offset ∈ ks → offset ≤ 65535 := by
  constructor
  · intro h
    exact ⟨fun scope id hk => h _ hk rfl, fun offset hk => of_decide_eq_true (h _ hk rfl)⟩
  · rintro ⟨hbound, htarget⟩ k hk hlimits
    cases k with
    | bound scope id => exact hbound scope id hk
    | target offset => exact decide_eq_true (htarget offset hk)
    | literals n => cases hlimits
    | names storage n s => cases hlimits
    | arguments n s => cases hlimits
    | elements n s => cases hlimits

theorem forall_countFits_iff {cs : List (Opcode × Nat)} :
    (∀ x ∈ cs, CountFits x) ↔ (∀ n, (.call, n) ∈ cs → n ≤ 255) ∧
      (∀ n, (.array, n) ∈ cs → n ≤ 65535) ∧ ∀ n, (.hash, n) ∈ cs → n / 2 ≤ 32767 := by
  have hpairs (n : Nat) : n / 2 ≤ 32767 ↔ n ≤ 65535 := by omega
  simp only [hpairs]
  constructor
  · intro h
    exact ⟨fun n hn => h _ hn, fun n hn => h _ hn, fun n hn => h _ hn⟩
  · rintro ⟨hcall, harray, hhash⟩ ⟨op, n⟩ hn
    unfold CountFits
    split
    · next heq =>
      obtain ⟨rfl, rfl⟩ := Prod.mk.inj heq
      exact hcall _ hn
    · next heq =>
      obtain ⟨rfl, rfl⟩ := Prod.mk.inj heq
      exact harray _ hn
    · next heq =>
      obtain ⟨rfl, rfl⟩ := Prod.mk.inj heq
      exact hhash _ hn
    · trivial

namespace Program

/-- What can be read off the tree says all that the conditions say. -/
theorem compilable_iff (p : Program) : p.Compilable ↔ p.firstFault = none := by
  have hsums := Stmt.passAll_sums p.statements
  have hstart : Scope.empty.size ≤ Storage.global.limit := Scope.within_empty.size_le
  have hholds := hsums.holds ⟨.empty, 0, 0⟩ (Nat.zero_le _) hstart
  have hsize : ((Stmt.passAll p.statements ⟨.empty, 0, 0⟩).2.scope.names).size =
      p.lets.dedup.length := by
    refine Numbering.size_eq_length_dedup fun x => (hsums.names _ x).trans (or_iff_right ?_)
    simp [Scope.empty, Scope.names]
  rw [Program.firstFault, firstFault_eq_none_iff]
  refine Iff.trans ?_ hholds.symm
  rw [Condition.forall_not_limits_iff, hsums.literals, Scope.size, hsize, Nat.zero_add]
  constructor
  · intro h
    have hcounts := forall_countFits_iff.mpr ⟨h.arguments, h.elements, h.pairs⟩
    rw [counts, List.forall_mem_append] at hcounts
    refine ⟨⟨h.bound, h.targets⟩, h.literals, h.globals, hcounts.1, fun f hf => ⟨h.locals f hf, ?_⟩⟩
    exact fun x hx => hcounts.2 x (List.mem_flatMap.mpr ⟨f, hf, hx⟩)
  · rintro ⟨⟨hbound, htargets⟩, hliterals, hglobals, hmain, hfunctions⟩
    have hcounts : ∀ x ∈ p.counts, CountFits x := by
      rw [counts, List.forall_mem_append]
      refine ⟨hmain, fun x hx => ?_⟩
      obtain ⟨f, hf, hx⟩ := List.mem_flatMap.mp hx
      exact (hfunctions f hf).counts x hx
    obtain ⟨harguments, helements, hpairs⟩ := forall_countFits_iff.mp hcounts
    exact ⟨hbound, hliterals, hglobals, fun f hf => (hfunctions f hf).names, harguments, helements,
      hpairs, htargets⟩

/-- The compiler decides the conditions on a program. -/
theorem compile_decides (p : Program) :
    match p.compile with
    | .ok _ => p.firstFault = none
    | .error e => p.firstFault = some e := by
  have hempty : Compilation.empty.At ⟨.empty, 0, 0⟩ := ⟨rfl, rfl, rfl, Scope.within_empty⟩
  have h := Stmt.compileAll_obeys p.statements _ _ hempty
  unfold Compiling.Decides at h
  unfold compile Compilation.add
  split at h
  · next hgives =>
    rw [hgives]
    exact h.1
  · next hfails =>
    rw [hfails]
    exact h

/-- **Compile errors are exact.** A program compiles when it is within all limits and every name has a
meaning where it is used. Otherwise it fails with the error that belongs to the first condition that is
not met, and that never is a refused instruction. -/
theorem compile_exact (p : Program) :
    ((∃ chunk, p.compile = .ok chunk) ↔ p.Compilable) ∧
      (∀ e, p.compile = .error e ↔ p.firstFault = some e) ∧
      ∀ e, p.compile ≠ .error (.instruction e) := by
  have hdecides := p.compile_decides
  have herror (e : CompileError) : p.compile = .error e ↔ p.firstFault = some e := by
    cases h : p.compile with
    | ok chunk =>
      rw [h] at hdecides
      simp [hdecides]
    | error e' =>
      rw [h] at hdecides
      simp [hdecides]
  refine ⟨?_, herror, fun e h => ?_⟩
  · rw [compilable_iff]
    cases h : p.compile with
    | ok chunk =>
      rw [h] at hdecides
      simpa using hdecides
    | error e =>
      rw [h] at hdecides
      simp [hdecides]
  · obtain ⟨k, -, hk⟩ := Option.map_eq_some_iff.mp ((herror _).mp h)
    cases k with
    | names storage n s =>
      cases storage with
      | global => cases hk
      | frame => cases hk
    | _ => cases hk

end Program

end Monkey
