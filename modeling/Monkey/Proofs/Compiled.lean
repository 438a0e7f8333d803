import Monkey.Proofs.Compiling
import Monkey.Proofs.Functions

/-!
# Compiled programs

A compilation can go on from the names and constants that an earlier one left. `Carried` are those
that a chain of successful compilations leaves, and `Compiled` says all that the theory of compiled
programs starts from: the code of such a compilation is the layout of well-scoped commands, and its
constants are the values of well-scoped literals (`Carried.compiled`).
-/

namespace Monkey

open Compiling

/-- The names and the constants that successful compilations leave, each of which goes on from the
one before. -/
inductive Carried : Scope → Array Value → Prop
  | nothing : Carried .empty #[]
  | more {s : Scope} {k : Array Value} {p : Program} {c : Compilation} :
      Carried s k → (Compilation.resume s k).add p = (.ok (), c) → Carried c.scope c.constants

/-- A program that compiles leaves its code in a compilation. -/
theorem Program.exists_of_compile {p : Program} {chunk : Chunk} (h : p.compile = .ok chunk) :
    ∃ c, Compilation.empty.add p = (.ok (), c) ∧ c.chunk = chunk := by
  unfold Program.compile at h
  split at h
  · next c hadd => exact ⟨c, hadd, Except.ok.inj h⟩
  · cases h

/-- The commands `cs`, resolved by a walk from `w` to `w'`, compile to `c`. -/
structure Compiled (c : Compilation) (w w' : Walk) (cs : List Command) : Prop where
  follows : c.Follows w'
  walk : w.To w'
  commands : Command.ScopedAll w'.visible cs
  outermost : w'.scope.locals? = none
  code : c.buffer.code.toList = Piece.bytesAll 0 (Command.piecesAll cs)
  fits : Piece.FitsAll 0 (Command.piecesAll cs)

theorem Compiled.dense {c : Compilation} {w w' : Walk} {cs : List Command}
    (h : Compiled c w w' cs) : w'.visible.Dense :=
  .outermost h.walk.sound.dense.globals h.outermost

/-- A program that compiles resolves, and its code is that of the resolved commands. -/
theorem Compilation.Follows.compiled {s : Scope} {k : Array Value} {p : Program} {c : Compilation}
    {w : Walk} (hc : (Compilation.resume s k).Follows w) (hw : w.Sound)
    (hscope : w.scope.locals? = none) (h : (Compilation.resume s k).add p = (.ok (), c)) :
    ∃ cs w', Stmt.resolveAll p.statements w = some (cs, w') ∧ Compiled c w w' cs := by
  obtain ⟨cs, w', hcs, hc', hemits, -⟩ := Stmt.compileAll_spec p.statements hc hw h
  obtain ⟨hto, hscoped⟩ := Stmt.resolveAll_spec p.statements hw hcs
  refine ⟨cs, w', hcs, hc', hto, hscoped, ?_, hemits.code,
    hemits.fits⟩
  rw [← Option.not_isSome_iff_eq_none, ← hto.grows.locals?.isSome_eq, hscope]
  simp

/-- The walk at its start. -/
def Walk.nothing : Walk := ⟨.empty, #[]⟩

theorem Walk.sound_nothing : Walk.nothing.Sound :=
  ⟨Scope.dense_empty, fun i l hi => by simp [nothing] at hi⟩

theorem Compilation.follows_nothing : Compilation.empty.Follows .nothing :=
  ⟨rfl, rfl, fun i name parameters names body hi => by simp [Walk.nothing] at hi⟩

/-- What earlier compilations left follows a walk. -/
theorem Carried.follows {s : Scope} {k : Array Value} (h : Carried s k) :
    ∃ w, (Compilation.resume s k).Follows w ∧ w.Sound ∧ w.scope.locals? = none := by
  induction h with
  | nothing => exact ⟨.nothing, Compilation.follows_nothing, Walk.sound_nothing, rfl⟩
  | more _ hadd ih =>
    obtain ⟨w, hc, hw, hscope⟩ := ih
    obtain ⟨cs, w', -, hcompiled⟩ := hc.compiled hw hscope hadd
    refine ⟨w', ⟨hcompiled.follows.scope, hcompiled.follows.constants, hcompiled.follows.fits⟩,
      hcompiled.walk.sound, hcompiled.outermost⟩

/-- **Compiled programs**, whatever was compiled before them. -/
theorem Carried.compiled {s : Scope} {k : Array Value} {p : Program} {c : Compilation}
    (h : Carried s k) (hadd : (Compilation.resume s k).add p = (.ok (), c)) :
    ∃ w cs w', (Compilation.resume s k).Follows w ∧
      Stmt.resolveAll p.statements w = some (cs, w') ∧ Compiled c w w' cs := by
  obtain ⟨w, hc, hw, hscope⟩ := h.follows
  obtain ⟨cs, w', hcs, hcompiled⟩ := hc.compiled hw hscope hadd
  exact ⟨w, cs, w', hc, hcs, hcompiled⟩

theorem Compilation.Follows.size_constants {c : Compilation} {w : Walk} (h : c.Follows w) :
    c.constants.size = w.literals.size := by
  rw [h.constants, Literal.values, Array.size_mapIdx]

/-- A function among the constants is a function literal, compiled. -/
theorem Compilation.Follows.function_mem {c : Compilation} {w : Walk} {f : Function}
    (h : c.Follows w) (hf : Value.function f ∈ c.constants) :
    ∃ (i : Nat) (name : Option String) (parameters : List String) (names : Numbering String)
      (body : List Command), w.literals[i]? = some (.function name parameters names body) ∧
        f = ⟨i, Command.bodyCode body, names.size, parameters.length, name⟩ := by
  rw [h.constants] at hf
  exact Literal.function_mem_values hf

/-- The constants are no arrays and no hashes, so their functions are among them. -/
theorem Compilation.Follows.constants_all {c : Compilation} {w : Walk} {P : Function → Prop}
    (h : c.Follows w) (hP : ∀ f, Value.function f ∈ c.constants → P f) :
    ∀ v ∈ c.constants, v.All P := by
  intro v hv
  have hmem := hv
  rw [h.constants, Literal.values] at hv
  obtain ⟨i, hi, rfl⟩ := Array.mem_mapIdx.mp hv
  cases hl : w.literals[i] with
  | integer n => trivial
  | string s => trivial
  | function name parameters names body =>
    rw [hl] at hmem
    exact hP _ hmem

/-- A constant keeps its place. -/
theorem Walk.To.values {w w' : Walk} (h : w.To w') {i : Nat} {v : Value}
    (hv : (Literal.values w.literals)[i]? = some v) : (Literal.values w'.literals)[i]? = some v := by
  rw [Literal.getElem?_values, Option.map_eq_some_iff] at hv ⊢
  obtain ⟨l, hl, hvalue⟩ := hv
  exact ⟨l, h.literals i l hl, hvalue⟩

/-- No constant of an earlier compilation gets lost. -/
theorem Compiled.mem_constants {s : Scope} {k : Array Value} {c : Compilation} {w w' : Walk}
    {cs : List Command} (hc : Compiled c w w' cs) (hw : (Compilation.resume s k).Follows w) {v : Value}
    (hv : v ∈ k) : v ∈ c.constants := by
  have hk : k = Literal.values w.literals := hw.constants
  obtain ⟨i, hi⟩ := Array.mem_iff_getElem?.mp hv
  rw [hc.follows.constants]
  exact Array.mem_of_getElem? (hc.walk.values (hk ▸ hi))

end Monkey
