import Monkey.Proofs.Compiled
import Monkey.Proofs.Effects
import Monkey.Proofs.Operands

/-!
# Compiled programs terminate

The jumps of compiled code go forward only, so a frame can carry out only so many instructions before
it is left, and only so many frames can be open at a time. Hence every run of a compiled program ends
(`Carried.run_terminates`), whatever functions it is given in its globals, as long as they were
compiled, too.

The proof is an induction on the number of frames that can still be opened, and, for a fixed number,
on the length of the code that the frame on top has before it (`Machine.halts_of_forward`). What
happens after this frame is left is a hypothesis there, so that a call is covered by the induction on
the frames, and what follows the call by that on the code.
-/

namespace Monkey

open Piece

/-! ### Forward code -/

/-- The code that is left from the offset `ip` on is the layout of pieces, all jumps of which belong
to their branches. -/
def Code.ForwardFrom (code : Code) (ip : Nat) : Prop :=
  ∃ ps, Code.Remaining code ip ps ∧ EachAll (fun op _ => op.isJump = false) ps

/-- The code of a function goes forward only. -/
def Function.Forward (f : Function) : Prop := f.code.ForwardFrom 0

/-- Forward code is at its end, or the next instruction leads further on in forward code. -/
theorem Code.ForwardFrom.cases {code : Code} {ip : Nat} (h : code.ForwardFrom ip) :
    code.size ≤ ip ∨ ∃ op operand next, ip < code.size ∧
      Code.fetch code ip = .ok (op, operand, next) ∧ ip < next ∧ code.ForwardFrom next ∧
      (op.isJump → ip < operand ∧ code.ForwardFrom operand) := by
  obtain ⟨ps, hps, hplain⟩ := h
  cases ps with
  | nil => exact .inl hps.size_le
  | cons p ps =>
    right
    cases p with
    | op o ns =>
      obtain ⟨hlt, hfetch, hrest⟩ := hps.op
      have hop : o.isJump = false := hplain.1
      refine ⟨_, _, _, hlt, hfetch, ?_, ⟨ps, hrest, hplain.2⟩, fun h => by simp [hop] at h⟩
      simp only [size]
      omega
    | branch yes no =>
      obtain ⟨hlt, hfetch, hyes, hno⟩ := hps.branch
      have hskip : EachAll (fun op _ => op.isJump = false) (.skip no :: ps) :=
        ⟨hplain.1.2, hplain.2⟩
      exact ⟨_, _, _, hlt, hfetch, by omega, ⟨_, hyes, eachAll_append.mpr ⟨hplain.1.1, hskip⟩⟩,
        fun _ => ⟨by omega, _, hno, eachAll_append.mpr ⟨hplain.1.2, hplain.2⟩⟩⟩
    | skip no =>
      obtain ⟨hlt, hfetch, hend, hno⟩ := hps.skip
      exact ⟨_, _, _, hlt, hfetch, by omega, ⟨_, hno, eachAll_append.mpr hplain⟩,
        fun _ => ⟨by omega, _, hend, hplain.2⟩⟩

/-! ### Machines with forward code -/

namespace Machine

/-- **A machine halts** when the frame on top, and every function that it can come to call, has
forward code, and the machine halts once this frame is left. -/
theorem halts_of_forward (d : Nat) {m : Machine} {fs : Array Frame} {f : Frame}
    (hm : m.Holds Function.Forward) (hframes : m.frames = fs.push f)
    (hf : f.function.code.ForwardFrom f.ip) (hd : m.maxFrames ≤ m.frames.size + d)
    (hleft : ∀ m' : Machine, m'.Holds Function.Forward → m'.maxFrames = m.maxFrames →
      m'.frames = fs → m'.Halts) : m.Halts := by
  induction d using Nat.strong_induction_on generalizing m fs f with
  | _ d ihd =>
  generalize hn : f.function.code.size - f.ip = n
  induction n using Nat.strong_induction_on generalizing m f with
  | _ n ihn =>
  refine halts_of_steps ?_
  rcases hf.cases with hge | ⟨op, operand, next, hlt, hfetch, hnext, hforward, hjump⟩
  · refine (steps_ended hm hframes hge).mono ?_ (fun _ _ _ => trivial) fun _ _ => trivial
    rintro m' ⟨hm', hkept, -, hframes', -⟩
    exact hleft m' hm' hkept.maxFrames hframes'
  · refine (steps_fetched hm hframes hlt hfetch).mono ?_ (fun _ _ _ => trivial) fun _ h => h.elim
    rintro m' ⟨hm', hkept, hmoves⟩
    have hsize : m.frames.size = fs.size + 1 := by rw [hframes, Array.size_push]
    -- further on in the same frame
    have hsame : ∀ m'' : Machine, m''.Holds Function.Forward → m''.maxFrames = m.maxFrames →
        ∀ ip, f.ip < ip → f.function.code.ForwardFrom ip → m''.frames = fs.push { f with ip } →
        m''.Halts := by
      intro m'' hm'' hmax ip hip hf' hframes''
      refine ihn (f.function.code.size - ip) (by omega) hm'' hframes'' hf' ?_
        (fun m₃ hm₃ hmax₃ => hleft m₃ hm₃ (hmax₃.trans hmax)) rfl
      rw [hmax, hframes'', Array.size_push]
      omega
    cases hmoves with
    | next _ hframes' => exact hsame m' hm' hkept.maxFrames next hnext hforward hframes'
    | jump hop hframes' =>
      obtain ⟨hlt', hforward'⟩ := hjump (by rcases hop with rfl | rfl <;> rfl)
      exact hsame m' hm' hkept.maxFrames operand hlt' hforward' hframes'
    | call g _ hg hdepth _ hframes' =>
      replace hdepth : fs.size + 1 < m.maxFrames := by simpa using hdepth
      refine ihd (d - 1) (by omega) hm' hframes' hg ?_ fun m'' hm'' hmax hframes'' => ?_
      · rw [hkept.maxFrames, hframes', Array.size_push, Array.size_push]
        omega
      · exact hsame m'' hm'' (hmax.trans hkept.maxFrames) next hnext hforward hframes''
    | leave _ hframes' => exact hleft m' hm' hkept.maxFrames hframes'

end Machine

/-! ### Compiled code is forward -/

/-- A function of a compiled program, whatever else was compiled before it. -/
def Function.Compiled (f : Function) : Prop := ∃ s k, Carried s k ∧ Value.function f ∈ k

/-- Instructions that are plain are no jumps. -/
theorem Code.forward_of_plain {v : Visible} {code : Code} {ps : List Piece}
    (hcode : code.toList = bytesAll 0 ps) (hfits : FitsAll 0 ps) (hplain : EachAll v.Plain ps) :
    code.ForwardFrom 0 :=
  ⟨ps, ⟨hcode, hfits⟩, EachAll.mono (fun _ _ h => h.1) ps hplain⟩

theorem Function.Compiled.forward {f : Function} (h : f.Compiled) : f.Forward := by
  obtain ⟨s, k, hcarried, hf⟩ := h
  obtain ⟨w, hfollows, hw, -⟩ := hcarried.follows
  obtain ⟨i, name, parameters, names, body, hi, rfl⟩ := hfollows.function_mem hf
  obtain ⟨hnames, hbody, -⟩ := hw.literals i _ hi
  exact Code.forward_of_plain rfl (hfollows.fits i _ _ _ _ hi)
    (Command.plain_bodyPieces (.function hw.dense.globals hnames _) body hbody)

/-- The constants of compiled programs hold no functions but compiled ones. -/
theorem Carried.all_compiled {s : Scope} {k : Array Value} (h : Carried s k) :
    ∀ v ∈ k, v.All Function.Compiled := by
  obtain ⟨w, hfollows, -⟩ := h.follows
  exact hfollows.constants_all fun f hf => ⟨s, k, h, hf⟩

theorem Value.All.forward {v : Value} (h : v.All Function.Compiled) : v.All Function.Forward :=
  Value.All.mono (fun _ hf => hf.forward) v h

theorem Carried.code_forward {s : Scope} {k : Array Value} {p : Program} {c : Compilation}
    (h : Carried s k) (hadd : (Compilation.resume s k).add p = (.ok (), c)) :
    c.chunk.code.ForwardFrom 0 := by
  obtain ⟨w, cs, w', -, -, hc⟩ := h.compiled hadd
  exact Code.forward_of_plain hc.code hc.fits (Command.plain_piecesAll hc.dense cs hc.commands)

theorem Carried.halts {s : Scope} {k : Array Value} {p : Program} {c : Compilation}
    (h : Carried s k) (hadd : (Compilation.resume s k).add p = (.ok (), c)) (limits : Limits)
    {globals : Array (Option Value)} (hglobals : ∀ v, some v ∈ globals → v.All Function.Compiled) :
    (Machine.start c.chunk globals limits).Halts := by
  have hm : (Machine.start c.chunk globals limits).Holds Function.Forward :=
    .start (fun v hv => (Carried.all_compiled (.more h hadd) v hv).forward)
      (fun v hv => (hglobals v hv).forward) limits
  have hframes : (Machine.start c.chunk globals limits).frames =
      Array.push #[] (Machine.mainFrame c.chunk.code) := rfl
  refine Machine.halts_of_forward limits.maxFrames hm hframes (h.code_forward hadd)
    (Nat.le_add_left _ _) fun m' _ _ hframes => ?_
  exact Machine.halts_of_steps ((Machine.steps_done hframes).mpr trivial)

/-- **Every run of a compiled program ends**, with a result or with a fault. -/
theorem Carried.run_terminates {s : Scope} {k : Array Value} {p : Program} {c : Compilation}
    (h : Carried s k) (hadd : (Compilation.resume s k).add p = (.ok (), c)) (limits : Limits)
    {globals : Array (Option Value)} (hglobals : ∀ v, some v ∈ globals → v.All Function.Compiled) :
    ∃ n m, (Machine.start c.chunk globals limits).run n = (.finished, m) ∨
      ∃ e, (Machine.start c.chunk globals limits).run n = (.failed e, m) := by
  obtain ⟨n, hn⟩ := h.halts hadd limits hglobals
  rcases hrun : (Machine.start c.chunk globals limits).run n with ⟨outcome, m⟩
  refine ⟨n, m, ?_⟩
  cases outcome with
  | finished => exact .inl hrun
  | failed e => exact .inr ⟨e, hrun⟩
  | unfinished =>
    rw [hrun] at hn
    exact absurd rfl hn

/-- The program `fn() { }()`. -/
def Program.callEmpty : Program where
  statements := [.expr default (.call default (.function default [] (.mk default [])) [])]

/-- It ends, also when an array among the globals holds its function. -/
theorem Program.run_callEmpty_terminates :
    ∃ c, (Compilation.resume .empty #[]).add callEmpty = (.ok (), c) ∧
      (∀ v, some v ∈ #[some (Value.array [.function ⟨0, #[23], 0, 0, none⟩])] →
        v.All Function.Compiled) ∧
      ∃ n m, (Machine.start c.chunk #[some (.array [.function ⟨0, #[23], 0, 0, none⟩])] {}).run n =
          (.finished, m) ∨
        ∃ e, (Machine.start c.chunk #[some (.array [.function ⟨0, #[23], 0, 0, none⟩])] {}).run n =
          (.failed e, m) := by
  have h : (Compilation.resume .empty #[]).add callEmpty =
      (.ok (), ((Compilation.resume .empty #[]).add callEmpty).2) := Prod.ext (by decide) rfl
  have hconstants : ((Compilation.resume .empty #[]).add callEmpty).2.constants =
      #[.function ⟨0, #[23], 0, 0, none⟩] := rfl
  have hglobals : ∀ v, some v ∈ #[some (Value.array [.function ⟨0, #[23], 0, 0, none⟩])] →
      v.All Function.Compiled := by
    intro v hv
    obtain rfl := Option.some.inj (Array.mem_singleton.mp hv)
    exact ⟨⟨_, _, .more .nothing h, by rw [hconstants]; exact Array.mem_singleton.mpr rfl⟩, trivial⟩
  exact ⟨_, h, hglobals, Carried.run_terminates .nothing h {} hglobals⟩

end Monkey
