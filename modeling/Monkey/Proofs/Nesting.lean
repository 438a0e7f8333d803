import Mathlib.Data.List.Chain
import Monkey.Proofs.Progress
import Monkey.Proofs.Scanning

/-!
# The parser ends

Since the steps in a step have less to go, it has an `outcome` that no bound on the nesting changes
(`Parse.Step.settled`). A contract that the bodies of all steps meet is one that all outcomes keep
(`Parse.Contract.Met.holds`).

Calls that are open at the same time are a chain along which there is less and less to go. From this the
main result is put together (`Program.read_returns`): every text is read to its end, with a number of open
calls and of tokens asked for that is linear in the number of its tokens.
-/

namespace Monkey

namespace Parse

/-! ### What a step does in the end -/

namespace Step

variable {α : Type} {w : Walk} {d e : Nat}

/-- What the step does to a walk, nested as deep as it has to be. -/
def outcome (s : Step α) (w : Walk) : Option α × Walk := play (s.depth w.rest.length + 1) s w

/-- A step has its way once it may nest deep enough: nothing changes from there on. -/
theorem settled (s : Step α) (hs : s.Ready w) (hd : s.depth w.rest.length < d) :
    s.Leaves w (play d s w).1 (play d s w).2 ∧
      ∀ e, s.depth w.rest.length < e → play e s w = play d s w := by
  -- by induction on the depth of the step: the steps in it have a smaller one
  induction hn : s.depth w.rest.length using Nat.strong_induction_on generalizing α s w d with
  | _ n ih =>
    subst hn
    obtain ⟨d, rfl⟩ : ∃ d', d = d' + 1 := ⟨d - 1, by omega⟩
    have hmeets := meets_progress hs
    have hsteps : (progress (s.depth w.rest.length)).HoldsOf (play d) := fun _ t w' ht =>
      (ih _ ht.2 t ht.1 (by have := ht.2; omega) rfl).1
    refine ⟨hmeets.play hsteps, fun e he => ?_⟩
    obtain ⟨e, rfl⟩ : ∃ e', e = e' + 1 := ⟨e - 1, by omega⟩
    refine hmeets.play_congr hsteps fun _ t w' ht => ?_
    exact (ih _ ht.2 t ht.1 (by have := ht.2; omega) rfl).2 e (by have := ht.2; omega)

theorem play_eq_outcome (s : Step α) (hs : s.Ready w) (hd : s.depth w.rest.length < d) :
    play d s w = s.outcome w :=
  (s.settled hs (Nat.lt_succ_self _)).2 d hd

theorem leaves_outcome (s : Step α) (hs : s.Ready w) : s.Leaves w (s.outcome w).1 (s.outcome w).2 :=
  (s.settled hs (Nat.lt_succ_self _)).1

theorem holdsOf_outcome (n : Nat) : (progress n).HoldsOf fun _ => outcome :=
  fun _ s _ hs => s.leaves_outcome hs.1

/-- The outcome of a step is its body, played with the outcomes of the steps in it. -/
theorem outcome_eq (s : Step α) (hs : s.Ready w) :
    s.outcome w = s.body.play (fun _ => outcome) w := by
  refine (meets_progress hs).play_congr (holdsOf_outcome _) fun _ t w' ht => ?_
  exact t.play_eq_outcome ht.1 ht.2

/-- The parser gives the outcome, whatever bound on the nesting it gets, if this is no less than the
depth of the step. -/
theorem run_eq_outcome (s : Step α) (hs : s.Ready w) (hd : s.depth w.rest.length < d) :
    (s.run d).run.run w.toReader = ((s.outcome w).1, (s.outcome w).2.toReader) := by
  rw [run_eq_play, s.play_eq_outcome hs hd]

end Step

/-- Every body meets the contract where the steps in it do. -/
def Contract.Met (C : Contract) : Prop :=
  ∀ ⦃α : Type⦄ (s : Step α) (w : Walk), s.Ready w → C.pre s w → s.body.Meets C w (C.post s w)

/-- **Proving a contract.** The outcomes of all steps keep it, when every body meets it. -/
theorem Contract.Met.holds {C : Contract} (h : C.Met) {α : Type} {s : Step α} {w : Walk}
    (hs : s.Ready w) (hpre : C.pre s w) : C.post s w (s.outcome w).1 (s.outcome w).2 := by
  induction hn : s.depth w.rest.length using Nat.strong_induction_on generalizing α s w with
  | _ n ih =>
    subst hn
    -- the steps inside have less to go, so they keep the contract by induction
    have hsteps : ((Step.progress (s.depth w.rest.length)).and C).HoldsOf fun _ => Step.outcome := by
      rintro β t w' ⟨⟨ht, hlt⟩, htpre⟩
      exact ⟨t.leaves_outcome ht, ih _ hlt ht htpre rfl⟩
    rw [s.outcome_eq hs]
    exact (((meets_progress hs).and (h s w hs hpre)).play hsteps).2

/-! ### Calls within calls -/

namespace Call

/-- The number of tokens that are left when the step is entered. -/
def left (c : Call) : Nat := c.walk.rest.length

/-- How deep steps can nest in the call. -/
def depth (c : Call) : Nat := c.step.depth c.left

/-- The call comes back with the same result whenever steps may nest deeper than `bound`. -/
def Returns (bound : Nat) (c : Call) : Prop :=
  ∀ d, bound < d → (c.step.run d).run.run c.walk.toReader =
    ((c.step.outcome c.walk).1, (c.step.outcome c.walk).2.toReader)

/-- While the call `c` is open the call `c'` is made. -/
def Enters (c c' : Call) : Prop := c.step.body.Calls (fun _ => Step.outcome) c.walk c'

/-- The two calls are of the same function of the parser. -/
def SameSort (c c' : Call) : Prop := c.step.ctorIdx = c'.step.ctorIdx

variable {c c' : Call} {calls : List Call}

/-- A call within a call has less to go. -/
theorem Enters.depth_lt (h : c.Enters c') (hc : c.step.Ready c.walk) :
    c'.step.Ready c'.walk ∧ c'.depth < c.depth :=
  (meets_progress hc).pre_of_calls (Step.holdsOf_outcome _) h

/-- In a call that a contract allows, it allows all that are made. -/
theorem Enters.pre {C : Contract} (h : c.Enters c') (hmet : C.Met) (hc : c.step.Ready c.walk)
    (hpre : C.pre c.step c.walk) : C.pre c'.step c'.walk := by
  have hmeets := (meets_progress hc).and (hmet c.step c.walk hc hpre)
  refine (hmeets.pre_of_calls ?_ h).2
  exact fun _ t w ht => ⟨t.leaves_outcome ht.1.1, hmet.holds ht.1.1 ht.2⟩

theorem depth_mono {α : Type} (s : Step α) {n m : Nat} (h : n ≤ m) : s.depth n ≤ s.depth m := by
  cases s <;> simp only [Step.depth] <;> omega

theorem SameSort.depth_eq (h : c.SameSort c') (n : Nat) : c.step.depth n = c'.step.depth n := by
  obtain ⟨s, w⟩ := c
  obtain ⟨t, w'⟩ := c'
  -- the depth does not depend on what a step is given, but for its sort
  change s.ctorIdx = t.ctorIdx at h
  cases s <;> cases t <;> first | rfl | cases h

/-- Of two calls of the same function, the one with less to go has fewer tokens left. -/
theorem SameSort.left_lt (h : c.SameSort c') (hlt : c'.depth < c.depth) : c'.left < c.left := by
  refine Nat.lt_of_not_le fun hle => ?_
  have hdepth : c.depth ≤ c'.depth := calc
    c.step.depth c.left ≤ c.step.depth c'.left := depth_mono c.step hle
    _ = c'.step.depth c'.left := h.depth_eq _
  exact absurd hlt (Nat.not_lt.mpr hdepth)

/-- Down a stack of calls there is less to go in every one. -/
theorem descends (hc : c.step.Ready c.walk) (h : List.IsChain Enters (c :: calls)) :
    (∀ c' ∈ c :: calls, c'.step.Ready c'.walk) ∧
      (c :: calls).Pairwise (fun a b => b.depth < a.depth) ∧ calls.length ≤ c.depth := by
  induction calls generalizing c with
  | nil => exact ⟨by simpa using hc, List.pairwise_singleton _ _, Nat.zero_le _⟩
  | cons b calls ih =>
    obtain ⟨henters, hchain⟩ := List.isChain_cons_cons.mp h
    obtain ⟨hb, hlt⟩ := henters.depth_lt hc
    obtain ⟨hready, hpairwise, hlength⟩ := ih hb hchain
    refine ⟨List.forall_mem_cons.mpr ⟨hc, hready⟩, List.pairwise_cons.mpr ⟨?_, hpairwise⟩, ?_⟩
    · refine List.forall_mem_cons.mpr ⟨hlt, fun a ha => ?_⟩
      exact Nat.lt_trans ((List.pairwise_cons.mp hpairwise).1 a ha) hlt
    · exact Nat.succ_le_of_lt (Nat.lt_of_le_of_lt hlength hlt)

end Call

/-- The walk over a list of tokens, before its first step. -/
def Walk.start (tokens : List Token) (eof : Token) : Walk := ⟨⟨tokens, eof, #[]⟩, 0, false⟩

/-- What becomes of the statements of a list of tokens. -/
def Walk.whole (tokens : List Token) (eof : Token) : Option (List Stmt) × Walk :=
  (Step.statements false #[]).outcome (.start tokens eof)

/-- The calls are open at the same time while the tokens are read: the first one reads all of them, and
every other one is made in the one before it. -/
def OpenCalls (tokens : List Token) (eof : Token) (calls : List Call) : Prop :=
  calls.head? = some ⟨.statements false #[], .start tokens eof⟩ ∧ calls.IsChain Call.Enters

/-- Where one call after the other is open there is less and less to go. -/
theorem OpenCalls.descends {tokens : List Token} {eof : Token} {calls : List Call}
    (h : OpenCalls tokens eof calls) (heof : eof.kind = .eof) :
    (∀ c ∈ calls, c.step.Ready c.walk ∧ c.depth ≤ 8 * tokens.length + 4) ∧
      calls.Pairwise (fun c c' => c'.depth < c.depth) ∧ calls.length ≤ 8 * tokens.length + 5 := by
  obtain ⟨hhead, hchain⟩ := h
  obtain ⟨calls, rfl⟩ := List.head?_eq_some_iff.mp hhead
  obtain ⟨hready, hpairwise, hlength⟩ := Call.descends ⟨heof, trivial⟩ hchain
  refine ⟨fun c hc => ⟨hready c hc, ?_⟩, hpairwise, Nat.succ_le_succ hlength⟩
  rcases List.mem_cons.mp hc with rfl | hc
  · exact Nat.le_refl _
  · exact Nat.le_of_lt ((List.pairwise_cons.mp hpairwise).1 c hc)

/-- A contract that allows to read the tokens allows all calls that are made meanwhile. -/
theorem OpenCalls.pre {tokens : List Token} {eof : Token} {calls : List Call} {C : Contract}
    (h : OpenCalls tokens eof calls) (hmet : C.Met) (heof : eof.kind = .eof)
    (hpre : C.pre (.statements false #[]) (.start tokens eof)) :
    ∀ c ∈ calls, c.step.Ready c.walk ∧ C.pre c.step c.walk := by
  obtain ⟨hhead, hchain⟩ := h
  obtain ⟨calls, rfl⟩ := List.head?_eq_some_iff.mp hhead
  refine List.IsChain.induction _ _ hchain (fun _ _ henters hc => ?_) ?_
  · exact ⟨(henters.depth_lt hc.1).1, henters.pre hmet hc.1 hc.2⟩
  · exact fun _ => ⟨⟨heof, trivial⟩, hpre⟩

end Parse

namespace Program

open Parse

/-- What a list of tokens spells is the outcome of one step. -/
theorem ofTokens_eq_whole (tokens : List Token) {eof : Token} (heof : eof.kind = .eof) :
    ∃ ss, (Walk.whole tokens eof).1 = some ss ∧
      ofTokens tokens eof = (⟨ss⟩, (Walk.whole tokens eof).2.diagnostics.toList) := by
  have hready : (Step.statements false #[]).Ready (.start tokens eof) := ⟨heof, trivial⟩
  obtain ⟨ss, hss⟩ := Option.isSome_iff_exists.mp (Step.leaves_outcome _ hready).ends
  have hrun : (Reading.statements false #[] (8 * tokens.length + 8)).run ⟨tokens, eof, #[]⟩ =
      ((Walk.whole tokens eof).1, (Walk.whole tokens eof).2.toReader) :=
    Step.run_eq_outcome _ hready (Nat.add_lt_add_left (by decide : 4 < 8) _)
  refine ⟨ss, hss, ?_⟩
  rw [ofTokens, hrun, Walk.whole, hss]
  rfl

/-- **Every text is read to its end.** However malformed a text of `n` tokens is,

* the parser comes back with statements, and they do not depend on the bound for the nesting;
* of the calls that are open at the same time, each comes back, whatever the bound is if it is above
  `8 * n + 4`, and every call of a function that is open already has strictly fewer tokens left;
* no more than `8 * n + 5` calls are open at the same time;
* beyond the first two, no more than `2 * n + 1` tokens are asked for. -/
theorem read_returns (source : String) :
    let (tokens, eof) := Token.scan source
    let bound := 8 * tokens.length + 4
    (∃ ss, (Walk.whole tokens eof).1 = some ss ∧
      read source = (⟨ss⟩, (Walk.whole tokens eof).2.diagnostics.toList)) ∧
    (∀ calls, OpenCalls tokens eof calls →
      (∀ c ∈ calls, c.Returns bound) ∧
      calls.Pairwise (fun c c' => c.SameSort c' → c'.left < c.left) ∧
      calls.length ≤ bound + 1) ∧
    (Walk.whole tokens eof).2.asked ≤ 2 * tokens.length + 1 := by
  have heof := Token.kind_scan_snd source
  unfold read
  generalize Token.scan source = scan at heof ⊢
  obtain ⟨tokens, eof⟩ := scan
  refine ⟨ofTokens_eq_whole tokens heof, fun calls hcalls => ?_, ?_⟩
  · obtain ⟨hready, hpairwise, hlength⟩ := hcalls.descends heof
    refine ⟨fun c hc d hd => ?_, hpairwise.imp fun hlt hsort => hsort.left_lt hlt, hlength⟩
    obtain ⟨hc, hle⟩ := hready c hc
    exact c.step.run_eq_outcome hc (Nat.lt_of_le_of_lt hle hd)
  · have hready : (Step.statements false #[]).Ready (.start tokens eof) := ⟨heof, trivial⟩
    have hasked : _ ≤ 0 + 2 * tokens.length + min 1 tokens.length :=
      (Step.leaves_outcome _ hready).asked
    show ((Step.statements false #[]).outcome (.start tokens eof)).2.asked ≤ _
    omega

end Program

end Monkey
