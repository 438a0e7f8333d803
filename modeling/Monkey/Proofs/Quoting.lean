import Monkey.Proofs.Lines
import Monkey.Text.Quoted

/-!
# Quoted strings are read back

Between quotes, a character is spelled by itself, or by a backslash with a letter behind it, or by its
number in hexadecimal between braces (`escape_cases`). No spelling is the beginning of another one, so a
quoted string tells what it quotes (`quoted_injective`). It stays on one line.
-/

namespace Monkey

/-! ### Hexadecimal numbers -/

theorem digitChar_injective {m n : Nat} (hm : m < 16) (hn : n < 16)
    (h : m.digitChar = n.digitChar) : m = n := by
  have hall : ∀ m < 16, ∀ n < 16, Nat.digitChar m = Nat.digitChar n → m = n := by decide
  exact hall m hm n hn h

/-- The digits of a number in hexadecimal, the last of them on its own. -/
theorem hexDigits_eq_if (n : Nat) :
    hexDigits n = if n < 16 then [n.digitChar] else hexDigits (n / 16) ++ [(n % 16).digitChar] :=
  Nat.toDigits_eq_if (by decide)

theorem hexDigits_ne_nil (n : Nat) : hexDigits n ≠ [] := Nat.toDigits_ne_nil

theorem singleton_ne_append {d e : Char} {ds : List Char} (h : ds ≠ []) : [d] ≠ ds ++ [e] := by
  intro heq
  have hlength := congrArg List.length heq
  have hpos := List.length_pos_iff.mpr h
  rw [List.length_append, List.length_singleton, List.length_singleton] at hlength
  omega

theorem hexDigits_injective {m n : Nat} (h : hexDigits m = hexDigits n) : m = n := by
  induction m using Nat.strongRecOn generalizing n with
  | ind m ih =>
    rw [hexDigits_eq_if, hexDigits_eq_if n] at h
    split at h
    · next hm =>
      split at h
      · next hn => exact digitChar_injective hm hn (List.cons.inj h).1
      · exact absurd h (singleton_ne_append (hexDigits_ne_nil _))
    · next hm =>
      split at h
      · exact absurd h.symm (singleton_ne_append (hexDigits_ne_nil _))
      · next hn =>
        obtain ⟨hfront, hlast⟩ := List.append_inj' h rfl
        have hdiv := ih (m / 16) (by omega) hfront
        have hmod := digitChar_injective (Nat.mod_lt m (by decide)) (Nat.mod_lt n (by decide))
          (List.cons.inj hlast).1
        omega

theorem hexDigits_chars {n : Nat} {c : Char} (h : c ∈ hexDigits n) : ∃ d < 16, c = d.digitChar := by
  induction n using Nat.strongRecOn with
  | ind n ih =>
    rw [hexDigits_eq_if] at h
    split at h
    · next hn => exact ⟨n, hn, List.mem_singleton.mp h⟩
    · next hn =>
      rcases List.mem_append.mp h with h | h
      · exact ih (n / 16) (by omega) h
      · exact ⟨n % 16, Nat.mod_lt n (by decide), List.mem_singleton.mp h⟩

/-- Hexadecimal digits end before a brace, and none of them ends a line. -/
theorem hexDigits_no {n : Nat} {c : Char} (h : c ∈ hexDigits n) : c ≠ '\x7d' ∧ c ≠ '\n' ∧ c ≠ '\r' := by
  obtain ⟨d, hd, rfl⟩ := hexDigits_chars h
  have hall : ∀ d < 16, Nat.digitChar d ≠ '\x7d' ∧ Nat.digitChar d ≠ '\n' ∧ Nat.digitChar d ≠ '\r' := by
    decide
  exact hall d hd

/-! ### Characters -/

/-- The letters that stand for a character behind a backslash. -/
def shortEscapes : List (Char × Char) :=
  [('"', '"'), ('\\', '\\'), ('n', '\n'), ('r', '\r'), ('t', '\t'), ('0', '\x00')]

/-- How a character is spelled. -/
theorem escape_cases (c : Char) :
    (escape c = [c] ∧ c ≠ '\\' ∧ c ≠ '\n' ∧ c ≠ '\r') ∨
      (∃ k, (k, c) ∈ shortEscapes ∧ escape c = ['\\', k]) ∨
      escape c = '\\' :: 'u' :: '\x7b' :: (hexDigits c.toNat ++ ['\x7d']) := by
  unfold escape
  split
  · exact .inr (.inl ⟨'"', by decide, rfl⟩)
  · exact .inr (.inl ⟨'\\', by decide, rfl⟩)
  · exact .inr (.inl ⟨'n', by decide, rfl⟩)
  · exact .inr (.inl ⟨'r', by decide, rfl⟩)
  · exact .inr (.inl ⟨'t', by decide, rfl⟩)
  · exact .inr (.inl ⟨'0', by decide, rfl⟩)
  · next hquote hbackslash hfeed hreturn htab hzero =>
    split
    · exact .inr (.inr rfl)
    · exact .inl ⟨rfl, hbackslash, hfeed, hreturn⟩

/-- A letter behind a backslash stands for one character. -/
theorem shortEscapes_injective {k c d : Char} (hc : (k, c) ∈ shortEscapes)
    (hd : (k, d) ∈ shortEscapes) : c = d := by
  have hall : ∀ p ∈ shortEscapes, ∀ q ∈ shortEscapes, p.1 = q.1 → p.2 = q.2 := by decide
  exact hall _ hc _ hd rfl

theorem shortEscapes_letter {k c : Char} (h : (k, c) ∈ shortEscapes) :
    k ≠ 'u' ∧ k ≠ '\n' ∧ k ≠ '\r' := by
  have hall : ∀ p ∈ shortEscapes, p.1 ≠ 'u' ∧ p.1 ≠ '\n' ∧ p.1 ≠ '\r' := by decide
  exact hall _ h

/-- **No spelling is the beginning of another one.** -/
theorem escape_append_injective {c d : Char} {cs ds : List Char}
    (h : escape c ++ cs = escape d ++ ds) : c = d ∧ cs = ds := by
  rcases escape_cases c with ⟨hc, hcb, -⟩ | ⟨k, hk, hc⟩ | hc
  · rcases escape_cases d with ⟨hd, -⟩ | ⟨k, hk, hd⟩ | hd
    · rw [hc, hd] at h
      exact List.cons.inj h
    · rw [hc, hd] at h
      exact absurd (List.cons.inj h).1 hcb
    · rw [hc, hd] at h
      exact absurd (List.cons.inj h).1 hcb
  · rcases escape_cases d with ⟨hd, hdb, -⟩ | ⟨l, hl, hd⟩ | hd
    · rw [hc, hd] at h
      exact absurd (List.cons.inj h).1.symm hdb
    · rw [hc, hd] at h
      obtain ⟨rfl, hrest⟩ := List.cons.inj (List.cons.inj h).2
      exact ⟨shortEscapes_injective hk hl, hrest⟩
    · rw [hc, hd] at h
      exact absurd (List.cons.inj (List.cons.inj h).2).1 (shortEscapes_letter hk).1
  · rcases escape_cases d with ⟨hd, hdb, -⟩ | ⟨l, hl, hd⟩ | hd
    · rw [hc, hd] at h
      exact absurd (List.cons.inj h).1.symm hdb
    · rw [hc, hd] at h
      exact absurd (List.cons.inj (List.cons.inj h).2).1.symm (shortEscapes_letter hl).1
    · -- the numbers end where their braces do
      rw [hc, hd] at h
      have hnumber : hexDigits c.toNat ++ ['\x7d'] ++ cs = hexDigits d.toNat ++ ['\x7d'] ++ ds :=
        (List.cons.inj (List.cons.inj (List.cons.inj h).2).2).2
      rw [List.append_assoc, List.append_assoc] at hnumber
      obtain ⟨hdigits, hrest⟩ := append_cons_injective (fun hmem => (hexDigits_no hmem).1 rfl)
        (fun hmem => (hexDigits_no hmem).1 rfl) hnumber
      exact ⟨Char.toNat_inj.mp (hexDigits_injective hdigits), hrest⟩

/-- No spelling ends a line. -/
theorem escape_no {c d : Char} (h : d ∈ escape c) : d ≠ '\n' ∧ d ≠ '\r' := by
  have hbackslash : '\\' ≠ '\n' ∧ '\\' ≠ '\r' := by decide
  rcases escape_cases c with ⟨hc, -, hfeed, hreturn⟩ | ⟨k, hk, hc⟩ | hc
  · rw [hc] at h
    obtain rfl := List.mem_singleton.mp h
    exact ⟨hfeed, hreturn⟩
  · rw [hc] at h
    rcases List.mem_pair.mp h with rfl | rfl
    · exact hbackslash
    · exact (shortEscapes_letter hk).2
  · rw [hc, List.mem_cons, List.mem_cons, List.mem_cons, List.mem_append, List.mem_singleton] at h
    rcases h with rfl | rfl | rfl | h | rfl
    · exact hbackslash
    · decide
    · decide
    · exact (hexDigits_no h).2
    · decide

/-! ### Strings -/

theorem flatMap_escape_injective {cs ds : List Char} (h : cs.flatMap escape = ds.flatMap escape) :
    cs = ds := by
  have hne : ∀ (c : Char) (cs : List Char), (c :: cs).flatMap escape ≠ [] := by
    intro c cs hnil
    rw [List.flatMap_cons, List.append_eq_nil_iff] at hnil
    rcases escape_cases c with ⟨hc, -⟩ | ⟨k, -, hc⟩ | hc
    · simp [hc] at hnil
    · simp [hc] at hnil
    · simp [hc] at hnil
  induction cs generalizing ds with
  | nil =>
    cases ds with
    | nil => rfl
    | cons d ds => exact absurd h.symm (hne d ds)
  | cons c cs ih =>
    cases ds with
    | nil => exact absurd h (hne c cs)
    | cons d ds =>
      obtain ⟨rfl, hrest⟩ := escape_append_injective h
      rw [ih hrest]

/-- **A quoted string tells what it quotes.** -/
theorem quoted_injective {s t : String} (h : quoted s = quoted t) : s = t := by
  have hlist := (List.cons.inj (String.ofList_injective h)).2
  exact String.toList_inj.mp (flatMap_escape_injective (List.append_cancel_right hlist))

theorem isLine_quoted (s : String) : IsLine (quoted s) := by
  intro c hc
  rw [quoted, String.toList_ofList, List.mem_cons, List.mem_append, List.mem_singleton] at hc
  rcases hc with rfl | hc | rfl
  · decide
  · obtain ⟨d, -, hd⟩ := List.mem_flatMap.mp hc
    exact escape_no hd
  · decide

end Monkey
