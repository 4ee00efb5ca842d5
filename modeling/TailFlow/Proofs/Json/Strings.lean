import TailFlow.Json.Reader
import TailFlow.Proofs.Outcome

/-!
# Strings are read back

A string is written between quotes, and the characters that may not stand there are written as
escapes. Reading takes one step for every character, however it is written.
-/

namespace TailFlow.Json

theorem hexValue?_hexDigit {n : Nat} (hlt : n < 16) : hexValue? (hexDigit n) = some n := by
  decide +revert

theorem utf8Size_hexDigit {n : Nat} (hlt : n < 16) : (hexDigit n).utf8Size = 1 := by
  decide +revert

theorem readUnit_code {n : Nat} (hlt : n < 32) (rest : List Char) :
    readUnit ('0' :: '0' :: hexDigit (n / 16) :: hexDigit (n % 16) :: rest) = .ok (n, rest) := by
  have hhigh := hexValue?_hexDigit (n := n / 16) (by omega)
  have hlow := hexValue?_hexDigit (n := n % 16) (by omega)
  have hzero : hexValue? '0' = some 0 := by decide
  have hbytes :
      ¬ bytesAhead ('0' :: '0' :: hexDigit (n / 16) :: hexDigit (n % 16) :: rest) < 4 := by
    have hone := utf8Size_hexDigit (n := n / 16) (by omega)
    have hother := utf8Size_hexDigit (n := n % 16) (by omega)
    simp [bytesAhead, sumOf, hone, hother]
    decide
  unfold readUnit
  rw [if_neg hbytes]
  simp only [hzero, hhigh, hlow]
  refine congrArg (fun unit => Except.ok (unit, rest)) ?_
  omega

theorem readCodeUnits_code {c : Char} (hlt : c.toNat < 32) (rest : List Char) :
    readCodeUnits ('0' :: '0' :: hexDigit (c.toNat / 16) :: hexDigit (c.toNat % 16) :: rest)
      = .ok (some c, rest) := by
  have hplain : isTrailing c.toNat = false ∧ isLeading c.toNat = false := by
    simp only [isTrailing, isLeading, Bool.and_eq_false_iff, decide_eq_false_iff_not]
    omega
  unfold readCodeUnits
  rw [readUnit_code hlt, Outcome.ok_bind]
  simp only [hplain, Bool.false_eq_true, if_false, Char.ofNat_toNat]
  rfl

/-- A character stands for itself, or it is written as an escape that is read back. -/
theorem escapeChar_cases (c : Char) :
    (escapeChar c = [c] ∧ c ≠ '"' ∧ c ≠ '\\' ∧ ¬ c.toNat < 32)
      ∨ ∃ code, escapeChar c = '\\' :: code
        ∧ ∀ rest, readEscape (code ++ rest) = .ok (some c, rest) := by
  have hsame {d : Char} (h : c.toNat = d.toNat) : c = d := by
    rw [← Char.ofNat_toNat c, h, Char.ofNat_toNat]
  unfold escapeChar
  split
  · subst_vars; exact .inr ⟨_, rfl, fun _ => rfl⟩
  split
  · subst_vars; exact .inr ⟨_, rfl, fun _ => rfl⟩
  split
  · subst_vars; exact .inr ⟨_, rfl, fun _ => rfl⟩
  split
  · subst_vars; exact .inr ⟨_, rfl, fun _ => rfl⟩
  split
  · subst_vars; exact .inr ⟨_, rfl, fun _ => rfl⟩
  split
  · obtain rfl := hsame (d := Char.ofNat 8) ‹_›
    exact .inr ⟨_, rfl, fun _ => rfl⟩
  split
  · obtain rfl := hsame (d := Char.ofNat 12) ‹_›
    exact .inr ⟨_, rfl, fun _ => rfl⟩
  split
  · exact .inr ⟨_, rfl, fun rest => readCodeUnits_code ‹_› rest⟩
  · exact .inl ⟨rfl, ‹_›, ‹_›, ‹_›⟩

/-- What stands between the quotes, with a lone backslash for every escape. -/
def rawChars (value : List Char) : List Char := value.flatMap fun c => (escapeChar c).take 1

/-- A string is read back if there is a step for each of its characters and one for the quote. -/
theorem readString_quoted {value : List Char} {fuel : Nat} (hfuel : value.length < fuel)
    (rest : List Char) : readString fuel (value.flatMap escapeChar ++ '"' :: rest)
      = ⟨rawChars value, value, false, none, rest⟩ := by
  induction value generalizing fuel with
  | nil =>
    obtain ⟨fuel, rfl⟩ := Nat.exists_eq_succ_of_ne_zero (Nat.ne_of_gt hfuel)
    simp [readString, rawChars]
  | cons c value ih =>
    obtain ⟨fuel, rfl⟩ := Nat.exists_eq_succ_of_ne_zero (Nat.ne_of_gt (Nat.zero_lt_of_lt hfuel))
    have hrest := ih (Nat.lt_of_succ_lt_succ hfuel)
    rw [List.flatMap_cons, List.append_assoc, rawChars, List.flatMap_cons, ← rawChars]
    rcases escapeChar_cases c with ⟨hplain, hquote, hescape, hprint⟩ | ⟨code, hcode, hread⟩
    · simp only [hplain, List.cons_append, List.nil_append]
      rw [readString, if_neg hquote, if_neg hescape, if_neg hprint, hrest]
      rfl
    · simp only [hcode, List.cons_append]
      rw [readString, if_neg (by decide), if_pos rfl, hread]
      dsimp only
      rw [hrest]
      rfl

/-- The characters of a string in its written form, and what follows them. -/
theorem quoted_append (value : String) (rest : List Char) : (quoted value).toList ++ rest
    = '"' :: (value.toList.flatMap escapeChar ++ '"' :: rest) := by
  simp [quoted]

end TailFlow.Json
