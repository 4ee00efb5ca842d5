import TailFlow.Json.Reader
import TailFlow.Proofs.Outcome

/-!
# Numerals are read back

A numeral is written as a sign, the digits of its whole part, a point with digits behind it and an
exponent, each of the last two only where the numeral has it. What is written is read back, as long
as what follows does not go on as a number does.
-/

namespace TailFlow.Json

/-- What follows a number does not belong to it. -/
def EndsNumeral (rest : List Char) : Prop :=
  ∀ c ∈ rest.head?, c.isDigit = false ∧ c ≠ '.' ∧ c ≠ 'e' ∧ c ≠ 'E'

/-- What stands behind the point are digits. -/
def Numeral.Proper (numeral : Numeral) : Prop := ∀ digit ∈ numeral.fraction, digit < 10

/-! ### Digits -/

def digitValues (digits : List Char) : List Nat := digits.map fun c => c.toNat - '0'.toNat

theorem takeDigits_append {digits rest : List Char} (hdigits : ∀ c ∈ digits, c.isDigit)
    (hrest : ∀ c ∈ rest.head?, c.isDigit = false) :
    takeDigits (digits ++ rest) = (digitValues digits, rest) := by
  have hnone : rest.takeWhile Char.isDigit = [] ∧ rest.dropWhile Char.isDigit = rest := by
    cases rest with
    | nil => exact ⟨rfl, rfl⟩
    | cons c rest => simp [hrest c rfl]
  rw [takeDigits, List.takeWhile_append_of_pos hdigits, List.dropWhile_append_of_pos hdigits,
    hnone.1, hnone.2, List.append_nil]
  rfl

theorem readDigits_append {digits rest : List Char} (hsome : digits ≠ [])
    (hdigits : ∀ c ∈ digits, c.isDigit) (hrest : ∀ c ∈ rest.head?, c.isDigit = false) :
    readDigits (digits ++ rest) = .ok (digitValues digits, rest) := by
  obtain ⟨c, others, rfl⟩ := List.exists_cons_of_ne_nil hsome
  rw [readDigits, takeDigits_append hdigits hrest]
  rfl

section Decimal

variable (n : Nat)

theorem readDigits_toDigits {rest : List Char} (hrest : ∀ c ∈ rest.head?, c.isDigit = false) :
    readDigits (Nat.toDigits 10 n ++ rest) = .ok (digitValues (Nat.toDigits 10 n), rest) :=
  readDigits_append Nat.toDigits_ne_nil
    (fun _ hmem => Nat.isDigit_of_mem_toDigits (by decide) (by decide) hmem) hrest

theorem spell_toDigits : Numeral.spell (digitValues (Nat.toDigits 10 n)) = n := by
  have hvalue : Nat.ofDigitChars 10 (Nat.toDigits 10 n) 0 = n := Nat.ofDigitChars_ten_toDigits
  rw [Nat.ofDigitChars_eq_foldl] at hvalue
  rw [Numeral.spell, digitValues, List.foldl_map]
  simpa only [Nat.mul_comm] using hvalue

/-- Only the number zero begins with a zero. -/
theorem toDigits_cases : (n < 10 ∧ Nat.toDigits 10 n = [n.digitChar])
    ∨ ∃ c rest, Nat.toDigits 10 n = c :: rest ∧ c.toNat - '0'.toNat ≠ 0 := by
  induction n using Nat.strongRecOn with
  | ind n ih =>
    rcases Nat.lt_or_ge n 10 with hlt | hge
    · exact .inl ⟨hlt, Nat.toDigits_of_lt_base hlt⟩
    right
    rw [Nat.toDigits_of_base_le (by decide) hge]
    rcases ih (n / 10) (by omega) with ⟨hsmall, hone⟩ | ⟨c, rest, hmore, hne⟩
    · refine ⟨_, _, by rw [hone, List.singleton_append], ?_⟩
      have hpos : n / 10 ≠ 0 := by omega
      revert hpos hsmall
      generalize n / 10 = leading
      decide +revert
    · exact ⟨c, _, by rw [hmore, List.cons_append], hne⟩

theorem readWhole_toDigits {rest : List Char} (hrest : ∀ c ∈ rest.head?, c.isDigit = false) :
    readWhole (Nat.toDigits 10 n ++ rest) = .ok (n, rest) := by
  unfold readWhole
  rw [readDigits_toDigits n hrest, Outcome.ok_bind]
  dsimp only
  split
  · rename_i hzero
    rcases toDigits_cases n with ⟨-, hone⟩ | ⟨c, others, hmore, hne⟩
    · simp [hone, digitValues] at hzero
    · rw [hmore] at hzero
      exact absurd (List.cons.inj hzero).1 hne
  · rw [spell_toDigits]
    rfl

end Decimal

/-! ### The parts of a numeral -/

theorem readDigits_digitText {digits : List Nat} (hsome : digits ≠ [])
    (hdigits : ∀ digit ∈ digits, digit < 10) {rest : List Char}
    (hrest : ∀ c ∈ rest.head?, c.isDigit = false) :
    readDigits ((Decimal.digitText digits).toList ++ rest) = .ok (digits, rest) := by
  have hdigit : ∀ digit < 10, (Char.ofNat (digit + '0'.toNat)).isDigit
      ∧ (Char.ofNat (digit + '0'.toNat)).toNat - '0'.toNat = digit := by decide
  rw [Decimal.digitText, String.toList_ofList, readDigits_append (by simpa using hsome) ?_ hrest,
    digitValues, List.map_map]
  · have hsame : digits.map ((fun c => c.toNat - '0'.toNat) ∘ fun digit => Char.ofNat
        (digit + '0'.toNat)) = digits.map id :=
      List.map_congr_left fun digit hmem => (hdigit digit (hdigits digit hmem)).2
    rw [hsame, List.map_id]
  · intro c hmem
    obtain ⟨digit, hdigit', rfl⟩ := List.mem_map.mp hmem
    exact (hdigit digit (hdigits digit hdigit')).1

namespace Numeral

def fractionText (digits : List Nat) : String :=
  if digits.isEmpty then "" else "." ++ Decimal.digitText digits

def exponentText : Option Int → String
  | none => ""
  | some exponent => (if exponent < 0 then "e-" else "e+") ++ toString exponent.natAbs

theorem text_eq (numeral : Numeral) : numeral.text = (if numeral.negative then "-" else "")
    ++ toString numeral.whole ++ fractionText numeral.fraction
    ++ exponentText numeral.exponent := by
  obtain ⟨negative, whole, fraction, exponent⟩ := numeral
  cases exponent <;> rfl

end Numeral

theorem readFraction_text {digits : List Nat} (hdigits : ∀ digit ∈ digits, digit < 10)
    {rest : List Char} (hrest : ∀ c ∈ rest.head?, c.isDigit = false ∧ c ≠ '.') :
    readFraction ((Numeral.fractionText digits).toList ++ rest) = .ok (digits, rest) := by
  cases digits with
  | nil =>
    show readFraction rest = _
    unfold readFraction
    split
    · exact absurd rfl (hrest _ rfl).2
    · rfl
  | cons digit others =>
    have htext : (Numeral.fractionText (digit :: others)).toList ++ rest
        = '.' :: ((Decimal.digitText (digit :: others)).toList ++ rest) := by
      simp [Numeral.fractionText]
    rw [htext, readFraction]
    exact readDigits_digitText (List.cons_ne_nil _ _) hdigits fun c hc => (hrest c hc).1

theorem readExponent_text (exponent : Option Int) {rest : List Char} (hrest : EndsNumeral rest) :
    readExponent ((Numeral.exponentText exponent).toList ++ rest) = .ok (exponent, rest) := by
  cases exponent with
  | none =>
    show readExponent rest = _
    cases rest with
    | nil => rfl
    | cons c rest =>
      obtain ⟨-, -, hlower, hupper⟩ := hrest c rfl
      simp [readExponent, hlower, hupper]
  | some exponent =>
    have hdigits := readDigits_toDigits exponent.natAbs fun c hc => (hrest c hc).1
    have hspell := spell_toDigits exponent.natAbs
    by_cases hneg : exponent < 0
    · have htext : (Numeral.exponentText (some exponent)).toList
          = 'e' :: '-' :: Nat.toDigits 10 exponent.natAbs := by
        simp [Numeral.exponentText, hneg]
      have hvalue : -(exponent.natAbs : Int) = exponent := by omega
      rw [htext]
      simp only [List.cons_append, readExponent, hdigits, Except.map, hspell, hvalue]
      rfl
    · have htext : (Numeral.exponentText (some exponent)).toList
          = 'e' :: '+' :: Nat.toDigits 10 exponent.natAbs := by
        simp [Numeral.exponentText, hneg]
      have hvalue : (exponent.natAbs : Int) = exponent := by omega
      rw [htext]
      simp only [List.cons_append, readExponent, hdigits, Except.map, hspell, hvalue]
      rfl

/-! ### The whole numeral -/

/-- Neither a digit nor a point stands where the exponent of a numeral is due. -/
theorem head?_exponentText (exponent : Option Int) {rest : List Char} (hrest : EndsNumeral rest) :
    ∀ c ∈ ((Numeral.exponentText exponent).toList ++ rest).head?, c.isDigit = false ∧ c ≠ '.' := by
  cases exponent with
  | none => exact fun c hc => ⟨(hrest c hc).1, (hrest c hc).2.1⟩
  | some exponent =>
    intro c hc
    obtain rfl : c = 'e' := by
      by_cases hneg : exponent < 0 <;> simpa [Numeral.exponentText, hneg, eq_comm] using hc
    decide

theorem head?_fractionText (digits : List Nat) {rest : List Char}
    (hrest : ∀ c ∈ rest.head?, c.isDigit = false) :
    ∀ c ∈ ((Numeral.fractionText digits).toList ++ rest).head?, c.isDigit = false := by
  cases digits with
  | nil => exact hrest
  | cons digit others =>
    intro c hc
    obtain rfl : c = '.' := by simpa [Numeral.fractionText, eq_comm] using hc
    decide

theorem readNumeral_sign (negative : Bool) {text : List Char}
    (hsign : ∀ c ∈ text.head?, c ≠ '-') :
    readNumeral ((if negative then ['-'] else []) ++ text) = (do
      let (whole, text) ← readWhole text
      let (fraction, text) ← readFraction text
      let (exponent, text) ← readExponent text
      return (⟨negative, whole, fraction, exponent⟩, text)) := by
  cases negative with
  | true => rfl
  | false =>
    cases text with
    | nil => rfl
    | cons c rest =>
      have hne := hsign c rfl
      simp [readNumeral, hne]

theorem readNumeral_text {numeral : Numeral} (hproper : numeral.Proper) {rest : List Char}
    (hrest : EndsNumeral rest) :
    readNumeral (numeral.text.toList ++ rest) = .ok (numeral, rest) := by
  obtain ⟨negative, whole, fraction, exponent⟩ := numeral
  have hbehind := head?_exponentText exponent hrest
  have hwhole := readWhole_toDigits whole (head?_fractionText fraction fun c hc => (hbehind c hc).1)
  have htext : (⟨negative, whole, fraction, exponent⟩ : Numeral).text.toList ++ rest
      = (if negative then ['-'] else []) ++ (Nat.toDigits 10 whole
        ++ ((Numeral.fractionText fraction).toList
          ++ ((Numeral.exponentText exponent).toList ++ rest))) := by
    cases negative <;> simp [Numeral.text_eq]
  rw [htext, readNumeral_sign, hwhole, Outcome.ok_bind]
  · dsimp only
    rw [readFraction_text hproper hbehind, Outcome.ok_bind]
    dsimp only
    rw [readExponent_text exponent hrest]
    rfl
  · intro c hc
    obtain ⟨first, others, hdigits⟩ :=
      List.exists_cons_of_ne_nil (Nat.toDigits_ne_nil (n := whole) (b := 10))
    have hdigit : first.isDigit :=
      Nat.isDigit_of_mem_toDigits (b := 10) (by decide) (by decide) (hdigits ▸ List.mem_cons_self)
    rw [hdigits] at hc
    obtain rfl := Option.some.inj hc
    rintro rfl
    exact absurd hdigit (by decide)

/-! ### The numerals that are written -/

namespace Numeral

theorem proper_ofNat (n : Nat) : (ofNat n).Proper := List.forall_mem_nil _

theorem toNat?_ofNat {n : Nat} (hlt : n < wordCount) : (ofNat n).toNat? = some n := by
  simp [toNat?, ofNat, isWhole, hlt]

end Numeral

end TailFlow.Json

namespace TailFlow.Decimal

theorem lt_of_mem_digitsOf {n digit : Nat} (hmem : digit ∈ digitsOf n) : digit < 10 := by
  obtain ⟨c, hc, rfl⟩ := List.mem_map.mp hmem
  have hdigit : c.isDigit := Nat.isDigit_of_mem_toDigits (by decide) (by decide) hc
  have hle : c.toNat ≤ 57 := (Char.isDigit_iff_toNat.mp hdigit).2
  show c.toNat - 48 < 10
  omega

theorem mem_of_mem_dropTrailingZeros {digits : List Nat} {digit : Nat}
    (hmem : digit ∈ dropTrailingZeros digits) : digit ∈ digits := by
  induction digits with
  | nil => exact hmem
  | cons first rest ih =>
    unfold dropTrailingZeros at hmem
    split at hmem
    · exact List.mem_cons.mpr (.inl (List.mem_singleton.mp hmem))
    · exact List.mem_cons.mpr (.inl (List.mem_singleton.mp hmem))
    · exact List.mem_cons.mpr ((List.mem_cons.mp hmem).imp_right ih)

theorem lt_of_mem_ofGrid {count digit : Nat} {grid : Int}
    (hmem : digit ∈ (ofGrid count grid).digits) :
    digit < 10 :=
  lt_of_mem_digitsOf (mem_of_mem_dropTrailingZeros hmem)

theorem lt_of_mem_searchGrids {tie : TieRule} {number : Binary32.FiniteNumber} {finer : Nat}
    {grid : Int} {digit : Nat} (hmem : digit ∈ (searchGrids tie number finer grid).digits) :
    digit < 10 := by
  induction finer generalizing grid with
  | zero => exact lt_of_mem_ofGrid hmem
  | succ finer ih =>
    unfold searchGrids at hmem
    split at hmem
    · exact lt_of_mem_ofGrid hmem
    · exact ih hmem

theorem lt_of_mem_shortest {tie : TieRule} {number : Binary32.FiniteNumber} {digit : Nat}
    (hmem : digit ∈ (shortest tie number).digits) : digit < 10 := by
  unfold shortest at hmem
  split at hmem
  · rw [List.mem_singleton.mp hmem]
    decide
  · exact lt_of_mem_searchGrids hmem

theorem lt_of_mem_positional {number : Decimal} (hdigits : ∀ digit ∈ number.digits, digit < 10)
    {digit : Nat} (hmem : digit ∈ number.positional.2) : digit < 10 := by
  unfold positional at hmem
  split at hmem
  · rcases List.mem_append.mp hmem with hzero | hdigit
    · rw [(List.mem_replicate.mp hzero).2]
      decide
    · exact hdigits digit hdigit
  · exact hdigits digit (List.mem_of_mem_drop hmem)

end TailFlow.Decimal

namespace TailFlow.Json

theorem Numeral.proper_ofFinite (number : Binary32.FiniteNumber) : (ofFinite number).Proper := by
  intro digit hmem
  unfold ofFinite at hmem
  dsimp only at hmem
  split at hmem
  · dsimp only at hmem
    split at hmem
    · rw [List.mem_singleton.mp hmem]
      decide
    · exact Decimal.lt_of_mem_positional (fun _ => Decimal.lt_of_mem_shortest) hmem
  · exact Decimal.lt_of_mem_shortest (List.mem_of_mem_drop hmem)

end TailFlow.Json
