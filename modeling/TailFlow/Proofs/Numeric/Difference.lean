import Mathlib
import TailFlow.Numeric.Binary32

/-!
# The difference of two singles

Singles lie so close together around zero that the difference of two of them is never lost: if two
finite singles are not equal, their distance is at least the least single, and rounding leaves it
above zero. A difference therefore has a size, once its sign is taken away, just if the two
singles are not equal and both are numbers.

The argument follows the way a difference is computed. Both singles are read as a sign, a
significand and an exponent, the significands are brought to the lower of the two exponents and
subtracted, and the whole number that is left is rounded to 24 bits and written as a single. What
is kept along these steps is `Sized`, that a reading is not zero and within the bounds of a
single. In what follows `s` and `t` are signs, `m` and `n` significands, `e` and `f` exponents.
-/

namespace TailFlow.Binary32

open Float.Model
open Float.Model.UnpackedFloat (Sign Accuracy ExtendedMantissa decreaseExponent packComponents
  unpackExponent unpackMantissa)

/-- A significand and an exponent as a single holds them: no more than 24 bits, and all of them
unless the exponent is the least one. -/
structure Canonical (m : Nat) (e : Int) : Prop where
  short : m.log2 ≤ 23
  least : leastExponent ≤ e
  full : e = leastExponent ∨ m.log2 = 23

/-- A reading that a single can have. -/
def Held : UnpackedFloat → Prop
  | .finite _ m e _ => Canonical m e
  | _ => True

/-- A reading that has a sign and is not zero, within the bounds of a single. -/
def Sized (s : Sign) : UnpackedFloat → Prop
  | .infinity s' => s' = s
  | .finite s' m e _ => s' = s ∧ m < 2 ^ 24 ∧ leastExponent ≤ e
  | _ => False

theorem Canonical.sized {m : Nat} {e : Int} (h : Canonical m e) (hm : 0 < m) (s : Sign) :
    Sized s (.finite s m e hm) :=
  ⟨rfl, (Nat.log2_lt hm.ne').mp (Nat.lt_succ_of_le h.short), h.least⟩

section Reading

theorem log2_leading_one (fraction : BitVec 23) : (1#1 ++ fraction).toNat.log2 = 23 := by
  have hvalue : (1#1 ++ fraction).toNat = 2 ^ 23 + fraction.toNat := by
    rw [BitVec.toNat_append, ← Nat.shiftLeft_add_eq_or_of_lt fraction.isLt]
    rfl
  have hlt := fraction.isLt
  rw [hvalue, Nat.log2_eq_iff (by omega)]
  omega

theorem canonical_of_unpack {bits : BitVec 32} {s : Sign} {m : Nat} {e : Int} {hm : 0 < m}
    (hread : UnpackedFloat.unpack .binary32 bits = .finite s m e hm) : Canonical m e := by
  have hbias : Format.binary32.exponentBias = 127 := rfl
  unfold UnpackedFloat.unpack at hread
  dsimp only at hread
  rw [hbias] at hread
  split at hread
  case isTrue => split at hread <;> cases hread
  case isFalse =>
    split at hread
    case isTrue hfield =>
      split at hread
      case isTrue => cases hread
      case isFalse =>
        cases hread
        have hlt := (Nat.log2_lt hm.ne').mpr (@unpackMantissa .binary32 bits).isLt
        rw [hfield]
        exact ⟨hlt.le, by decide, .inl (by decide)⟩
    case isFalse hfield =>
      cases hread
      have hpos : 0 < (@unpackExponent .binary32 bits).toNat := by
        simpa [BitVec.toNat_pos, BitVec.pos_iff_ne_zero] using hfield
      have hlog := log2_leading_one (@unpackMantissa .binary32 bits)
      refine ⟨hlog.le, ?_, .inr hlog⟩
      unfold leastExponent
      dsimp only [Format.binary32]
      omega

theorem held_unpack (bits : BitVec 32) : Held (UnpackedFloat.unpack .binary32 bits) := by
  cases hread : UnpackedFloat.unpack .binary32 bits with
  | finite => exact canonical_of_unpack hread
  | _ => trivial

end Reading

section Writing

theorem unpack_pack_infinity (s : Sign) :
    UnpackedFloat.unpack .binary32 (UnpackedFloat.pack .binary32 (.infinity s)) = .infinity s := by
  cases s <;> rfl

theorem unpack_packComponents (s : Sign) {field : BitVec 8} {fraction : BitVec 23}
    (hfield : field ≠ -1#8) (hvalue : field ≠ 0#8 ∨ fraction ≠ 0#23) : ∃ m e hm,
    UnpackedFloat.unpack .binary32 (packComponents .binary32 s field fraction)
      = .finite s m e hm := by
  unfold UnpackedFloat.unpack
  simp only [UnpackedFloat.unpackExponent_packComponents,
    UnpackedFloat.unpackMantissa_packComponents, UnpackedFloat.unpackSign_packComponents,
    Sign.ofBitVec_toBitVec, if_neg hfield]
  by_cases hzero : field = 0#8
  · have hfraction : fraction ≠ 0#23 := hvalue.resolve_left (not_not.mpr hzero)
    have hpos : 0 < fraction.toNat := by
      simpa [BitVec.toNat_pos, BitVec.pos_iff_ne_zero] using hfraction
    rw [if_pos hzero, dif_neg hfraction]
    exact ⟨_, _, hpos, rfl⟩
  · have hlog := log2_leading_one fraction
    have hpos : 0 < (1#1 ++ fraction).toNat := by
      apply Nat.pos_of_ne_zero
      intro hnone
      rw [hnone] at hlog
      exact absurd hlog (by decide)
    rw [if_neg hzero]
    exact ⟨_, _, hpos, rfl⟩

theorem sized_unpack_packComponents (s : Sign) {field : BitVec 8} {fraction : BitVec 23}
    (hfield : field ≠ -1#8) (hvalue : field ≠ 0#8 ∨ fraction ≠ 0#23) :
    Sized s (UnpackedFloat.unpack .binary32 (packComponents .binary32 s field fraction)) := by
  obtain ⟨m, e, hm, hread⟩ := unpack_packComponents s hfield hvalue
  rw [hread]
  exact (canonical_of_unpack hread).sized hm s

theorem ofNat_ne {width k : Nat} {bits : BitVec width} (hlt : k < 2 ^ width) (h : k ≠ bits.toNat) :
    BitVec.ofNat width k ≠ bits := by
  intro heq
  apply h
  rw [← heq, BitVec.toNat_ofNat, Nat.mod_eq_of_lt hlt]

/-- Writing a reading of some size as a single and reading that gives one of some size: past the
greatest single it is infinite, and nothing is lost below the least one. -/
theorem Sized.unpack_pack {s : Sign} {u : UnpackedFloat} (h : Sized s u) :
    Sized s (UnpackedFloat.unpack .binary32 (UnpackedFloat.pack .binary32 u)) := by
  cases u with
  | notANumber => exact h.elim
  | zero => exact h.elim
  | infinity s' =>
    rw [unpack_pack_infinity]
    exact h
  | finite s' m e hm =>
    obtain ⟨rfl, hshort, hleast⟩ := h
    have hbias : Format.binary32.exponentBias = 127 := rfl
    have hbits : Format.binary32.mantissaBits = 24 := rfl
    unfold leastExponent at hleast
    unfold UnpackedFloat.pack
    dsimp only
    rw [hbias]
    generalize hfield : (e + _ + _).toNat = field
    have hpos : 0 < field := by omega
    by_cases hover : 2 ^ 8 ≤ field + 1
    · rw [if_pos hover]
      exact (congrArg (Sized s') (unpack_pack_infinity s')).mpr rfl
    rw [if_neg hover]
    by_cases hfull : m.log2 + 1 = Format.binary32.mantissaBits
    · rw [if_pos hfull]
      apply sized_unpack_packComponents
      · exact ofNat_ne (by omega) (show field ≠ 255 by omega)
      · exact .inl (ofNat_ne (by omega) hpos.ne')
    · have hlog := (Nat.log2_lt hm.ne').mpr hshort
      rw [hbits] at hfull
      rw [if_neg (by rwa [hbits])]
      apply sized_unpack_packComponents
      · decide
      · exact .inr (ofNat_ne ((Nat.log2_lt hm.ne').mp (by omega)) hm.ne')

end Writing

section Rounding

theorem targetExponent_eq (total : Int) :
    Format.binary32.targetExponent total = max (total - 24) leastExponent := rfl

theorem shiftRight_mantissa (extended : ExtendedMantissa) (k : Nat) :
    (extended >>> k).mantissa = extended.mantissa / 2 ^ k := by
  induction k with
  | zero => exact (Nat.div_one _).symm
  | succ k ih =>
    show (extended >>> k).mantissa / 2 = extended.mantissa / 2 ^ (k + 1)
    rw [ih, Nat.div_div_eq_div_mul, Nat.pow_succ]

theorem mantissa_ofMantissaAndAccuracy (m : Nat) (accuracy : Accuracy) :
    (ExtendedMantissa.ofMantissaAndAccuracy m accuracy).mantissa = m := by
  cases accuracy with
  | exact => rfl
  | inexact half => cases half <;> rfl

theorem le_roundedMantissa (extended : ExtendedMantissa) :
    extended.mantissa ≤ extended.roundedMantissa := by
  unfold ExtendedMantissa.roundedMantissa
  cases extended.accuracy with
  | exact => exact Nat.le_refl _
  | inexact half =>
    cases half with
    | lt => exact Nat.le_refl _
    | eq => exact Nat.le_add_right _ _
    | gt => exact Nat.le_succ _

/-- A significand that is shifted to its target keeps its leading bit, and no more than 24 bits. -/
theorem shift_bounds {m shift : Nat} {e : Int} (hm : 0 < m) (he : leastExponent ≤ e)
    (hshift : (Format.binary32.targetExponent (totalExponent m e) - e).toNat = shift) :
    0 < m / 2 ^ shift ∧ m / 2 ^ shift < 2 ^ 24 := by
  have hpow := Nat.two_pow_pos shift
  rw [targetExponent_eq, totalExponent] at hshift
  constructor
  · apply Nat.div_pos _ hpow
    exact (Nat.le_log2 hm.ne').mp (by omega)
  · rw [Nat.div_lt_iff_lt_mul hpow, ← Nat.pow_add]
    exact (Nat.log2_lt hm.ne').mp (by omega)

/-- Rounding shifts twice, since the last bit may carry into a new leading one. -/
theorem sized_roundWithAccuracy (s : Sign) {m : Nat} {e : Int} (hm : 0 < m)
    (he : leastExponent ≤ e) (accuracy : Accuracy) :
    Sized s (UnpackedFloat.roundWithAccuracy .binary32 s m e accuracy) := by
  unfold UnpackedFloat.roundWithAccuracy UnpackedFloat.shiftToTargetExponent
    UnpackedFloat.shiftToExponent
  dsimp only
  generalize hshift : (Format.targetExponent _ (totalExponent m e) - e).toNat = shift
  generalize hrounded : ExtendedMantissa.roundedMantissa _ = rounded
  generalize hagain : (Format.targetExponent _ (totalExponent rounded (e + shift)) - _).toNat
    = again
  have hpos : 0 < rounded := by
    have hmantissa := le_roundedMantissa
      (ExtendedMantissa.ofMantissaAndAccuracy m accuracy >>> shift)
    rw [hrounded, shiftRight_mantissa, mantissa_ofMantissaAndAccuracy] at hmantissa
    exact Nat.lt_of_lt_of_le (shift_bounds hm he hshift).1 hmantissa
  have hbounds := shift_bounds hpos (by omega) hagain
  have hfinal : (ExtendedMantissa.ofMantissaAndAccuracy rounded .exact >>> again).mantissa
      = rounded / 2 ^ again := shiftRight_mantissa _ again
  split
  case isTrue hzero => omega
  case isFalse => exact ⟨rfl, by omega, by omega⟩

theorem sized_round (s : Sign) {m : Nat} {e : Int} (hm : 0 < m) (he : leastExponent ≤ e) :
    Sized s (UnpackedFloat.round .binary32 s m e) := by
  unfold UnpackedFloat.round decreaseExponent
  dsimp only
  apply sized_roundWithAccuracy
  · rw [Nat.shiftLeft_eq]
    exact Nat.mul_pos hm (Nat.two_pow_pos _)
  · rw [targetExponent_eq]
    omega

theorem sized_normalize {k e : Int} (hk : k ≠ 0) (he : leastExponent ≤ e) (zeroSign : Sign) :
    ∃ s, Sized s (UnpackedFloat.normalize .binary32 k e zeroSign) := by
  unfold UnpackedFloat.normalize
  rcases Int.lt_or_gt_of_ne hk with hneg | hpos
  · rw [Int.compare_eq_lt.mpr hneg]
    exact ⟨_, sized_round _ (by omega) he⟩
  · rw [Int.compare_eq_gt.mpr hpos]
    exact ⟨_, sized_round _ (by omega) he⟩

end Rounding

section Subtracting

theorem log2_mul_two_pow {m : Nat} (hm : m ≠ 0) (k : Nat) : (m * 2 ^ k).log2 = m.log2 + k := by
  induction k with
  | zero => rw [Nat.pow_zero, Nat.mul_one, Nat.add_zero]
  | succ k ih =>
    have hne : m * 2 ^ k ≠ 0 := by simp [hm]
    rw [Nat.pow_succ, ← Nat.mul_assoc, Nat.mul_comm, Nat.log2_two_mul hne, ih, Nat.add_assoc]

variable {s t : Sign} {m n : Nat} {e f : Int}

theorem Canonical.eq_of_shifted (hu : Canonical m e) (hv : Canonical n f) (hn : 0 < n) (hle : e ≤ f)
    (heq : m = n * 2 ^ (f - e).toNat) : m = n ∧ e = f := by
  have hlog := congrArg Nat.log2 heq
  rw [log2_mul_two_pow hn.ne'] at hlog
  -- A shift by one bit or more would need a full significand, which has no room for it.
  have hsame : e = f := by
    have hshort := hu.short
    have hleast := hu.least
    have hfull := hv.full
    omega
  rw [hsame, Int.sub_self] at heq
  exact ⟨by simpa using heq, hsame⟩

/-- Significands that are equal once they are brought to the same exponent are those of the same
number. -/
theorem Canonical.eq_of_aligned (hu : Canonical m e) (hv : Canonical n f) (hm : 0 < m) (hn : 0 < n)
    (heq : (decreaseExponent m e (min e f)).1 = (decreaseExponent n f (min e f)).1) :
    m = n ∧ e = f := by
  unfold decreaseExponent at heq
  simp only [Nat.shiftLeft_eq] at heq
  rcases Int.le_total e f with hle | hle
  · rw [Int.min_eq_left hle, Int.sub_self] at heq
    exact hu.eq_of_shifted hv hn hle (by simpa using heq)
  · rw [Int.min_eq_right hle, Int.sub_self] at heq
    have hsame := hv.eq_of_shifted hu hm hle (by simpa using heq.symm)
    exact ⟨hsame.1.symm, hsame.2.symm⟩

theorem pos_decreaseExponent (hm : 0 < m) (e low : Int) : 0 < (decreaseExponent m e low).1 := by
  show 0 < m <<< (e - low).toNat
  rw [Nat.shiftLeft_eq]
  exact Nat.mul_pos hm (Nat.two_pow_pos _)

theorem signed_sub_eq_zero_iff (hm : 0 < m) (hn : 0 < n) :
    s.apply m - t.apply n = 0 ↔ s = t ∧ m = n := by
  cases s <;> cases t <;> simp [Sign.apply] <;> omega

theorem sub_finite_cases {hm : 0 < m} {hn : 0 < n} (hu : Canonical m e) (hv : Canonical n f) :
    UnpackedFloat.finite s m e hm = .finite t n f hn
        ∧ UnpackedFloat.sub .binary32 (.finite s m e hm) (.finite t n f hn) = .zero .positive
      ∨ UnpackedFloat.finite s m e hm ≠ .finite t n f hn
        ∧ ∃ sign, Sized sign
          (UnpackedFloat.sub .binary32 (.finite s m e hm) (.finite t n f hn)) := by
  have hsub : UnpackedFloat.sub .binary32 (.finite s m e hm) (.finite t n f hn)
      = UnpackedFloat.normalize .binary32 (s.apply (decreaseExponent m e (min e f)).1
        - t.apply (decreaseExponent n f (min e f)).1) (min e f) .positive := rfl
  have hzero := signed_sub_eq_zero_iff (s := s) (t := t) (pos_decreaseExponent hm e (min e f))
    (pos_decreaseExponent hn f (min e f))
  by_cases hsame : UnpackedFloat.finite s m e hm = .finite t n f hn
  · refine .inl ⟨hsame, ?_⟩
    obtain ⟨rfl, rfl, rfl⟩ := UnpackedFloat.finite.inj hsame
    rw [hsub, hzero.mpr ⟨rfl, rfl⟩]
    rfl
  · refine .inr ⟨hsame, ?_⟩
    rw [hsub]
    apply sized_normalize _ (le_min hu.least hv.least)
    intro hnone
    obtain ⟨rfl, haligned⟩ := hzero.mp hnone
    obtain ⟨rfl, rfl⟩ := hu.eq_of_aligned hv hm hn haligned
    exact hsame rfl

/-- Two readings that a difference does not tell apart. -/
def Alike (u v : UnpackedFloat) : Prop := u.beq v ∨ u.isNaN ∨ v.isNaN

theorem alike_iff {u v : UnpackedFloat} : Alike u v ↔
    u = .notANumber ∨ v = .notANumber ∨ u = v ∨ ∃ s t, u = .zero s ∧ v = .zero t := by
  unfold Alike
  rw [UnpackedFloat.beq_iff_ne_notANumber_and_eq, UnpackedFloat.isNaN_iff, UnpackedFloat.isNaN_iff]
  constructor
  · grind
  · rintro (hu | hv | hsame | ⟨s, t, hu, hv⟩)
    · exact .inr (.inl hu)
    · exact .inr (.inr hv)
    · grind
    · cases s <;> cases t <;> grind

/-- Subtracting readings, case by case. Only two infinities of the same sign, or two finite
readings, take a look at their values. -/
theorem sub_cases {u v : UnpackedFloat} (hu : Held u) (hv : Held v) :
    Alike u v ∧ (UnpackedFloat.sub .binary32 u v = .notANumber
        ∨ ∃ s, UnpackedFloat.sub .binary32 u v = .zero s)
      ∨ ¬Alike u v ∧ ∃ s, Sized s (UnpackedFloat.sub .binary32 u v) := by
  rw [alike_iff]
  cases u with
  | notANumber => exact .inl ⟨.inl rfl, .inl rfl⟩
  | infinity s =>
    cases v with
    | notANumber => exact .inl ⟨.inr (.inl rfl), .inl rfl⟩
    | infinity t =>
      cases s <;> cases t
      · exact .inl ⟨by simp, .inl rfl⟩
      · exact .inr ⟨by simp, _, rfl⟩
      · exact .inr ⟨by simp, _, rfl⟩
      · exact .inl ⟨by simp, .inl rfl⟩
    | zero => exact .inr ⟨by simp, _, rfl⟩
    | finite => exact .inr ⟨by simp, _, rfl⟩
  | zero s =>
    cases v with
    | notANumber => exact .inl ⟨.inr (.inl rfl), .inl rfl⟩
    | infinity => exact .inr ⟨by simp, _, rfl⟩
    | zero t => exact .inl ⟨by simp, .inr (by cases s <;> cases t <;> exact ⟨_, rfl⟩)⟩
    | finite _ _ _ hn => exact .inr ⟨by simp, _, Canonical.sized hv hn _⟩
  | finite s m e hm =>
    cases v with
    | notANumber => exact .inl ⟨.inr (.inl rfl), .inl rfl⟩
    | infinity => exact .inr ⟨by simp, _, rfl⟩
    | zero => exact .inr ⟨by simp, _, Canonical.sized hu hm _⟩
    | finite t n f hn =>
      rcases sub_finite_cases hu hv with ⟨hsame, hzero⟩ | ⟨hother, hsized⟩
      · exact .inl ⟨.inr (.inr (.inl hsame)), .inr ⟨_, hzero⟩⟩
      · exact .inr ⟨by simpa using hother, hsized⟩

end Subtracting

section Order

theorem zero_lt_iff_sized (x : Float32) : 0 < x ↔ Sized .positive x.toModel.unpack := by
  have hlt : 0 < x ↔ (UnpackedFloat.zero .positive).lt x.toModel.unpack = true :=
    decide_eq_true_iff
  have hheld : Held x.toModel.unpack := held_unpack _
  rw [hlt]
  generalize x.toModel.unpack = u at hheld ⊢
  cases u with
  | notANumber => exact iff_of_false Bool.false_ne_true id
  | zero => exact iff_of_false Bool.false_ne_true id
  | infinity s =>
    cases s with
    | positive => exact iff_of_true rfl rfl
    | negative => exact iff_of_false Bool.false_ne_true (by simp [Sized])
  | finite s m e hm =>
    cases s with
    | positive => exact iff_of_true rfl (Canonical.sized hheld hm _)
    | negative => exact iff_of_false Bool.false_ne_true (by simp [Sized])

theorem Sized.positive_cases {u : UnpackedFloat} (h : Sized .positive u) :
    u = .infinity .positive ∨ ∃ m e hm, u = .finite .positive m e hm := by
  cases u with
  | notANumber => exact h.elim
  | zero => exact h.elim
  | infinity s => exact .inl (congrArg _ h)
  | finite s m e hm => exact .inr ⟨m, e, hm, by rw [h.1]⟩

theorem zero_lt_of_lt {x y : Float32} (hx : 0 < x) (hlt : x < y) : 0 < y := by
  have hlt : x.toModel.unpack.lt y.toModel.unpack = true := of_decide_eq_true hlt
  have hheld : Held y.toModel.unpack := held_unpack _
  rw [zero_lt_iff_sized] at hx ⊢
  generalize x.toModel.unpack = u at hx hlt
  generalize y.toModel.unpack = v at hheld hlt ⊢
  rcases hx.positive_cases with rfl | ⟨m, e, hm, rfl⟩
  · cases v with
    | infinity t => cases t <;> exact absurd hlt Bool.false_ne_true
    | _ => exact absurd hlt Bool.false_ne_true
  · cases v with
    | notANumber => exact absurd hlt Bool.false_ne_true
    | zero => exact absurd hlt Bool.false_ne_true
    | infinity t =>
      cases t with
      | positive => rfl
      | negative => exact absurd hlt Bool.false_ne_true
    | finite t n f hn =>
      cases t with
      | positive => exact Canonical.sized hheld hn _
      | negative => exact absurd hlt Bool.false_ne_true

theorem beq_zero_of_zero_lt {x : Float32} (hx : 0 < x) : (x == 0) = false := by
  rw [zero_lt_iff_sized] at hx
  show x.toModel.unpack.beq (.zero .positive) = false
  rcases hx.positive_cases with hread | ⟨m, e, hm, hread⟩ <;> rw [hread] <;> rfl

theorem zero_lt_abs_of_sized {x : Float32} {s : Sign} (h : Sized s x.toModel.unpack) :
    0 < x.abs := by
  rw [zero_lt_iff_sized]
  show Sized .positive
    (UnpackedFloat.unpack .binary32 (UnpackedFloat.pack .binary32 x.toModel.unpack.abs))
  apply Sized.unpack_pack
  generalize x.toModel.unpack = u at h
  cases u with
  | infinity => rfl
  | finite => exact ⟨rfl, h.2⟩
  | notANumber | zero => exact h.elim

end Order

/-- Two singles have a distance above zero just if they are not equal and both are numbers. -/
theorem zero_lt_abs_sub_iff (x y : Float32) :
    0 < (x - y).abs ↔ ¬(x == y ∨ x.isNaN ∨ y.isNaN) := by
  show 0 < (x - y).abs ↔ ¬Alike x.toModel.unpack y.toModel.unpack
  have hsub : x - y = .ofModel (.pack (.sub .binary32 x.toModel.unpack y.toModel.unpack)) := rfl
  rcases sub_cases (held_unpack x.toModel.toBits.toBitVec) (held_unpack y.toModel.toBits.toBitVec)
    with ⟨halike, hnone | ⟨s, hzero⟩⟩ | ⟨hother, s, hsized⟩
  · apply iff_of_false _ (not_not.mpr halike)
    have hdifference : x - y = .ofModel (.pack .notANumber) :=
      hsub.trans (congrArg (fun u => Float32.ofModel (.pack u)) hnone)
    rw [hdifference]
    decide
  · apply iff_of_false _ (not_not.mpr halike)
    have hdifference : x - y = .ofModel (.pack (.zero s)) :=
      hsub.trans (congrArg (fun u => Float32.ofModel (.pack u)) hzero)
    rw [hdifference]
    cases s <;> decide
  · exact iff_of_true (zero_lt_abs_of_sized hsized.unpack_pack) hother

end TailFlow.Binary32
