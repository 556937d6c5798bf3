import FailureProbability.Binary64
import Mathlib

/-!
# Words of doubles

A double is stored as a word of 64 bits: a sign, eleven binary digits of the exponent and 52 of the
significand. The word tells the double (`ofBits_toBits`), as there is one word only for what is not
a number. In front of a finite double the exponent and the significand add up, so that the word is
linear in both, for normal numbers and subnormal ones alike (`ofFloat?_eq_some`).

This is the one place that opens the model of doubles in the logic, which packs a sign, an exponent
and a significand into a word and unpacks them again. All other modules speak of stored parts
(`Parts.IsStored`) and their words. Arithmetic on doubles is not looked at.
-/

namespace FailureProbability.Binary64

open Float.Model (Format UnpackedFloat)
open Float.Model.UnpackedFloat (Sign pack packComponents packedInfinity packedNaN unpackExponent
  unpackMantissa unpackSign)

/-! ## Fields of a word

The fields are ranges of the digits of a word, and a word is put together from them end to end. As
numbers they are quotients and remainders by powers of two, and with these the rest of the module
calculates. -/

section

variable (b : BitVec Format.binary64.numBits)

theorem toNat_unpackMantissa : (unpackMantissa b).toNat = b.toNat % 2 ^ 52 := by
  unfold unpackMantissa
  rw [BitVec.toNat_cast, BitVec.extractLsb_toNat]
  rfl

theorem toNat_unpackExponent : (unpackExponent b).toNat = b.toNat / 2 ^ 52 % 2 ^ 11 := by
  unfold unpackExponent
  rw [BitVec.toNat_cast, BitVec.extractLsb_toNat, Nat.shiftRight_eq_div_pow]
  rfl

theorem toNat_unpackSign : (unpackSign b).toNat = b.toNat / 2 ^ 63 := by
  unfold unpackSign
  rw [BitVec.toNat_cast, BitVec.extractLsb_toNat, Nat.shiftRight_eq_div_pow]
  have hb : b.toNat < 2 ^ 64 := b.isLt
  show b.toNat / 2 ^ 63 % 2 = b.toNat / 2 ^ 63
  omega

theorem toNat_packComponents (s : Sign) (e : BitVec 11) (m : BitVec 52) :
    (packComponents Format.binary64 s e m).toNat =
      s.toBitVec.toNat * 2 ^ 63 + e.toNat * 2 ^ 52 + m.toNat := by
  unfold packComponents
  rw [BitVec.toNat_append, BitVec.toNat_append, ← Nat.shiftLeft_add_eq_or_of_lt m.isLt,
    ← Nat.shiftLeft_add_eq_or_of_lt e.isLt, Nat.shiftLeft_eq, Nat.shiftLeft_eq]
  omega

theorem toBitVec_ofBitVec (s : BitVec 1) : (Sign.ofBitVec s).toBitVec = s := by
  revert s
  decide

/-- The fields of a word make it up. -/
theorem packComponents_unpack :
    packComponents Format.binary64 (Sign.ofBitVec (unpackSign b)) (unpackExponent b)
      (unpackMantissa b) = b := by
  apply BitVec.eq_of_toNat_eq
  rw [toNat_packComponents, toBitVec_ofBitVec, toNat_unpackMantissa, toNat_unpackExponent,
    toNat_unpackSign]
  omega

end

/-! ## Words and doubles

The model of doubles in the logic packs its parts by cases, for normal and for subnormal numbers.
Each case is opened once, here, and both give one formula for the word. -/

section

variable {s : Sign} {e : BitVec 11} {m : BitVec 52}

theorem toNat_add_one_lt (htop : e ≠ -1#11) : e.toNat + 1 < 2 ^ 11 := by
  have hne : e.toNat ≠ (-1#11).toNat := fun h => htop (BitVec.eq_of_toNat_eq h)
  have htoNat : (-1#11).toNat = 2 ^ 11 - 1 := by decide
  have he := e.isLt
  omega

/-- The significand of a subnormal number is stored as it is. -/
theorem pack_subnormal (hpos : 0 < m.toNat) :
    pack Format.binary64 (.finite s m.toNat (-1074) hpos) =
      packComponents Format.binary64 s 0#11 m := by
  have hlog : m.toNat.log2 < 52 := (Nat.log2_lt hpos.ne').mpr m.isLt
  have hmantissa : ¬m.toNat.log2 + 1 = Format.binary64.mantissaBits := by
    show ¬m.toNat.log2 + 1 = 1 + 52
    omega
  unfold pack
  dsimp only
  rw [if_neg (by decide), if_neg hmantissa, BitVec.ofNat_toNat, BitVec.setWidth_eq]

/-- Of the significand of a normal number the first digit is not stored. -/
theorem pack_normal (htop : e ≠ -1#11) (hpos : 0 < (1#1 ++ m).toNat) :
    pack Format.binary64 (.finite s (1#1 ++ m).toNat (e.toNat - (1023 + 52)) hpos) =
      packComponents Format.binary64 s e m := by
  have hm : m.toNat < 2 ^ 52 := m.isLt
  have hsignificand : (1#1 ++ m).toNat = 2 ^ 52 + m.toNat := by
    rw [BitVec.toNat_append, ← Nat.shiftLeft_add_eq_or_of_lt hm]
    rfl
  have hlog : (1#1 ++ m).toNat.log2 = 52 := by
    rw [hsignificand, Nat.log2_eq_iff (by omega)]
    omega
  have hexponent : ((e.toNat : ℤ) - (1023 + 52) + Format.binary64.exponentBias +
      Format.binary64.mantissaBitsWithoutImplicit).toNat = e.toNat := by
    show ((e.toNat : ℤ) - (1023 + 52) + 1023 + 52).toNat = e.toNat
    omega
  have hstored : BitVec.ofNat 52 (2 ^ 52 + m.toNat) = m := by
    apply BitVec.eq_of_toNat_eq
    rw [BitVec.toNat_ofNat, Nat.add_mod_left, Nat.mod_eq_of_lt hm]
  have hfits := toNat_add_one_lt htop
  unfold pack
  dsimp only
  rw [hexponent, if_neg (by omega), if_pos (by rw [hlog]; rfl), BitVec.ofNat_toNat,
    BitVec.setWidth_eq, hsignificand]
  exact congrArg _ hstored

end

/-- Taking a word apart and packing its parts gives the word back, but for what is not a number. -/
theorem pack_unpack {b : BitVec Format.binary64.numBits} (h : Format.binary64.Valid b) :
    pack Format.binary64 (UnpackedFloat.unpack Format.binary64 b) = b := by
  have hsplit := packComponents_unpack b
  unfold UnpackedFloat.unpack
  dsimp only
  -- By the field of the exponent: what is not finite, what is zero or subnormal, and all others.
  split
  case isTrue htop =>
    split
    case isTrue hzero =>
      rw [htop, hzero] at hsplit
      exact hsplit
    case isFalse hzero => exact (h.eq_packedNaN htop hzero).symm
  case isFalse htop =>
    split
    case isTrue hlow =>
      split
      case isTrue hzero =>
        rw [hlow, hzero] at hsplit
        exact hsplit
      case isFalse hzero =>
        have hpos : 0 < (unpackMantissa b).toNat :=
          Nat.pos_of_ne_zero fun h => hzero (BitVec.eq_of_toNat_eq h)
        have hpacked := pack_subnormal (s := Sign.ofBitVec (unpackSign b)) hpos
        rw [hlow] at hsplit ⊢
        exact hpacked.trans hsplit
    case isFalse hlow => exact (pack_normal htop _).trans hsplit

/-- A double is known by its word. -/
theorem ofBits_toBits (x : Float) : Float.ofBits x.toBits = x := by
  obtain ⟨bits, hvalid⟩ := x
  show Float.ofModel ⟨_, _⟩ = _
  congr 2
  exact congrArg UInt64.ofBitVec (pack_unpack hvalid)

/-! ## Parts of a double -/

/-- Parts as they are stored: at most 53 digits, and fewer only over the least exponent. -/
structure Parts.IsStored (p : Parts) : Prop where
  significand_lt : p.significand < 2 ^ 53
  minExponent_le : minExponent ≤ p.exponent
  exponent_le : p.exponent ≤ 971
  normal : minExponent < p.exponent → 2 ^ 52 ≤ p.significand

/-- The word of stored parts, but for the sign. -/
def Parts.storedWord (p : Parts) : ℕ := (p.exponent - minExponent).toNat * 2 ^ 52 + p.significand

variable {x : Float} {p : Parts}

/-- The parts of a finite double are stored parts, and its word is theirs with the sign in front. -/
theorem ofFloat?_eq_some (h : Parts.ofFloat? x = some p) :
    p.IsStored ∧ ofWord p.negative p.storedWord = x := by
  have hbits : x.toBits.toNat < 2 ^ 64 := x.toBits.toNat_lt
  have hword : UInt64.ofNat x.toBits.toNat = x.toBits := UInt64.ofNat_toNat
  unfold Parts.ofFloat? at h
  simp only [Nat.pow_eq] at h
  have hstored (w : ℕ) (hw : w < 2 ^ 63) (hsplit : w = x.toBits.toNat % 2 ^ 63) :
      ofWord (decide (2 ^ 63 ≤ x.toBits.toNat)) w = x := by
    unfold ofWord
    rw [Nat.pow_eq]
    by_cases hsign : 2 ^ 63 ≤ x.toBits.toNat
    · rw [if_pos (decide_eq_true hsign), show 2 ^ 63 + w = x.toBits.toNat by omega, hword,
        ofBits_toBits]
    · rw [if_neg (mt of_decide_eq_true hsign), show w = x.toBits.toNat by omega, hword, ofBits_toBits]
  -- A subnormal number and a normal one; of both the word is read off the fields again.
  split at h
  · cases h
  · split at h
    · cases h
      refine ⟨⟨?_, ?_, ?_, ?_⟩, hstored _ ?_ ?_⟩ <;>
        simp only [Parts.storedWord, minExponent] <;> omega
    · cases h
      refine ⟨⟨?_, ?_, ?_, ?_⟩, hstored _ ?_ ?_⟩ <;>
        simp only [Parts.storedWord, minExponent] <;> omega

theorem ofFloat?_eq_none_iff :
    Parts.ofFloat? x = none ↔ x.toBits.toNat / 2 ^ 52 % 2 ^ 11 = 2047 := by
  unfold Parts.ofFloat?
  simp only [Nat.pow_eq]
  split
  case isTrue htop => exact iff_of_true rfl htop
  case isFalse htop =>
    refine iff_of_false (fun h => ?_) htop
    split at h <;> cases h

/-- The doubles that are not finite have one word each. -/
theorem eq_of_ofFloat?_eq_none (h : Parts.ofFloat? x = none) : x = 0 / 0 ∨ x = 1 / 0 ∨ x = -1 / 0 := by
  have hfield := ofFloat?_eq_none_iff.mp h
  have hbits : x.toBits.toNat < 2 ^ 64 := x.toBits.toNat_lt
  have hdouble (word : UInt64) (hword : x.toBits.toNat = word.toNat) : x = Float.ofBits word := by
    rw [← ofBits_toBits x, UInt64.toNat_inj.mp hword]
  by_cases hfraction : x.toBits.toNat % 2 ^ 52 = 0
  · by_cases hsign : x.toBits.toNat / 2 ^ 63 = 0
    · refine .inr (.inl ((hdouble 0x7FF0000000000000 ?_).trans (by decide)))
      show x.toBits.toNat = 0x7FF0000000000000
      omega
    · refine .inr (.inr ((hdouble 0xFFF0000000000000 ?_).trans (by decide)))
      show x.toBits.toNat = 0xFFF0000000000000
      omega
  · refine .inl ((hdouble 0x7FF8000000000000 ?_).trans (by decide))
    have hcanonical := x.toModel.valid.eq_packedNaN
      (BitVec.eq_of_toNat_eq ((toNat_unpackExponent _).trans hfield))
      fun hzero => hfraction ((toNat_unpackMantissa _).symm.trans (congrArg BitVec.toNat hzero))
    exact (congrArg BitVec.toNat hcanonical).trans (by decide)

end FailureProbability.Binary64
