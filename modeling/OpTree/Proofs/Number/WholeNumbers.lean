import Mathlib
import OpTree.Number.Exact

/-!
# Whole numbers are doubles

A double consists of a sign, an exponent and a mantissa, and these determine it: reading a double
exactly and packing the exact value gives the double back (`ofModel_pack_unpack`). The exact values
are in canonical form, the leading bit of the mantissa at a fixed place unless the exponent is the
least one. An integer of at most 53 bits needs no rounding to get there, so that it is converted to
the double that it stands for.

Main statement: `ofInt_of_toSafeInt?`.
-/

namespace OpTree.Number

open Float.Model (Format UnpackedFloat totalExponent)
open Float.Model.UnpackedFloat

/-! ### Leading bits -/

private theorem log2_eq_of_lt {m k : Nat} (hl : 2 ^ k ≤ m) (hu : m < 2 ^ (k + 1)) :
    m.log2 = k := by
  have hne : m ≠ 0 := by
    have := Nat.two_pow_pos k
    omega
  exact (Nat.log2_eq_iff hne).2 ⟨hl, hu⟩

private theorem log2_mul_two_pow {q k : Nat} (hq : 0 < q) : (q * 2 ^ k).log2 = q.log2 + k := by
  have hl := Nat.log2_self_le (Nat.ne_of_gt hq)
  have hu := Nat.lt_log2_self (n := q)
  apply log2_eq_of_lt
  · rw [Nat.pow_add]
    exact Nat.mul_le_mul_right _ hl
  · rw [Nat.add_right_comm, Nat.pow_add]
    exact Nat.mul_lt_mul_of_pos_right hu (Nat.two_pow_pos k)

private theorem toNat_one_append (v : BitVec 52) : (1#1 ++ v).toNat = 2 ^ 52 + v.toNat := by
  have hone : (1#1).toNat * 2 ^ 52 = 2 ^ 52 * 1 := rfl
  rw [BitVec.toNat_append, Nat.shiftLeft_eq, hone, ← Nat.two_pow_add_eq_or_of_lt v.isLt,
    Nat.mul_one]

/-! ### Bits -/

private theorem toBitVec_ofBitVec (v : BitVec 1) : (Sign.ofBitVec v).toBitVec = v := by
  rcases BitVec.eq_zero_or_eq_one v with rfl | rfl <;> rfl

/-- A double is its three fields. -/
theorem packComponents_unpack (b : BitVec Format.binary64.numBits) :
    packComponents .binary64 (Sign.ofBitVec (unpackSign b)) (unpackExponent b)
      (unpackMantissa b) = b := by
  rw [packComponents, toBitVec_ofBitVec]
  refine BitVec.eq_of_getLsbD_eq fun i hi => ?_
  have hi' : i < 64 := hi
  rw [BitVec.getLsbD_append, BitVec.getLsbD_append]
  simp only [unpackSign, unpackExponent, unpackMantissa, BitVec.getLsbD_cast,
    BitVec.getLsbD_extractLsb]
  grind

variable {b : BitVec Format.binary64.numBits} {s : Sign} {m : Nat} {e : Int} {hm : 0 < m}

/-- Packing leaves out the leading bit of a normal double. -/
private theorem pack_normal {v : BitVec 11} {w : BitVec 52} (hv : v.toNat < 2047)
    (he : e = v.toNat - 1075) (hmw : m = 2 ^ 52 + w.toNat) :
    UnpackedFloat.pack .binary64 (.finite s m e hm) = packComponents .binary64 s v w := by
  have hw := w.isLt
  have hexp : (e + Format.binary64.exponentBias
      + Format.binary64.mantissaBitsWithoutImplicit).toNat = v.toNat := by
    change (e + 1023 + 52).toNat = v.toNat
    omega
  have hrange : ¬ 2 ^ Format.binary64.exponentBits ≤ v.toNat + 1 := by
    change ¬ 2 ^ 11 ≤ v.toNat + 1
    omega
  have hlead : m.log2 + 1 = Format.binary64.mantissaBits := by
    rw [log2_eq_of_lt (k := 52) (by omega) (by omega)]
    rfl
  have hbits : BitVec.ofNat 52 m = w := by
    apply BitVec.eq_of_toNat_eq
    rw [BitVec.toNat_ofNat]
    omega
  rw [UnpackedFloat.pack, hexp, if_neg hrange, if_pos hlead]
  rw [BitVec.ofNat_toNat, BitVec.setWidth_eq, hbits]

/-- Below the least normal double the exponent field is zero. -/
private theorem pack_subnormal {w : BitVec 52} {hw : 0 < w.toNat} (he : e = -1074) :
    UnpackedFloat.pack .binary64 (.finite s w.toNat e hw) = packComponents .binary64 s 0 w := by
  have hexp : (e + Format.binary64.exponentBias
      + Format.binary64.mantissaBitsWithoutImplicit).toNat = 1 := by
    change (e + 1023 + 52).toNat = 1
    omega
  have hlead : ¬ w.toNat.log2 + 1 = Format.binary64.mantissaBits := by
    have hlt := (Nat.log2_lt (by omega)).2 w.isLt
    change ¬ w.toNat.log2 + 1 = 53
    omega
  rw [UnpackedFloat.pack, hexp, if_neg (by decide), if_neg hlead]
  rw [BitVec.ofNat_toNat, BitVec.setWidth_eq]
  rfl

/-- Packing undoes unpacking. The bits have to be valid, because all that are not a number are one
double. -/
theorem pack_unpack (hb : Format.binary64.Valid b) :
    UnpackedFloat.pack .binary64 (UnpackedFloat.unpack .binary64 b) = b := by
  have hbits := packComponents_unpack b
  rw [UnpackedFloat.unpack]
  by_cases htop : unpackExponent b = -1#_
  · rw [if_pos htop]
    by_cases hzero : unpackMantissa b = 0#_
    · rw [if_pos hzero, UnpackedFloat.pack, packedInfinity, ← htop]
      rw [hzero] at hbits
      exact hbits
    · rw [if_neg hzero, UnpackedFloat.pack, hb.eq_packedNaN htop hzero]
  · rw [if_neg htop]
    by_cases hlow : unpackExponent b = 0#_
    · rw [if_pos hlow]
      by_cases hzero : unpackMantissa b = 0#_
      · rw [dif_pos hzero, UnpackedFloat.pack, packedZero]
        rw [hlow, hzero] at hbits
        exact hbits
      · rw [dif_neg hzero, hlow, pack_subnormal (by rfl)]
        rw [hlow] at hbits
        exact hbits
    · have hlt : (unpackExponent b).toNat < 2 ^ 11 := (unpackExponent b).isLt
      have hne : (unpackExponent b).toNat ≠ 2 ^ 11 - 1 := by
        simpa [← BitVec.toNat_inj] using htop
      rw [if_neg hlow]
      exact (pack_normal (v := unpackExponent b) (by omega) rfl (toNat_one_append _)).trans hbits

/-- A double is determined by its exact value. -/
theorem ofModel_pack_unpack (x : Float) : Float.ofModel (.pack (unpack x)) = x := by
  cases x with
  | ofModel model =>
    cases model with
    | mk bits hbits =>
      have h := pack_unpack hbits
      simp only [unpack, Float.Model.unpack, Float.Model.pack, h, UInt64.ofBitVec_toBitVec]

/-- Exact values are canonical. -/
theorem mantissa_of_unpack (h : UnpackedFloat.unpack .binary64 b = .finite s m e hm) :
    (2 ^ 52 ≤ m ∧ m < 2 ^ 53) ∨ (m < 2 ^ 52 ∧ e = -1074) := by
  rw [UnpackedFloat.unpack] at h
  split at h
  · split at h <;> cases h
  · split at h
    · rename_i hlow
      split at h
      · cases h
      · rw [hlow] at h
        cases h
        exact .inr ⟨BitVec.isLt _, rfl⟩
    · cases h
      have hlt : (unpackMantissa b).toNat < 2 ^ 52 := BitVec.isLt _
      have hlead := toNat_one_append (unpackMantissa b)
      exact .inl (by omega)

/-! ### Rounding what needs no rounding -/

private theorem targetExponent_eq {k : Int} (hm : m.log2 + e = k + 52) (hk : -1074 ≤ k) :
    Format.binary64.targetExponent (totalExponent m e) = k := by
  change max ((m.log2 + 1 + e : Int) - 53) (-1074) = k
  omega

private theorem roundWithAccuracy_canonical (hl : 2 ^ 52 ≤ m) (hu : m < 2 ^ 53)
    (he : -1074 ≤ e) :
    roundWithAccuracy .binary64 s m e .exact = .finite s m e hm := by
  have htarget : Format.binary64.targetExponent (totalExponent m e) = e := by
    have hlog := log2_eq_of_lt hl hu
    exact targetExponent_eq (by omega) he
  -- neither the first shift nor the one after rounding moves anything
  have hshift : shiftToTargetExponent .binary64 m e .exact = (⟨m, false, false⟩, e) := by
    simp only [shiftToTargetExponent, shiftToExponent, htarget, Int.sub_self, Int.toNat_zero,
      Int.natCast_zero, Int.add_zero, ExtendedMantissa.ofMantissaAndAccuracy]
    rfl
  have hround : (⟨m, false, false⟩ : ExtendedMantissa).roundedMantissa = m := rfl
  simp only [roundWithAccuracy, hshift, hround]
  exact dif_neg (by omega)

/-- A number of at most 53 bits rounds to its canonical form. -/
private theorem round_eq_finite {q k : Nat} (hmul : m = q * 2 ^ k) (hl : 2 ^ 52 ≤ m)
    (hu : m < 2 ^ 53) :
    UnpackedFloat.round .binary64 s q 0 = .finite s m (-k) hm := by
  have hq : 0 < q := by
    rcases Nat.eq_zero_or_pos q with rfl | hq
    · omega
    · exact hq
  have hlog := log2_mul_two_pow (k := k) hq
  rw [← hmul, log2_eq_of_lt hl hu] at hlog
  have htarget : Format.binary64.targetExponent (totalExponent q 0) = -k :=
    targetExponent_eq (by omega) (by omega)
  have hdecrease : decreaseExponent q 0 (-k) = (m, (-k : Int)) := by
    simp [decreaseExponent, Nat.shiftLeft_eq, hmul]
  simp only [UnpackedFloat.round, htarget, hdecrease]
  exact roundWithAccuracy_canonical hl hu (by omega)

/-! ### Whole numbers -/

private theorem natAbs_apply (s : Sign) (q : Nat) : (s.apply q).natAbs = q := by
  cases s <;> simp [Sign.apply]

private theorem ofInt_apply (s : Sign) {q : Nat} (hq : 0 < q) :
    UnpackedFloat.ofInt .binary64 (s.apply q) = .round .binary64 s q 0 := by
  cases s with
  | negative =>
    have hneg : compare (-q : Int) 0 = .lt := by
      rw [Int.compare_eq_lt]
      omega
    simp [UnpackedFloat.ofInt, UnpackedFloat.normalize, Sign.apply, hneg]
  | positive =>
    have hpos : compare (q : Int) 0 = .gt := by
      rw [Int.compare_eq_gt]
      omega
    simp [UnpackedFloat.ofInt, UnpackedFloat.normalize, Sign.apply, hpos]

variable {x : Float} {n : Int}

/-- A whole number of at most 53 bits is a mantissa without some of its trailing zeros. -/
private theorem mantissa_of_toInt? (h : toInt? x = some n) (hn : n.natAbs < 2 ^ 53)
    (hx : unpack x = .finite s m e hm) :
    ∃ q k : Nat, n = s.apply q ∧ e = -k ∧ m = q * 2 ^ k ∧ 2 ^ 52 ≤ m ∧ m < 2 ^ 53 := by
  have hcanonical := mantissa_of_unpack hx
  rw [toInt?, hx] at h
  dsimp only at h
  split at h
  · rename_i he
    obtain ⟨hl, hu⟩ : 2 ^ 52 ≤ m ∧ m < 2 ^ 53 := by omega
    cases h
    rw [natAbs_apply] at hn
    have hzero : e.toNat = 0 := by
      rcases Nat.eq_zero_or_pos e.toNat with hzero | hpos
      · exact hzero
      · have hpow : 2 ^ 1 ≤ Nat.pow 2 e.toNat := Nat.pow_le_pow_right (by omega) hpos
        have hmul := Nat.mul_le_mul hl hpow
        omega
    refine ⟨m, 0, ?_, by omega, by simp, hl, hu⟩
    rw [hzero]
    simp
  · rename_i he
    split at h
    · rename_i hmod
      have hdvd := Nat.dvd_of_mod_eq_zero hmod
      obtain ⟨hl, hu⟩ : 2 ^ 52 ≤ m ∧ m < 2 ^ 53 := by
        rcases hcanonical with hlead | ⟨hlt, hmin⟩
        · exact hlead
        · -- the least exponent leaves no room for a mantissa this small
          have hpow : 2 ^ 52 ≤ Nat.pow 2 (-e).toNat :=
            Nat.pow_le_pow_right (by omega) (by omega)
          exact absurd (Nat.le_trans hpow (Nat.le_of_dvd hm hdvd)) (Nat.not_le.2 hlt)
      cases h
      exact ⟨_, _, rfl, by omega, (Nat.div_mul_cancel hdvd).symm, hl, hu⟩
    · cases h

private theorem ofInt_eq_of_mantissa {q k : Nat} (hx : unpack x = .finite s m (-k) hm)
    (hmul : m = q * 2 ^ k) (hl : 2 ^ 52 ≤ m) (hu : m < 2 ^ 53) : ofInt (s.apply q) = x := by
  have hq : 0 < q := by
    rcases Nat.eq_zero_or_pos q with rfl | hq
    · omega
    · exact hq
  have hround : UnpackedFloat.round .binary64 s q 0 = .finite s m (-k) hm :=
    round_eq_finite hmul hl hu
  rw [ofInt, Float.Model.ofInt, ofInt_apply s hq, hround, ← hx, ofModel_pack_unpack]

/-- Writing a double as a whole number loses nothing. -/
theorem ofInt_of_toSafeInt? (h : toSafeInt? x = some n) : ofInt n = x := by
  obtain ⟨hn, hsafe⟩ := Option.filter_eq_some_iff.1 h
  simp only [Bool.and_eq_true, decide_eq_true_eq, Bool.not_eq_true'] at hsafe
  obtain ⟨hle, hzero⟩ := hsafe
  have hlt : n.natAbs < 2 ^ 53 := by
    have : maxSafeInt = 2 ^ 53 - 1 := rfl
    omega
  cases hx : unpack x with
  | zero s =>
    rw [toInt?, hx] at hn
    cases hn
    cases s with
    | negative => simp [isNegativeZero, hx] at hzero
    | positive =>
      rw [← ofModel_pack_unpack x, hx]
      rfl
  | finite s m e hm =>
    obtain ⟨q, k, rfl, rfl, hmul, hl, hu⟩ := mantissa_of_toInt? hn hlt hx
    exact ofInt_eq_of_mantissa hx hmul hl hu
  | infinity s => simp [toInt?, hx] at hn
  | notANumber => simp [toInt?, hx] at hn

/-- A double that equals an integer is finite. -/
theorem isFinite_of_toInt? (h : toInt? x = some n) : x.isFinite := by
  change (unpack x).isFinite
  rw [toInt?] at h
  split at h
  · rename_i hx
    rw [hx]
    rfl
  · rename_i hx
    rw [hx]
    rfl
  · cases h

end OpTree.Number
