import Mathlib
import MathScript.Binary64

/-!
Whole numbers as doubles keep their order. A whole number is read by rounding it to 53 bits, half to
even; what is rounded up to one bit more is carried. A double above zero is told by its rank, the
exponent in front of the significand; a carry keeps the rank, and more is never rounded to less.
-/

namespace MathScript.Magnitude

open Float.Model Float.Model.UnpackedFloat

/-! ### Rounding -/

/-- What a mantissa and its residual bits weigh; half a unit weighs two, any rest one. -/
def weight (a : ExtendedMantissa) : Nat :=
  4 * a.mantissa + 2 * a.roundBit.toNat + a.stickyBit.toNat

variable {a b : ExtendedMantissa}

theorem weight_shiftRightOne (less : weight a ≤ weight b) :
    weight a.shiftRightOne ≤ weight b.shiftRightOne := by
  obtain ⟨m, round, sticky⟩ := a
  obtain ⟨n, round', sticky'⟩ := b
  simp only [weight, ExtendedMantissa.shiftRightOne] at less ⊢
  have bit : ∀ m : Nat, (m % 2 != 0).toNat = m % 2 := fun m => by
    rcases Nat.mod_two_eq_zero_or_one m with even | odd
    · simp [even]
    · simp [odd]
  rw [bit, bit]
  cases round <;> cases sticky <;> cases round' <;> cases sticky' <;>
    simp only [Bool.toNat_true, Bool.toNat_false, Bool.or_true, Bool.or_false] at less ⊢ <;>
    omega

theorem weight_shift (less : weight a ≤ weight b) (k : Nat) : weight (a >>> k) ≤ weight (b >>> k) := by
  induction k with
  | zero => exact less
  | succ k ih => exact weight_shiftRightOne ih

theorem mantissa_shift (k : Nat) : (a >>> k).mantissa = a.mantissa / 2 ^ k := by
  induction k with
  | zero => exact (Nat.div_one _).symm
  | succ k ih =>
      have step : (a >>> (k + 1)).mantissa = (a >>> k).mantissa / 2 := rfl
      rw [step, ih, Nat.div_div_eq_div_mul, Nat.pow_succ]

theorem roundedMantissa_bounds :
    a.mantissa ≤ a.roundedMantissa ∧ a.roundedMantissa ≤ a.mantissa + 1 := by
  obtain ⟨m, round, sticky⟩ := a
  cases round <;> cases sticky <;>
    simp only [ExtendedMantissa.roundedMantissa, ExtendedMantissa.accuracy,
      Accuracy.roundToNearestEven] <;>
    omega

/-- More is not rounded to less. -/
theorem roundedMantissa_mono (less : weight a ≤ weight b) :
    a.roundedMantissa ≤ b.roundedMantissa := by
  by_cases more : a.mantissa < b.mantissa
  · exact Nat.le_trans roundedMantissa_bounds.2 (Nat.le_trans more roundedMantissa_bounds.1)
  · obtain ⟨m, round, sticky⟩ := a
    obtain ⟨n, round', sticky'⟩ := b
    simp only [weight] at less more
    cases round <;> cases sticky <;> cases round' <;> cases sticky' <;>
      simp only [Bool.toNat_true, Bool.toNat_false, ExtendedMantissa.roundedMantissa,
        ExtendedMantissa.accuracy, Accuracy.roundToNearestEven] at less more ⊢ <;>
      omega

/-- A whole number without its last `k` bits, rounded. -/
def rounded (m k : Nat) : Nat :=
  ((⟨m, false, false⟩ : ExtendedMantissa) >>> k).roundedMantissa

theorem rounded_mono {m n : Nat} (less : m ≤ n) (k : Nat) : rounded m k ≤ rounded n k :=
  roundedMantissa_mono (weight_shift (by simpa [weight] using less) k)

theorem rounded_bounds (m k : Nat) : m / 2 ^ k ≤ rounded m k ∧ rounded m k ≤ m / 2 ^ k + 1 := by
  have bounds := roundedMantissa_bounds (a := (⟨m, false, false⟩ : ExtendedMantissa) >>> k)
  rwa [mantissa_shift] at bounds

theorem shift_mul_pow (m k : Nat) :
    (⟨m * 2 ^ k, false, false⟩ : ExtendedMantissa) >>> k = ⟨m, false, false⟩ := by
  induction k generalizing m with
  | zero => simp [HShiftRight.hShiftRight, Nat.repeat]
  | succ k ih =>
      have step : (⟨m * 2 ^ (k + 1), false, false⟩ : ExtendedMantissa) >>> (k + 1) =
          ((⟨m * 2 ^ (k + 1), false, false⟩ : ExtendedMantissa) >>> k).shiftRightOne := rfl
      rw [step, Nat.pow_succ', ← Nat.mul_assoc, ih (m * 2)]
      simp [ExtendedMantissa.shiftRightOne]

theorem shift_add (a : ExtendedMantissa) (j k : Nat) : a >>> (j + k) = a >>> j >>> k := by
  induction k with
  | zero => rfl
  | succ k ih =>
      have step : ∀ (a : ExtendedMantissa) i, a >>> (i + 1) = (a >>> i).shiftRightOne :=
        fun _ _ => rfl
      rw [← Nat.add_assoc, step, step, ih]

theorem rounded_mul_pow_add (m j k : Nat) : rounded (m * 2 ^ j) (j + k) = rounded m k := by
  rw [rounded, shift_add, shift_mul_pow]
  rfl

theorem rounded_mul_pow (m k : Nat) : rounded (m * 2 ^ k) k = m := by
  rw [rounded, shift_mul_pow]
  rfl

/-! ### Ranks -/

/-- A positive double with all of its 53 bits, by its exponent in front of its significand. -/
inductive Ranked : Int → UnpackedFloat → Prop
  | finite {m : Nat} {e : Int} (positive : 0 < m) (normal : 2 ^ 52 ≤ m) (short : m < 2 ^ 53) :
      Ranked (e * 2 ^ 52 + m) (.finite .positive m e positive)

theorem targetExponent_eq {t : Int} (low : -1021 ≤ t) :
    Format.binary64.targetExponent t = t - 53 := by
  have bits : (Format.binary64.mantissaBits : Int) = 53 := rfl
  have least : Format.binary64.minExponent = -1074 := by decide
  rw [Format.targetExponent, bits, least]
  omega

theorem shiftToTargetExponent_eq {m : Nat} {e : Int} {k : Nat} (long : m.log2 = 52 + k)
    (low : -1074 ≤ e + k) : shiftToTargetExponent Format.binary64 m e .exact =
      ((⟨m, false, false⟩ : ExtendedMantissa) >>> k, e + k) := by
  have amount : (Format.binary64.targetExponent (totalExponent m e) - e).toNat = k := by
    rw [targetExponent_eq (by rw [totalExponent, long]; omega), totalExponent, long]
    omega
  rw [shiftToTargetExponent, shiftToExponent, amount]
  rfl

/-- What has 53 bits or more is rounded to 53. -/
theorem ranked_round {m : Nat} {e : Int} {k : Nat} (long : m.log2 = 52 + k) (low : -1074 ≤ e + k) :
    Ranked ((e + k) * 2 ^ 52 + rounded m k)
      (roundWithAccuracy Format.binary64 .positive m e .exact) := by
  have some : m ≠ 0 := by
    rintro rfl
    simp at long
    omega
  have least := Nat.log2_self_le some
  have most := @Nat.lt_log2_self m
  rw [long] at least most
  have normal : 2 ^ 52 ≤ m / 2 ^ k := by
    rw [Nat.le_div_iff_mul_le (Nat.two_pow_pos k), ← Nat.pow_add]
    exact least
  have short : m / 2 ^ k < 2 ^ 53 := by
    rw [Nat.div_lt_iff_lt_mul (Nat.two_pow_pos k), ← Nat.pow_add]
    exact Nat.lt_of_lt_of_eq most (by congr 1; omega)
  obtain ⟨up, down⟩ := rounded_bounds m k
  have first := shiftToTargetExponent_eq long low
  unfold roundWithAccuracy
  rw [first]
  dsimp only
  change Ranked _ (match shiftToTargetExponent _ (rounded m k) (e + k) .exact with
    | (a, e) => if h : a.mantissa = 0 then UnpackedFloat.zero .positive
        else .finite .positive a.mantissa e (Nat.pos_of_ne_zero h))
  generalize rounded m k = r at up down
  rcases Nat.lt_or_eq_of_le (Nat.le_trans down short) with below | carry
  · have log : r.log2 = 52 + 0 := by
      rw [Nat.log2_eq_iff (by omega)]
      omega
    rw [shiftToTargetExponent_eq log (by omega)]
    dsimp only
    have same : ((⟨r, false, false⟩ : ExtendedMantissa) >>> 0).mantissa = r := rfl
    rw [dif_neg (by omega), Int.natCast_zero, Int.add_zero]
    exact .finite _ (by omega) below
  · have log : r.log2 = 52 + 1 := by
      rw [carry, Nat.log2_two_pow]
    rw [shiftToTargetExponent_eq log (by omega)]
    dsimp only
    have same : ((⟨r, false, false⟩ : ExtendedMantissa) >>> 1).mantissa = 2 ^ 52 := by
      rw [carry]
      rfl
    have rank : (e + k) * 2 ^ 52 + r = (e + k + 1) * 2 ^ 52 + (2 ^ 52 : Nat) := by
      omega
    rw [dif_neg (by omega), rank]
    simp only [same]
    exact .finite _ (Nat.le_refl _) (by decide)

/-- A whole number as a double: what is zero ranks below all others, what is infinite above. -/
inductive Measured : Int → UnpackedFloat → Prop
  | zero {p : Int} (low : p ≤ -52 * 2 ^ 52) : Measured p (.zero .positive)
  | finite {m : Nat} {e : Int} (positive : 0 < m) (normal : 2 ^ 52 ≤ m) (short : m < 2 ^ 53)
      (whole : -52 ≤ e) (small : e < 972) : Measured (e * 2 ^ 52 + m) (.finite .positive m e positive)
  | infinite {p : Int} (high : 973 * 2 ^ 52 ≤ p) : Measured p (.infinity .positive)

theorem unpackSign_packComponents {format : Format} (sign : Sign)
    (e : BitVec format.exponentBits) (m : BitVec format.mantissaBitsWithoutImplicit) :
    unpackSign (packComponents format sign e m) = sign.toBitVec := by
  ext i inside
  obtain rfl : i = 0 := by omega
  simp [unpackSign, packComponents, BitVec.getLsbD_append, BitVec.getElem_append]

theorem ofBitVec_toBitVec (sign : Sign) : Sign.ofBitVec sign.toBitVec = sign := by
  cases sign <;> rfl

theorem bits_normal {m : Nat} (normal : 2 ^ 52 ≤ m) (short : m < 2 ^ 53) :
    m.log2 + 1 = Format.binary64.mantissaBits := by
  have bits : Format.binary64.mantissaBits = 53 := rfl
  have log : m.log2 = 52 := (Nat.log2_eq_iff (by omega)).mpr ⟨normal, short⟩
  rw [bits, log]

theorem biased_eq {e : Int} {biased : Nat} (same : e + 1075 = biased) :
    (e + Format.binary64.exponentBias + Format.binary64.mantissaBitsWithoutImplicit).toNat =
      biased := by
  have bias : Format.binary64.exponentBias = 1023 := by decide
  have bits : Format.binary64.mantissaBitsWithoutImplicit = 52 := rfl
  omega

/-- What has 53 bits and is whole is packed as it is. -/
theorem unpack_pack (sign : Sign) {m : Nat} {e : Int} (positive : 0 < m) (normal : 2 ^ 52 ≤ m)
    (short : m < 2 ^ 53) (whole : -52 ≤ e) (small : e < 972) :
    UnpackedFloat.unpack Format.binary64
      (UnpackedFloat.pack Format.binary64 (.finite sign m e positive)) =
        .finite sign m e positive := by
  obtain ⟨biased, same⟩ : ∃ biased : Nat, e + 1075 = biased := Int.eq_ofNat_of_zero_le (by omega)
  have exponent : (BitVec.ofNat 11 biased).toNat = biased := by
    rw [BitVec.toNat_ofNat]
    omega
  have significand : (1#1 ++ BitVec.ofNat 52 m).toNat = m := by
    rw [BitVec.toNat_append, ← Nat.shiftLeft_add_eq_or_of_lt (BitVec.isLt _), BitVec.toNat_ofNat]
    simp only [BitVec.toNat_ofNat, Nat.shiftLeft_eq]
    omega
  have finite : BitVec.ofNat 11 biased ≠ -1#11 := fun same => by
    have large := congrArg BitVec.toNat same
    rw [exponent] at large
    simp at large
    omega
  have normal' : BitVec.ofNat 11 biased ≠ 0#11 := fun same => by
    have zero := congrArg BitVec.toNat same
    rw [exponent] at zero
    simp at zero
    omega
  have bias : Format.binary64.exponentBias = 1023 := by decide
  unfold UnpackedFloat.pack
  dsimp only
  rw [biased_eq same, if_pos (bits_normal normal short), if_neg (by omega)]
  unfold UnpackedFloat.unpack
  simp only [unpackMantissa_packComponents, unpackExponent_packComponents,
    unpackSign_packComponents, ofBitVec_toBitVec]
  rw [if_neg finite, if_neg normal']
  congr 1
  rw [exponent, bias]
  omega

/-- What has 53 bits is packed as it is, unless its exponent is too large. -/
theorem measured_pack {p : Int} {u : UnpackedFloat} (ranked : Ranked p u) (whole : -51 * 2 ^ 52 ≤ p) :
    Measured p (UnpackedFloat.unpack Format.binary64 (UnpackedFloat.pack Format.binary64 u)) := by
  obtain @⟨m, e, positive, normal, short⟩ := ranked
  have whole' : -52 ≤ e := by omega
  rcases Int.lt_or_le e 972 with small | large
  · rw [unpack_pack .positive positive normal short whole' small]
    exact .finite positive normal short whole' small
  · have infinity : UnpackedFloat.unpack Format.binary64
        (packedInfinity Format.binary64 .positive) = .infinity .positive := by rfl
    obtain ⟨biased, same⟩ : ∃ biased : Nat, e + 1075 = biased :=
      Int.eq_ofNat_of_zero_le (by omega)
    unfold UnpackedFloat.pack
    dsimp only
    rw [biased_eq same, if_pos (bits_normal normal short), if_pos (by omega), infinity]
    exact .infinite (by omega)

/-! ### Whole numbers -/

/-- The rank of a whole number as a double. -/
def rank (n : Nat) : Int := ((n.log2 : Int) - 52) * 2 ^ 52 + rounded (n * 2 ^ 53) (n.log2 + 1)

theorem rank_bounds {n : Nat} (some : n ≠ 0) :
    ((n.log2 : Int) - 51) * 2 ^ 52 ≤ rank n ∧ rank n ≤ ((n.log2 : Int) - 50) * 2 ^ 52 := by
  have bounds := rounded_bounds (n * 2 ^ 53) (n.log2 + 1)
  have least : 2 ^ 52 ≤ n * 2 ^ 53 / 2 ^ (n.log2 + 1) := by
    rw [Nat.le_div_iff_mul_le (Nat.two_pow_pos _), ← Nat.pow_add]
    have := Nat.mul_le_mul_right (2 ^ 53) (Nat.log2_self_le some)
    rw [← Nat.pow_add] at this
    exact Nat.le_trans (Nat.le_of_eq (by congr 1; omega)) this
  have most : n * 2 ^ 53 / 2 ^ (n.log2 + 1) < 2 ^ 53 := by
    rw [Nat.div_lt_iff_lt_mul (Nat.two_pow_pos _), Nat.mul_comm]
    exact Nat.mul_lt_mul_of_pos_left Nat.lt_log2_self (Nat.two_pow_pos 53)
  rw [rank]
  omega

theorem rank_zero : rank 0 = -52 * 2 ^ 52 := by
  decide

theorem rank_mono {n n' : Nat} (less : n ≤ n') : rank n ≤ rank n' := by
  rcases Nat.eq_zero_or_pos n' with rfl | some'
  · rw [Nat.le_zero.mp less]
  · have above := (rank_bounds (Nat.ne_of_gt some')).1
    rcases Nat.eq_zero_or_pos n with rfl | some
    · rw [rank_zero]
      omega
    · have below := (rank_bounds (Nat.ne_of_gt some)).2
      have shorter : n.log2 ≤ n'.log2 := (Nat.le_log2 (Nat.ne_of_gt some')).mpr <|
        Nat.le_trans (Nat.log2_self_le (Nat.ne_of_gt some)) less
      rcases Nat.lt_or_eq_of_le shorter with shorter | same
      · omega
      · have more := rounded_mono (Nat.mul_le_mul_right (2 ^ 53) less) (n'.log2 + 1)
        rw [rank, rank, same]
        omega

/-- The rank of a number of at most 53 bits. -/
theorem rank_short {n : Nat} (short : n.log2 ≤ 52) :
    rank n = ((n.log2 : Int) - 52) * 2 ^ 52 + (n * 2 ^ (52 - n.log2) : Nat) := by
  have shifted : n * 2 ^ 53 = n * 2 ^ (52 - n.log2) * 2 ^ (n.log2 + 1) := by
    rw [Nat.mul_assoc, ← Nat.pow_add]
    congr 2
    omega
  rw [rank, shifted, rounded_mul_pow]

theorem log2_mul_two_pow {n : Nat} (some : n ≠ 0) (k : Nat) : (n * 2 ^ k).log2 = n.log2 + k := by
  have scaled : n * 2 ^ k ≠ 0 := Nat.mul_ne_zero some (Nat.ne_of_gt (Nat.two_pow_pos k))
  rw [Nat.log2_eq_iff scaled, Nat.pow_add, Nat.add_right_comm, Nat.pow_add]
  exact ⟨Nat.mul_le_mul_right _ (Nat.log2_self_le some),
    Nat.mul_lt_mul_of_pos_right Nat.lt_log2_self (Nat.two_pow_pos k)⟩

/-- A factor of two is a step of the exponent. -/
theorem rank_mul_pow {n : Nat} (some : n ≠ 0) (k : Nat) :
    rank (n * 2 ^ k) = rank n + k * 2 ^ 52 := by
  have shifted : n * 2 ^ k * 2 ^ 53 = n * 2 ^ 53 * 2 ^ k := Nat.mul_right_comm _ _ _
  have bits : n.log2 + k + 1 = k + (n.log2 + 1) := by omega
  rw [rank, rank, log2_mul_two_pow some, shifted, bits, rounded_mul_pow_add]
  omega

/-- Any number of bits is rounded to 53. -/
theorem ranked_of_round {n : Nat} {e : Int} (some : n ≠ 0) (low : -1022 ≤ n.log2 + e) :
    Ranked (rank n + e * 2 ^ 52) (UnpackedFloat.round Format.binary64 .positive n e) := by
  have target : Format.binary64.targetExponent (totalExponent n e) = n.log2 + e - 52 := by
    rw [targetExponent_eq (by rw [totalExponent]; omega), totalExponent]
    omega
  have log : (n * 2 ^ (52 - n.log2)).log2 = 52 + (n.log2 - 52) := by
    rw [log2_mul_two_pow some]
    omega
  have ranked := ranked_round (e := e - (52 - n.log2 : Nat)) log (by omega)
  have shift : (e - (n.log2 + e - 52)).toNat = 52 - n.log2 := by omega
  have same : rounded (n * 2 ^ 53) (n.log2 + 1) =
      rounded (n * 2 ^ (52 - n.log2)) (n.log2 - 52) := by
    have bits : n.log2 + 1 = 53 - (52 - n.log2) + (n.log2 - 52) := by omega
    have scaled : n * 2 ^ 53 = n * 2 ^ (52 - n.log2) * 2 ^ (53 - (52 - n.log2)) := by
      rw [Nat.mul_assoc, ← Nat.pow_add]
      congr 2
      omega
    rw [bits, scaled, rounded_mul_pow_add]
  rw [UnpackedFloat.round, target, UnpackedFloat.decreaseExponent, shift, Nat.shiftLeft_eq]
  dsimp only
  rw [rank, same]
  convert ranked using 1
  omega

/-- A number of at most 53 bits is scaled to 53. -/
theorem ofNat_short {n : Nat} (some : n ≠ 0) (short : n.log2 ≤ 52) :
    Ranked (rank n) (UnpackedFloat.ofNat Format.binary64 n) := by
  have log : (n * 2 ^ (52 - n.log2)).log2 = 52 + 0 := by
    rw [log2_mul_two_pow some]
    omega
  have ranked := ranked_round (e := -(52 - n.log2 : Nat)) log (by omega)
  have exact : rounded (n * 2 ^ (52 - n.log2)) 0 = n * 2 ^ (52 - n.log2) := by
    simpa using rounded_mul_pow (n * 2 ^ (52 - n.log2)) 0
  have rank : (-(52 - n.log2 : Nat) + (0 : Nat)) * 2 ^ 52 + (n * 2 ^ (52 - n.log2) : Nat) = rank n := by
    rw [rank_short short]
    omega
  rw [exact, rank] at ranked
  have shift : (0 - Format.binary64.targetExponent (totalExponent n 0)).toNat = 52 - n.log2 := by
    rw [targetExponent_eq (by rw [totalExponent]; omega), totalExponent]
    omega
  have positive : compare (n : Int) 0 = .gt := Int.compare_eq_gt.mpr (by omega)
  rw [UnpackedFloat.ofNat, UnpackedFloat.ofInt, UnpackedFloat.normalize, positive]
  dsimp only
  rw [UnpackedFloat.round, UnpackedFloat.decreaseExponent]
  dsimp only
  rw [Int.toNat_natCast, shift, Nat.shiftLeft_eq, Int.zero_sub]
  exact ranked

theorem unpack_one : (Float.ofBits 0x3FF0000000000000).toModel.unpack =
    .finite .positive (2 ^ 52) (-52) (by decide) := by
  rfl

theorem measured_toFloat (n : Nat) : Measured (rank n) n.toFloat.toModel.unpack := by
  change Measured (rank n) (Float.ofScientific n false 0).toModel.unpack
  unfold Float.ofScientific
  split
  next small =>
    -- A small number is converted as it is and multiplied by one.
    have word : n.toUInt64.toNat = n := by
      rw [Nat.toUInt64_eq, UInt64.toNat_ofNat']
      omega
    change Measured (rank n) (UnpackedFloat.unpack Format.binary64 (UnpackedFloat.pack Format.binary64
      (UnpackedFloat.mul Format.binary64 (UnpackedFloat.unpack Format.binary64
        (UnpackedFloat.pack Format.binary64
          (UnpackedFloat.ofNat Format.binary64 n.toUInt64.toNat)))
        (Float.ofBits 0x3FF0000000000000).toModel.unpack)))
    rw [word, unpack_one]
    rcases Nat.eq_zero_or_pos n with rfl | some
    · exact .zero (Int.le_of_eq rank_zero)
    · have some := Nat.ne_of_gt some
      have short : n.log2 ≤ 52 := Nat.le_of_lt_succ ((Nat.log2_lt some).mpr small.1)
      obtain ⟨above, below⟩ := rank_bounds some
      have measured := measured_pack (ofNat_short some short) (by omega)
      generalize rank n = p, UnpackedFloat.unpack Format.binary64 (UnpackedFloat.pack
        Format.binary64 (UnpackedFloat.ofNat Format.binary64 n)) = u at above below measured
      cases measured with
      | zero low => omega
      | infinite high => omega
      | @finite m e positive normal short whole small =>
          have log : (m * 2 ^ 52).log2 = 52 + 52 := by
            have log : m.log2 = 52 := (Nat.log2_eq_iff (by omega)).mpr ⟨normal, short⟩
            rw [log2_mul_two_pow (Nat.ne_of_gt positive), log]
          have ranked := ranked_round (e := e + -52) log (by omega)
          have same : (e + -52 + (52 : Nat)) * 2 ^ 52 + (m : Int) = e * 2 ^ 52 + m := by omega
          rw [rounded_mul_pow, same] at ranked
          exact measured_pack ranked (by omega)
  next large =>
    have some : n ≠ 0 := by omega
    have log : (n * 2 ^ 53).log2 = 52 + (n.log2 + 1) := by
      rw [log2_mul_two_pow some]
      omega
    have ranked := ranked_round (e := -53) log (by omega)
    have same : (-53 + ((n.log2 + 1 : Nat) : Int)) * 2 ^ 52 + rounded (n * 2 ^ 53) (n.log2 + 1) =
        rank n := by
      rw [rank]
      omega
    have above := (rank_bounds some).1
    rw [same] at ranked
    have scaled : UnpackedFloat.ofScientific Format.binary64 n 0 =
        roundWithAccuracy Format.binary64 .positive (n * 2 ^ 53) (-53) .exact := by
      have bits : (2 : Int) ^ Format.binary64.exponentBits = 2048 := rfl
      rw [UnpackedFloat.ofScientific, dif_neg some, if_neg (by omega), if_neg (by omega),
        if_pos (Int.le_refl 0)]
      have bits' : Format.binary64.mantissaBits = 53 := rfl
      unfold UnpackedFloat.mul
      dsimp only
      rw [bits', Nat.shiftLeft_eq, Int.toNat_zero, Nat.pow_zero, Nat.mul_one, Int.add_zero]
      rfl
    change Measured (rank n) (UnpackedFloat.unpack Format.binary64 (UnpackedFloat.pack Format.binary64
      (UnpackedFloat.ofScientific Format.binary64 n (Int.ofNat 0))))
    rw [Int.ofNat_eq_natCast, Int.natCast_zero, scaled]
    exact measured_pack ranked (by omega)

theorem then_compare_eq_lt {e e' : Int} {m m' : Nat} :
    (compare e e').then (compare m m') = .lt ↔ e < e' ∨ e = e' ∧ m < m' := by
  rw [Ordering.then_eq_lt, Int.compare_eq_lt, Int.compare_eq_eq, Nat.compare_eq_lt]

/-- What is above a number is above what is measured to be no more. -/
theorem compare_of_measured {p p' : Int} {u u' x : UnpackedFloat} (measured : Measured p u)
    (measured' : Measured p' u') (less : p ≤ p') (above : u'.compare x = some .lt) :
    u.compare x = some .lt := by
  cases measured' with
  | zero low =>
      cases measured with
      | zero => exact above
      | finite => omega
      | infinite => omega
  | infinite =>
      rcases x with (_ | _) | _ | _ | ⟨_ | _, _, _, _⟩ <;> cases above
  | finite positive' normal' short' whole' small' =>
      rcases x with (_ | _) | _ | _ | ⟨_ | _, n, f, _⟩
      case infinity.positive =>
          cases measured with
          | zero => rfl
          | finite => rfl
          | infinite => omega
      case finite.positive =>
          have above' := then_compare_eq_lt.mp (Option.some.inj above)
          cases measured with
          | zero => rfl
          | finite positive normal short =>
              exact congrArg some (then_compare_eq_lt.mpr (by omega))
          | infinite => omega
      all_goals cases above

theorem lt_iff {x y : Float} :
    x < y ↔ x.toModel.unpack.compare y.toModel.unpack = some .lt := by
  change decide (x.toModel < y.toModel) = true ↔ _
  rw [decide_eq_true_iff]
  exact beq_iff_eq

/-- What is above a whole number is above every smaller one. -/
theorem toFloat_lt {n n' : Nat} (less : n ≤ n') {x : Float} (above : n'.toFloat < x) :
    n.toFloat < x :=
  lt_iff.mpr (compare_of_measured (measured_toFloat n) (measured_toFloat n') (rank_mono less)
    (lt_iff.mp above))

end MathScript.Magnitude
