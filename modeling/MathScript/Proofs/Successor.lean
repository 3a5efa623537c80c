import MathScript.Proofs.Genuine
import MathScript.Proofs.Magnitude

/-!
The end of a range is its inclusive bound and one, added before the sum is truncated. Up to 2 ^ 53
the sum is truncated to one more than the bound is, but for the greatest double below a power of
two: there the sum is rounded up to the power and one more.
-/

namespace MathScript

open Float.Model Float.Model.UnpackedFloat

/-! ### Doubles as they are unpacked -/

section
variable (b : BitVec 64)

theorem toNat_unpackMantissa :
    (@unpackMantissa Format.binary64 b).toNat = b.toNat % 2 ^ 52 := by
  simp [unpackMantissa]

theorem toNat_unpackExponent :
    (@unpackExponent Format.binary64 b).toNat = b.toNat / 2 ^ 52 % 2 ^ 11 := by
  simp [unpackExponent, Nat.shiftRight_eq_div_pow]

theorem unpackSign_eq :
    Sign.ofBitVec (@unpackSign Format.binary64 b) =
      if 2 ^ 63 ≤ b.toNat then .negative else .positive := by
  have bit : (@unpackSign Format.binary64 b).toNat = b.toNat / 2 ^ 63 % 2 := by
    simp [unpackSign, Nat.shiftRight_eq_div_pow]
  have bound := b.isLt
  unfold Sign.ofBitVec
  split
  · next zero =>
    rw [zero] at bit
    simp at bit
    rw [if_neg (by omega)]
  · next other =>
    have : (@unpackSign Format.binary64 b).toNat ≠ 0 := fun h => other (by
      apply BitVec.eq_of_toNat_eq; simpa using h)
    rw [if_pos (by omega)]
end

/-- A double, unpacked. -/
def Binary64.ofUnpacked : UnpackedFloat → Binary64
  | .notANumber => .nan
  | .infinity s => .infinite (s == .negative)
  | .zero s => .finite (s == .negative) 0 (-1074)
  | .finite s m e _ => .finite (s == .negative) m e

theorem sign_negative (b : BitVec 64) :
    (Sign.ofBitVec (@unpackSign Format.binary64 b) == .negative) =
      decide (2 ^ 63 ≤ b.toNat) := by
  rw [unpackSign_eq]
  split
  · next large => exact (decide_eq_true large).symm
  · next small => exact (decide_eq_false small).symm

theorem Binary64.ofFloat_eq (x : Float) : ofFloat x = ofUnpacked x.toModel.unpack := by
  have bits : x.toBits.toNat = x.toModel.toBits.toBitVec.toNat := rfl
  have bias : (Format.binary64.exponentBias : Int) + Format.binary64.mantissaBitsWithoutImplicit =
      1075 := by decide
  have ones : (-1#11).toNat = 2047 := by decide
  unfold ofFloat Float.Model.unpack UnpackedFloat.unpack
  rw [bits]
  generalize x.toModel.toBits.toBitVec = b
  have exponent : ∀ n : BitVec 11, b.toNat / 2 ^ 52 % 2 ^ 11 = n.toNat ↔
      @unpackExponent Format.binary64 b = n := fun n => by
    rw [← toNat_unpackExponent]
    exact BitVec.toNat_inj
  have mantissa : b.toNat % 2 ^ 52 = 0 ↔ @unpackMantissa Format.binary64 b = 0#52 := by
    rw [← toNat_unpackMantissa]
    exact BitVec.toNat_inj (y := 0#52)
  have fraction := toNat_unpackMantissa b
  have biased := toNat_unpackExponent b
  simp only [bias, Nat.pow_eq]
  split
  · next special =>
    rw [if_pos ((exponent (-1#11)).mp (special.trans ones.symm))]
    split
    · next none =>
      rw [if_pos (mantissa.mp none)]
      exact congrArg infinite (sign_negative b).symm
    · next some =>
      rw [if_neg fun none => some (mantissa.mpr none)]
      rfl
  · next other =>
    rw [if_neg fun special => other (((exponent _).mpr special).trans ones)]
    split
    · next small =>
      rw [if_pos ((exponent 0#11).mp small)]
      split
      · next none =>
        rw [mantissa.mpr none]
        exact congrArg (finite · 0 (-1074)) (sign_negative b).symm
      · next some =>
        rw [ofUnpacked, sign_negative, fraction, biased, small]
        rfl
    · next normal =>
      have joined : (1#1 ++ @unpackMantissa Format.binary64 b).toNat =
          2 ^ 52 + b.toNat % 2 ^ 52 := by
        rw [BitVec.toNat_append, ← Nat.shiftLeft_add_eq_or_of_lt (BitVec.isLt _), fraction]
        rfl
      rw [if_neg fun zero => normal ((exponent 0#11).mpr zero), ofUnpacked, sign_negative, joined,
        biased]

open Magnitude

/-! ### One more -/

theorem unpack_one_literal :
    (1 : Float).toModel.unpack = .finite .positive (2 ^ 52) (-52) (by decide) := by
  rfl

theorem unpack_add (x y : Float) : (x + y).toModel.unpack =
    UnpackedFloat.unpack Format.binary64 (UnpackedFloat.pack Format.binary64
      (UnpackedFloat.add Format.binary64 x.toModel.unpack y.toModel.unpack)) := rfl

/-- One more than a positive number is the whole number both are multiples of, rounded. -/
theorem measured_succ {x : Float} {m : Nat} {e : Int} {positive : 0 < m}
    (read : x.toModel.unpack = .finite .positive m e positive) :
    Measured (rank (m * 2 ^ e.toNat + 2 ^ (-e).toNat) + min e 0 * 2 ^ 52)
      (x + 1).toModel.unpack := by
  let least := min e (-52)
  let k := (min e 0 - least).toNat
  let n := m * 2 ^ e.toNat + 2 ^ (-e).toNat
  have some : n ≠ 0 := Nat.ne_of_gt (Nat.add_pos_right _ (Nat.two_pow_pos _))
  have aligned : m <<< (e - least).toNat + 2 ^ 52 <<< (-52 - least).toNat = n * 2 ^ k := by
    have first : (e - least).toNat = e.toNat + k := by omega
    have second : 52 + (-52 - least).toNat = (-e).toNat + k := by omega
    rw [Nat.shiftLeft_eq, Nat.shiftLeft_eq, first, ← Nat.pow_add, second, Nat.add_mul,
      Nat.mul_assoc, ← Nat.pow_add, ← Nat.pow_add]
  have scaled : n * 2 ^ k ≠ 0 := Nat.mul_ne_zero some (Nat.ne_of_gt (Nat.two_pow_pos k))
  have sum : UnpackedFloat.add Format.binary64 (.finite .positive m e positive)
      (.finite .positive (2 ^ 52) (-52) (by decide)) =
      UnpackedFloat.round Format.binary64 .positive (n * 2 ^ k) least := by
    rw [← aligned]
    have above : compare ((n * 2 ^ k : Nat) : Int) 0 = .gt := Int.compare_eq_gt.mpr (by omega)
    rw [← aligned] at above
    unfold UnpackedFloat.add UnpackedFloat.normalize
    dsimp only [UnpackedFloat.decreaseExponent, Sign.apply]
    rw [← Int.natCast_add, above]
    rfl
  have long : (-e).toNat ≤ n.log2 := (Nat.le_log2 some).mpr (Nat.le_add_left _ _)
  have ranked := ranked_of_round (e := least) scaled (by
    rw [log2_mul_two_pow some]
    omega)
  have rank_eq : rank (n * 2 ^ k) + least * 2 ^ 52 = rank n + min e 0 * 2 ^ 52 := by
    rw [rank_mul_pow some]
    omega
  have above := (rank_bounds some).1
  rw [unpack_add, read, unpack_one_literal, sum]
  rw [rank_eq] at ranked
  exact measured_pack ranked (show -51 * 2 ^ 52 ≤ rank n + min e 0 * 2 ^ 52 by omega)

namespace Binary64

def size (m : Nat) (e : Int) : ℚ := m * 2 ^ e

theorem size_nonneg (m : Nat) (e : Int) : 0 ≤ size m e := by
  unfold size
  positivity

theorem size_pos {m : Nat} (some : m ≠ 0) (e : Int) : 0 < size m e := by
  unfold size
  positivity

theorem size_zero (e : Int) : size 0 e = 0 := by
  simp [size]

theorem size_mul_pow (m k : Nat) (e : Int) : size (m * 2 ^ k) e = size m (e + k) := by
  rw [size, size, zpow_add₀ two_ne_zero, zpow_natCast, Nat.cast_mul, Nat.cast_pow, Nat.cast_ofNat]
  ring

theorem floor_size (m : Nat) (e : Int) : ⌊size m e⌋₊ = whole m e := by
  cases e with
  | ofNat up =>
      have scaled : size m (Int.ofNat up) = ((m * 2 ^ up : Nat) : ℚ) := by
        simp [size]
      rw [scaled, Nat.floor_natCast]
      rfl
  | negSucc down =>
      have scaled : size m (Int.negSucc down) = (m : ℚ) / ((2 ^ (down + 1) : Nat) : ℚ) := by
        rw [size, zpow_negSucc, div_eq_mul_inv, Nat.cast_pow, Nat.cast_ofNat]
      rw [scaled, Nat.floor_div_eq_div]
      rfl

theorem whole_of_size {m r : Nat} {e t : Int} (same : size m e = size r t) :
    whole m e = whole r t := by
  rw [← floor_size, same, floor_size]

theorem whole_neg (m f : Nat) : whole m (-f) = m / 2 ^ f := by
  cases f with
  | zero => exact (Nat.mul_one m).trans (Nat.div_one m).symm
  | succ f => rfl

theorem whole_natCast (m f : Nat) : whole m f = m * 2 ^ f := rfl

/-- The rank tells the size. -/
theorem size_of_rank {m r : Nat} {e t : Int} (normal : 2 ^ 52 ≤ m) (short : m < 2 ^ 53)
    (least : 2 ^ 52 ≤ r) (most : r ≤ 2 ^ 53) (same : e * 2 ^ 52 + m = t * 2 ^ 52 + r) :
    size m e = size r t := by
  rcases Nat.lt_or_eq_of_le most with below | rfl
  · obtain rfl : e = t := by omega
    obtain rfl : m = r := by omega
    rfl
  · obtain rfl : e = t + 1 := by omega
    obtain rfl : m = 2 ^ 52 := by omega
    exact (size_mul_pow (2 ^ 52) 1 t).symm

/-- The rank of a number of at least 53 bits. -/
theorem rank_long {n k : Nat} (long : n.log2 = 52 + k) : rank n = k * 2 ^ 52 + rounded n k := by
  have bits : n.log2 + 1 = 53 + k := by omega
  rw [rank, bits, rounded_mul_pow_add, long]
  omega

theorem rounded_one (n : Nat) : rounded n 1 = n / 2 + if n % 2 = 1 then n / 2 % 2 else 0 := by
  have once : (⟨n, false, false⟩ : ExtendedMantissa) >>> 1 = ⟨n / 2, n % 2 != 0, false⟩ := rfl
  rw [rounded, once]
  rcases Nat.mod_two_eq_zero_or_one n with even | odd
  · rw [even]
    rfl
  · rw [odd]
    rfl

/-- What is finite is measured by its rank. -/
theorem finite_of_measured {r : Nat} {t : Int} {u : UnpackedFloat}
    (measured : Measured (t * 2 ^ 52 + r) u) (least : 2 ^ 52 ≤ r) (most : r ≤ 2 ^ 53)
    (low : -52 ≤ t) (high : t < 971) :
    ∃ m e positive, u = .finite .positive m e positive ∧ size m e = size r t := by
  generalize rank_eq : t * 2 ^ 52 + (r : Int) = p at measured
  cases measured with
  | zero low => omega
  | infinite high => omega
  | finite positive normal short whole small =>
      exact ⟨_, _, positive, rfl, size_of_rank normal short least most rank_eq.symm⟩

/-- The greatest double below a power of two from 1 to 2 ^ 51. One more than it is halfway between
two doubles, and is rounded up to the power and one more. -/
def OnBrink (m : Nat) (e : Int) : Prop := m = 2 ^ 53 - 1 ∧ -53 ≤ e ∧ e ≤ -2

instance (m : Nat) (e : Int) : Decidable (OnBrink m e) :=
  inferInstanceAs (Decidable (m = 2 ^ 53 - 1 ∧ -53 ≤ e ∧ e ≤ -2))

/-- Where one bit of the sum is lost, its whole part is one too large on the brink alone. -/
theorem halved_rounded {m f : Nat} (short : m < 2 ^ 53) (positive : 0 < f)
    (long : 2 ^ 53 ≤ m + 2 ^ f) (small : f ≤ 53) :
    rounded (m + 2 ^ f) 1 / 2 ^ (f - 1) = m / 2 ^ f + 1 + if OnBrink m (-f) then 1 else 0 := by
  obtain ⟨g, rfl⟩ : ∃ g, f = g + 1 := ⟨f - 1, by omega⟩
  have power : (0 : Nat) < 2 ^ g := Nat.two_pow_pos g
  have half : m / 2 ^ (g + 1) = m / 2 / 2 ^ g := by rw [Nat.pow_succ', Nat.div_div_eq_div_mul]
  have split : (m + 2 ^ (g + 1)) / 2 = m / 2 + 2 ^ g := by omega
  have odd : (m + 2 ^ (g + 1)) % 2 = m % 2 := by omega
  rw [rounded_one, Nat.add_sub_cancel, split, odd, half, Nat.add_right_comm,
    Nat.add_div_right _ power, Nat.add_right_comm _ 1]
  congr 1
  have brink : OnBrink m (-(g + 1 : Nat)) ↔ m = 2 ^ 53 - 1 ∧ 1 ≤ g := by
    unfold OnBrink
    omega
  simp only [brink]
  by_cases up : m % 2 = 1 ∧ (m / 2 + 2 ^ g) % 2 = 1
  · -- The sum is halfway between two numbers and goes up to the even one.
    have carry : 1 ≤ g := by
      rcases Nat.eq_zero_or_pos g with rfl | positive
      · omega
      · exact positive
    have multiple : 2 ^ g ∣ m / 2 + 1 ↔ m = 2 ^ 53 - 1 := by
      have below : 2 ^ g ∣ 2 ^ 52 := Nat.pow_dvd_pow 2 (by omega)
      constructor
      · intro divides
        have rest := Nat.eq_zero_of_dvd_of_lt (Nat.dvd_sub below divides) (by omega)
        omega
      · rintro rfl
        exact below
    rw [if_pos up.1, up.2, Nat.succ_div]
    congr 1
    simp [multiple, carry]
  · have stays : (if m % 2 = 1 then (m / 2 + 2 ^ g) % 2 else 0) = 0 := by
      split
      · next odd =>
        have := Nat.mod_two_eq_zero_or_one (m / 2 + 2 ^ g)
        omega
      · rfl
    rw [stays, if_neg, Nat.add_zero]
    · rfl
    · rintro ⟨rfl, carry⟩
      obtain ⟨k, rfl⟩ : ∃ k, g = k + 1 := ⟨g - 1, by omega⟩
      omega

/-- What has no more than 53 bits is kept as it is. -/
theorem exact_of_measured {n f : Nat} {u : UnpackedFloat} (some : n ≠ 0) (short : n.log2 ≤ 52)
    (long : f ≤ n.log2) (measured : Measured (rank n - f * 2 ^ 52) u) :
    ∃ m e positive, u = .finite .positive m e positive ∧ size m e = size n (-f) := by
  obtain ⟨k, log⟩ : ∃ k, n.log2 + k = 52 := ⟨52 - n.log2, by omega⟩
  have least : 2 ^ 52 ≤ n * 2 ^ k := by
    rw [← log, Nat.pow_add]
    exact Nat.mul_le_mul_right _ (Nat.log2_self_le some)
  have most : n * 2 ^ k ≤ 2 ^ 53 := by
    have twice : 2 ^ 53 = 2 ^ (n.log2 + 1) * 2 ^ k := by
      rw [← Nat.pow_add]
      congr 1
      omega
    rw [twice]
    exact Nat.mul_le_mul_right _ (Nat.le_of_lt Nat.lt_log2_self)
  have bits : 52 - n.log2 = k := by omega
  have exponent : ((n.log2 : Int) - 52) * 2 ^ 52 + (n * 2 ^ k : Nat) - f * 2 ^ 52 =
      (-f + -k) * 2 ^ 52 + (n * 2 ^ k : Nat) := by omega
  rw [rank_short short, bits, exponent] at measured
  obtain ⟨m, e, positive, rfl, same⟩ := finite_of_measured measured least most (by omega) (by omega)
  refine ⟨m, e, positive, rfl, ?_⟩
  rw [same, size_mul_pow, Int.neg_add_cancel_right]

/-- One more than a number that is not whole, as it is rounded. -/
theorem succ_of_fraction {m f : Nat} {u : UnpackedFloat} (short : m < 2 ^ 53) (positive : 0 < f)
    (measured : Measured (rank (m + 2 ^ f) - f * 2 ^ 52) u) :
    ∃ m' e' positive, u = .finite .positive m' e' positive ∧
      whole m' e' = whole m (-f) + 1 + if OnBrink m (-f) then 1 else 0 := by
  have some : m + 2 ^ f ≠ 0 := Nat.ne_of_gt (Nat.add_pos_right _ (Nat.two_pow_pos f))
  have least := Nat.log2_self_le some
  have most := @Nat.lt_log2_self (m + 2 ^ f)
  have long : f ≤ (m + 2 ^ f).log2 := (Nat.le_log2 some).mpr (Nat.le_add_left _ _)
  rcases Nat.lt_or_ge (m + 2 ^ f).log2 53 with few | many
  · obtain ⟨m', e', positive', rfl, same⟩ :=
      exact_of_measured some (Nat.le_of_lt_succ few) long measured
    have inside : ¬ OnBrink m (-f) := fun brink => by
      have few := (Nat.log2_lt some).mp few
      have brink := brink.1
      have power := Nat.two_pow_pos f
      omega
    refine ⟨m', e', positive', rfl, ?_⟩
    rw [whole_of_size same, whole_neg, whole_neg, Nat.add_div_right _ (Nat.two_pow_pos f),
      if_neg inside]
  · obtain ⟨k, log⟩ : ∃ k, (m + 2 ^ f).log2 = 52 + k :=
      ⟨_, (Nat.add_sub_cancel' (by omega)).symm⟩
    have exponent : (k : Int) * 2 ^ 52 + rounded (m + 2 ^ f) k - f * 2 ^ 52 =
        (k - f) * 2 ^ 52 + rounded (m + 2 ^ f) k := by omega
    rw [rank_long log, exponent] at measured
    obtain ⟨down, up⟩ := rounded_bounds (m + 2 ^ f) k
    rcases Nat.lt_or_ge f 54 with large | small
    · -- One bit is lost.
      have power : 2 ^ f ≤ 2 ^ 53 := Nat.pow_le_pow_right (by decide) (by omega)
      obtain rfl : k = 1 := by
        have short := (Nat.log2_lt some).mpr (show m + 2 ^ f < 2 ^ 54 by omega)
        omega
      rw [log] at least most
      obtain ⟨m', e', positive', rfl, same⟩ :=
        finite_of_measured measured (by omega) (by omega) (by omega) (by omega)
      have exponent : ((1 : Nat) : Int) - f = -(f - 1 : Nat) := by omega
      refine ⟨m', e', positive', rfl, ?_⟩
      rw [whole_of_size same, exponent, whole_neg, whole_neg,
        halved_rounded short positive least (by omega)]
    · -- The number is too small for its sum with one to come near two.
      have power : 2 ^ 54 ≤ 2 ^ f := Nat.pow_le_pow_right (by decide) small
      obtain rfl : f = 52 + k := by
        have short := (Nat.log2_lt some).mpr (show m + 2 ^ f < 2 ^ (f + 1) by omega)
        omega
      have quotient : (m + 2 ^ (52 + k)) / 2 ^ k = m / 2 ^ k + 2 ^ 52 := by
        rw [Nat.pow_add, Nat.add_mul_div_right _ _ (Nat.two_pow_pos k)]
      have part : m / 2 ^ k < 2 ^ 51 := by
        rw [Nat.div_lt_iff_lt_mul (Nat.two_pow_pos k), ← Nat.pow_add]
        exact Nat.lt_of_lt_of_le short (Nat.pow_le_pow_right (by decide) (by omega))
      rw [quotient] at down up
      generalize m / 2 ^ k = part at down up part
      obtain ⟨m', e', positive', rfl, same⟩ :=
        finite_of_measured measured (by omega) (by omega) (by omega) (by omega)
      have exponent : (k : Int) - (52 + k : Nat) = -(52 : Nat) := by omega
      have inside : ¬ OnBrink m (-(52 + k : Nat)) := fun brink => by
        have brink := brink.2.1
        omega
      have below : m / 2 ^ (52 + k) = 0 := Nat.div_eq_of_lt (by omega)
      refine ⟨m', e', positive', rfl, ?_⟩
      rw [whole_of_size same, exponent, whole_neg, whole_neg, below, if_neg inside]
      omega

theorem rank_two_pow (k : Nat) : rank (2 ^ k) = (k - 51) * 2 ^ 52 := by
  have scaled := rank_mul_pow (n := 1) (by decide) k
  have one : rank 1 = -51 * 2 ^ 52 := by decide
  rw [Nat.one_mul, one] at scaled
  omega

/-- One more than a whole number is exact, or has more than 53 bits. -/
theorem succ_of_whole {n : Nat} {u : UnpackedFloat} (some : n ≠ 0)
    (measured : Measured (rank n) u) :
    (n ≤ 2 ^ 53 → ∃ m e positive, u = .finite .positive m e positive ∧ whole m e = n) ∧
    (2 ^ 53 ≤ n → u = .infinity .positive ∨
      ∃ m e positive, u = .finite .positive m e positive ∧ 2 ^ 53 ≤ whole m e) := by
  constructor
  · intro short
    rcases Nat.lt_or_eq_of_le short with below | rfl
    · obtain ⟨m, e, positive, rfl, same⟩ := exact_of_measured (f := 0) some
        (Nat.le_of_lt_succ ((Nat.log2_lt some).mpr below)) (Nat.zero_le _) (by simpa using measured)
      exact ⟨m, e, positive, rfl, (whole_of_size same).trans (Nat.mul_one n)⟩
    · have exponent : rank (2 ^ 53) = 1 * 2 ^ 52 + (2 ^ 52 : Nat) := rank_two_pow 53
      rw [exponent] at measured
      obtain ⟨m, e, positive, rfl, same⟩ :=
        finite_of_measured measured (Nat.le_refl _) (by decide) (by decide) (by decide)
      exact ⟨m, e, positive, rfl, whole_of_size same⟩
  · intro long
    have above := rank_mono long
    rw [rank_two_pow] at above
    generalize rank n = p at measured above
    cases measured with
    | zero low => omega
    | infinite high => exact .inl rfl
    | @finite m e positive normal short whole small =>
        obtain ⟨k, rfl⟩ : ∃ k : Nat, e = (k + 1 : Nat) := ⟨(e - 1).toNat, by omega⟩
        refine .inr ⟨m, _, positive, rfl, ?_⟩
        rw [whole_natCast, Nat.pow_succ]
        exact Nat.mul_le_mul normal (Nat.le_mul_of_pos_left 2 (Nat.two_pow_pos k))

theorem short_of_finite {x : Float} {negative : Bool} {m : Nat} {e : Int}
    (read : ofFloat x = .finite negative m e) : m < 2 ^ 53 := by
  rw [ofFloat] at read
  simp only [Nat.pow_eq] at read
  split at read
  · split at read <;> cases read
  · split at read <;> injection read <;> omega

end Binary64

namespace Index

open Binary64

variable {length : Nat} {x : Float}

/-- A number held within the length, by how it is unpacked. -/
theorem hold_eq (length : Nat) (x : Float) : hold length x =
    match x.toModel.unpack with
    | .notANumber => 0
    | .infinity s => if s == .negative then 0 else length
    | .zero _ => 0
    | .finite s m e _ => if s == .negative then 0 else min length (whole m e) := by
  unfold hold
  rw [ofFloat_eq]
  cases x.toModel.unpack with
  | zero s => simp only [ofUnpacked, whole_zero, Nat.min_zero, ite_self]
  | notANumber | infinity | finite => rfl

/-- One more than a positive number, held within the length. -/
theorem hold_succ_finite (small : length ≤ 2 ^ 53) {m : Nat} {e : Int} {positive : 0 < m}
    (read : x.toModel.unpack = .finite .positive m e positive) :
    hold length (x + 1) = min length (whole m e + 1 + if OnBrink m e then 1 else 0) := by
  have short := short_of_finite (x := x) (by rw [ofFloat_eq, read]; rfl)
  have measured := measured_succ read
  rw [hold_eq]
  rcases Int.lt_or_le e 0 with fraction | natural
  · obtain ⟨f, rfl⟩ : ∃ f : Nat, e = -f := ⟨(-e).toNat, by omega⟩
    have exponent : (-(f : Int)).toNat = 0 ∧ (- -(f : Int)).toNat = f ∧
        min (-(f : Int)) 0 = -f := by
      omega
    rw [exponent.1, exponent.2.1, exponent.2.2, Nat.pow_zero, Nat.mul_one, Int.neg_mul,
      ← Int.sub_eq_add_neg] at measured
    obtain ⟨m', e', positive', read', same⟩ := succ_of_fraction short (by omega) measured
    rw [read', ← same]
    rfl
  · obtain ⟨f, rfl⟩ : ∃ f : Nat, e = f := ⟨e.toNat, by omega⟩
    have exponent : (f : Int).toNat = f ∧ (-(f : Int)).toNat = 0 ∧ min (f : Int) 0 = 0 := by omega
    rw [exponent.1, exponent.2.1, exponent.2.2, Nat.pow_zero, Int.zero_mul,
      Int.add_zero] at measured
    have inside : ¬ OnBrink m f := fun brink => by
      have := brink.2.2
      omega
    rw [if_neg inside, whole_natCast, Nat.add_zero]
    obtain ⟨exact, large⟩ := succ_of_whole (n := m * 2 ^ f + 1) (Nat.succ_ne_zero _) measured
    rcases Nat.le_total (m * 2 ^ f + 1) (2 ^ 53) with few | many
    · obtain ⟨m', e', positive', read', same⟩ := exact few
      rw [read', ← same]
      rfl
    · rw [Nat.min_eq_left (Nat.le_trans small many)]
      rcases large many with read' | ⟨m', e', positive', read', above⟩ <;> rw [read']
      · rfl
      · exact Nat.min_eq_left (Nat.le_trans small above)

/-- Where what is not beyond `x` ends, within the length. -/
def behind (length : Nat) (x : Float) : Nat :=
  match Binary64.ofFloat x with
  | .nan => 0
  | .infinite negative => if negative then 0 else length
  | .finite negative m e =>
      if negative && m != 0 then 0
      else min length (whole m e + 1 + if OnBrink m e then 1 else 0)

/-- The end of a range is found by adding one to the number. -/
theorem behind_eq (small : length ≤ 2 ^ 53) (x : Float) :
    (if x.isNaN || x < 0 then 0 else hold length (x + 1)) = behind length x := by
  have nan : x.isNaN = x.toModel.unpack.isNaN := rfl
  have negative : (x < 0) ↔ x.toModel.unpack.compare (.zero .positive) = some .lt := lt_iff
  rw [behind, ofFloat_eq, nan]
  simp only [negative]
  cases read : x.toModel.unpack with
  | notANumber => rfl
  | infinity s =>
      cases s with
      | negative => rfl
      | positive =>
          have sum : (x + 1).toModel.unpack = .infinity .positive := by
            rw [unpack_add, read]
            rfl
          rw [hold_eq, sum]
          rfl
  | zero s =>
      have sum : (x + 1).toModel.unpack = .finite .positive (2 ^ 52) (-52) (by decide) := by
        rw [unpack_add, read]
        cases s <;> rfl
      have brink : ¬ OnBrink 0 (-1074) := by decide
      rw [hold_eq, sum]
      simp only [ofUnpacked, whole_zero, if_neg brink]
      cases s <;> rfl
  | finite s m e positive =>
      cases s with
      | negative =>
          have some : m ≠ 0 := Nat.ne_of_gt positive
          have below : (UnpackedFloat.finite .negative m e positive).compare (.zero .positive) =
              Option.some .lt := rfl
          simp [ofUnpacked, some, below]
      | positive =>
          rw [hold_succ_finite small read]
          rfl

end Index

theorem Range.clamp_eq {length : Nat} (small : length ≤ 2 ^ 53) (first last : Float) :
    Range.clamp length first last =
      (Index.hold length first, max (Index.behind length last) (Index.hold length first)) := by
  rw [Range.clamp, Index.behind_eq small]

end MathScript
