import MathScript.Proofs.Truncating

/-!
Doubles are compared as their exact values are. A finite double has its leading bit set or the least
exponent, so of two of them the one of the greater exponent is the greater.
-/

namespace MathScript

namespace Binary64

open Magnitude Float.Model Float.Model.UnpackedFloat

/-- The leading bit is set, but for what is too small. -/
structure Normal (m : Nat) (e : Int) : Prop where
  short : m < 2 ^ 53
  low : -1074 ≤ e
  full : 2 ^ 52 ≤ m ∨ e = -1074

theorem normal_of_finite {x : Float} {negative : Bool} {m : Nat} {e : Int}
    (read : ofFloat x = .finite negative m e) : Normal m e := by
  rw [ofFloat] at read
  simp only [Nat.pow_eq] at read
  split at read
  · split at read <;> cases read
  · split at read
    · injection read with _ fraction least
      exact ⟨by omega, by omega, .inr least.symm⟩
    · injection read with _ fraction least
      exact ⟨by omega, by omega, .inl (by omega)⟩

/-- A greater exponent outweighs every significand. -/
theorem Normal.size_lt {m n : Nat} {e f : Int} (left : Normal m e) (right : Normal n f)
    (less : e < f) : size m e < size n f := by
  obtain ⟨up, rfl⟩ : ∃ up : Nat, f = e + (up + 1 : Nat) := ⟨(f - e - 1).toNat, by omega⟩
  have full : 2 ^ 52 ≤ n := right.full.resolve_right (by have := left.low; omega)
  have whole : m < n * 2 ^ (up + 1) :=
    calc m < 2 ^ 52 * 2 := left.short
      _ ≤ n * 2 ^ (up + 1) := Nat.mul_le_mul full (Nat.le_self_pow (Nat.succ_ne_zero up) 2)
  rw [← size_mul_pow, size, size]
  exact mul_lt_mul_of_pos_right (by exact_mod_cast whole) (by positivity)

theorem strictMono_size (e : Int) : StrictMono fun m => size m e :=
  fun _ _ less => mul_lt_mul_of_pos_right (by exact_mod_cast less) (by positivity)

theorem Normal.compare_size {m n : Nat} {e f : Int} (left : Normal m e) (right : Normal n f) :
    (compare e f).then (compare m n) = compare (size m e) (size n f) := by
  rcases lt_trichotomy e f with less | rfl | more
  · rw [compare_lt_iff_lt.mpr less, compare_lt_iff_lt.mpr (left.size_lt right less)]
    rfl
  · rw [compare_eq_iff_eq.mpr rfl, ← cmp_eq_compare, ← cmp_eq_compare,
      ← (strictMono_size e).cmp_map_eq]
    rfl
  · rw [compare_gt_iff_gt.mpr more, compare_gt_iff_gt.mpr (right.size_lt left more)]
    rfl

/-- A finite double by how it is unpacked. -/
theorem unpack_of_value {x : Float} {v : ℚ} (known : value? x = some v) :
    (∃ s, x.toModel.unpack = .zero s ∧ v = 0) ∨ ∃ s m e positive, Normal m e ∧
      x.toModel.unpack = .finite s m e positive ∧
        v = if s == .negative then -size m e else size m e := by
  obtain ⟨negative, m, e, read, same⟩ := value_cases known
  have normal := normal_of_finite read
  rw [ofFloat_eq] at read
  cases unpacked : x.toModel.unpack with
  | notANumber | infinity =>
      rw [unpacked] at read
      cases read
  | zero s =>
      rw [unpacked] at read
      cases read
      exact .inl ⟨s, rfl, by simp [same, size_zero]⟩
  | finite s m e positive =>
      rw [unpacked] at read
      cases read
      exact .inr ⟨s, m, e, positive, normal, rfl, same⟩

theorem compare_neg (v w : ℚ) : compare (-v) (-w) = (compare v w).swap := by
  rw [← cmp_eq_compare, ← cmp_eq_compare, cmp_swap]
  exact StrictAnti.cmp_map_eq (fun _ _ => neg_lt_neg) v w

/-- Doubles are compared as their exact values are. -/
theorem compare_value {x y : Float} {v w : ℚ} (left : value? x = some v)
    (right : value? y = some w) :
    x.toModel.unpack.compare y.toModel.unpack = some (compare v w) := by
  have pos : ∀ {m : Nat}, 0 < m → ∀ e, 0 < size m e := fun some e => size_pos (Nat.ne_of_gt some) e
  rcases unpack_of_value left with ⟨s, read, rfl⟩ | ⟨s, m, e, some, normal, read, rfl⟩
  · rcases unpack_of_value right with ⟨t, read', rfl⟩ | ⟨t, n, f, some', normal', read', rfl⟩
    · rw [read, read', compare_eq_iff_eq.mpr rfl]
      rfl
    · rw [read, read']
      cases t with
      | positive => exact congrArg _ (compare_lt_iff_lt.mpr (pos some' f)).symm
      | negative => exact congrArg _ (compare_gt_iff_gt.mpr (neg_neg_of_pos (pos some' f))).symm
  · rcases unpack_of_value right with ⟨t, read', rfl⟩ | ⟨t, n, f, some', normal', read', rfl⟩
    · rw [read, read']
      cases s with
      | positive => exact congrArg _ (compare_gt_iff_gt.mpr (pos some e)).symm
      | negative => exact congrArg _ (compare_lt_iff_lt.mpr (neg_neg_of_pos (pos some e))).symm
    · rw [read, read']
      have less := neg_neg_of_pos (pos some e)
      have less' := neg_neg_of_pos (pos some' f)
      cases s with
      | positive =>
          cases t with
          | positive => exact congrArg _ (normal.compare_size normal')
          | negative => exact congrArg _ (compare_gt_iff_gt.mpr (less'.trans (pos some e))).symm
      | negative =>
          cases t with
          | positive => exact congrArg _ (compare_lt_iff_lt.mpr (less.trans (pos some' f))).symm
          | negative =>
              rw [show (if (Sign.negative == .negative) = true then -size m e else size m e) =
                -size m e from rfl]
              exact congrArg _ ((congrArg Ordering.swap (normal.compare_size normal')).trans
                (compare_neg _ _).symm)

variable {x y : Float} {v w : ℚ}

theorem lt_iff_value (left : value? x = some v) (right : value? y = some w) :
    x < y ↔ v < w := by
  rw [lt_iff, compare_value left right, Option.some.injEq, compare_lt_iff_lt]

theorem le_iff_value (left : value? x = some v) (right : value? y = some w) :
    x ≤ y ↔ v ≤ w := by
  change decide (x.toModel ≤ y.toModel) = true ↔ _
  rw [decide_eq_true_iff]
  change Option.any Ordering.isLE (x.toModel.unpack.compare y.toModel.unpack) = true ↔ _
  rw [compare_value left right, Option.any_some, Ordering.isLE_iff_ne_gt,
    compare_gt_iff_gt, not_lt]

theorem value_of_isFinite (finite : x.isFinite = true) : ∃ v, value? x = some v := by
  change x.toModel.unpack.isFinite = true at finite
  unfold value?
  rw [ofFloat_eq]
  cases unpacked : x.toModel.unpack with
  | notANumber | infinity =>
      rw [unpacked] at finite
      cases finite
  | zero | finite => exact ⟨_, rfl⟩

theorem truncated_of_value (known : value? x = some v) : truncated? x = some (truncation v) := by
  obtain ⟨negative, m, e, read, rfl⟩ := value_cases known
  rw [truncated?, read, truncation_size]

theorem value_one : value? 1 = some 1 := by
  have read : ofFloat 1 = .finite false (2 ^ 52) (-52) := by decide +kernel
  norm_num [value?, read, size]

end Binary64

end MathScript
