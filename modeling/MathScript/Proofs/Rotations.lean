import Mathlib.Data.List.Rotate
import MathScript.VectorOps
import MathScript.Proofs.Comparing

/-!
Vectors turned around. The places to turn by are the whole part of an amount, held within 64 signed
bits and counted around the vector, so they are fewer than its elements. An element that is turned
over one end comes back at the other; a turn to the left and the same turn to the right undo each
other.
-/

namespace MathScript

namespace Binary64

theorem isFinite_iff_value {x : Float} : x.isFinite = true ↔ ∃ v, value? x = some v := by
  refine ⟨value_of_isFinite, ?_⟩
  rintro ⟨v, known⟩
  change x.toModel.unpack.isFinite = true
  unfold value? at known
  rw [ofFloat_eq] at known
  cases unpacked : x.toModel.unpack with
  | notANumber | infinity =>
      rw [unpacked] at known
      cases known
  | zero | finite => rfl

end Binary64

namespace VectorOps

open Binary64

/-- What the function of a name answers and leaves, called with a vector and a number. -/
def turned? (name : String) (kept overload : Nat) (xs : Array Float) (amount : Float) :
    Option Reply :=
  match package.functions.lookup name with
  | some (.generic _ run) => some (run kept overload [.vector xs, .scalar amount])
  | _ => none

variable {xs : Array Float} {amount : Float}

/-! ### Turning by a number of places -/

theorem toList_rotateLeft {places : Nat} (within : places ≤ xs.size) :
    (rotateLeft xs places).toList = xs.toList.rotate places := by
  rw [List.rotate_eq_drop_append_take (by simpa using within), rotateLeft]
  simp

theorem toList_rotateRight (xs : Array Float) (places : Nat) :
    (rotateRight xs places).toList = xs.toList.rotate (xs.size - places) :=
  toList_rotateLeft (Nat.sub_le _ _)

theorem size_rotateLeft {places : Nat} (within : places ≤ xs.size) :
    (rotateLeft xs places).size = xs.size := by
  rw [← Array.length_toList, toList_rotateLeft within, List.length_rotate, Array.length_toList]

theorem size_rotateRight (xs : Array Float) (places : Nat) :
    (rotateRight xs places).size = xs.size :=
  size_rotateLeft (Nat.sub_le _ _)

section

variable {places : Nat} (within : places ≤ xs.size)

include within

theorem perm_rotateLeft : (rotateLeft xs places).Perm xs := by
  rw [Array.perm_iff_toList_perm, toList_rotateLeft within]
  exact List.rotate_perm _ _

theorem getElem?_rotateLeft {i : Nat} (inside : i < xs.size) :
    (rotateLeft xs places)[i]? = xs[(i + places) % xs.size]? := by
  rw [← Array.getElem?_toList, toList_rotateLeft within,
    List.getElem?_rotate (by simpa using inside), Array.getElem?_toList, Array.length_toList]

/-- Turned to the left and back. -/
theorem rotateRight_rotateLeft : rotateRight (rotateLeft xs places) places = xs := by
  apply Array.toList_inj.mp
  rw [toList_rotateRight, size_rotateLeft within, toList_rotateLeft within, List.rotate_rotate,
    Nat.add_sub_cancel' within, ← Array.length_toList, List.rotate_length]

/-- Turned to the right and back. -/
theorem rotateLeft_rotateRight : rotateLeft (rotateRight xs places) places = xs := by
  apply Array.toList_inj.mp
  rw [toList_rotateLeft (size_rotateRight xs places ▸ within), toList_rotateRight,
    List.rotate_rotate, Nat.sub_add_cancel within, ← Array.length_toList, List.rotate_length]

end

/-! ### The places of an amount -/

theorem shift_lt {size : Nat} (present : 0 < size) (amount : Float) : shift size amount < size := by
  have positive : (0 : Int) < size := by exact_mod_cast present
  have below := Int.emod_lt_of_pos (Index.ofFloat amount) positive
  rw [shift]
  omega

theorem cast_shift {size : Nat} (present : 0 < size) (amount : Float) :
    (shift size amount : Int) = Index.ofFloat amount % size :=
  Int.toNat_of_nonneg (Int.emod_nonneg _ (by omega))

/-- Where an element comes from that is found at place `i` after a turn to the left. -/
theorem add_shift {size : Nat} (present : 0 < size) (amount : Float) (i : Nat) :
    (i + shift size amount) % size = ((i + Index.ofFloat amount) % size).toNat := by
  have around : (((i + shift size amount) % size : Nat) : Int) =
      (i + Index.ofFloat amount) % size := by
    push_cast
    rw [cast_shift present, Int.add_emod_emod]
  rw [← around, Int.toNat_natCast]

/-- Where an element comes from that is found at place `i` after a turn to the right. -/
theorem sub_shift {size : Nat} (present : 0 < size) (amount : Float) (i : Nat) :
    (i + (size - shift size amount)) % size = ((i - Index.ofFloat amount) % size).toNat := by
  have around : (((i + (size - shift size amount)) % size : Nat) : Int) =
      (i - Index.ofFloat amount) % size := by
    push_cast [Nat.cast_sub (Nat.le_of_lt (shift_lt present amount))]
    rw [cast_shift present]
    calc (i + (size - Index.ofFloat amount % size)) % (size : Int)
        = (i - Index.ofFloat amount % size + size) % (size : Int) := by ring_nf
      _ = (i - Index.ofFloat amount % size) % size := Int.add_emod_right _ _
      _ = (i - Index.ofFloat amount) % size := Int.sub_emod_emod _ _ _
  rw [← around, Int.toNat_natCast]

/-! ### Turning by an amount -/

theorem turned_eq (kept overload : Nat) (xs : Array Float) (amount : Float) :
    turned? "rol" kept overload xs amount =
        some ⟨.ok 1, [.vector (rotate rotateLeft xs amount), .scalar amount], kept⟩ ∧
      turned? "ror" kept overload xs amount =
        some ⟨.ok 1, [.vector (rotate rotateRight xs amount), .scalar amount], kept⟩ :=
  ⟨rfl, rfl⟩

variable (turn : Array Float → Nat → Array Float)

theorem rotate_still (still : xs = #[] ∨ value? amount = none) : rotate turn xs amount = xs := by
  refine if_pos ?_
  rcases still with rfl | unknown
  · rfl
  · have infinite : amount.isFinite = false := Bool.eq_false_iff.mpr fun finite => by
      obtain ⟨v, known⟩ := isFinite_iff_value.mp finite
      rw [unknown] at known
      cases known
    simp [infinite]

theorem rotate_moved {v : ℚ} (present : 0 < xs.size) (known : value? amount = some v) :
    rotate turn xs amount = turn xs (shift xs.size amount) := by
  have finite := isFinite_iff_value.mpr ⟨v, known⟩
  have filled : xs ≠ #[] := Array.size_pos_iff.mp present
  exact if_neg (by simp [finite, filled])

/-- A vector either stays as it is, or it is turned by fewer places than it has. -/
theorem rotate_cases (xs : Array Float) (amount : Float) :
    (∀ turn, rotate turn xs amount = xs) ∨
      shift xs.size amount ≤ xs.size ∧
        ∀ turn, rotate turn xs amount = turn xs (shift xs.size amount) := by
  rcases Nat.eq_zero_or_pos xs.size with none | present
  · exact .inl fun turn => rotate_still turn (.inl (Array.size_eq_zero_iff.mp none))
  · cases known : value? amount with
    | none => exact .inl fun turn => rotate_still turn (.inr known)
    | some v => exact .inr ⟨Nat.le_of_lt (shift_lt present amount),
        fun turn => rotate_moved turn present known⟩

theorem perm_rotate (xs : Array Float) (amount : Float) :
    (rotate rotateLeft xs amount).Perm xs ∧ (rotate rotateRight xs amount).Perm xs := by
  rcases rotate_cases xs amount with same | ⟨within, moved⟩
  · rw [same, same]
    exact ⟨.refl _, .refl _⟩
  · rw [moved, moved]
    exact ⟨perm_rotateLeft within, perm_rotateLeft (Nat.sub_le _ _)⟩

/-- The same amount to the left and to the right. -/
theorem rotate_rotate (xs : Array Float) (amount : Float) :
    rotate rotateRight (rotate rotateLeft xs amount) amount = xs ∧
      rotate rotateLeft (rotate rotateRight xs amount) amount = xs := by
  rcases Nat.eq_zero_or_pos xs.size with none | present
  · have still := Array.size_eq_zero_iff.mp none
    simp only [rotate_still _ (.inl still), and_self]
  · cases known : value? amount with
    | none => simp only [rotate_still _ (.inr known), and_self]
    | some v =>
        have within := Nat.le_of_lt (shift_lt present amount)
        have left := rotate_moved rotateRight (size_rotateLeft within ▸ present) known
        have right := rotate_moved rotateLeft
          (size_rotateRight xs (shift xs.size amount) ▸ present) known
        rw [size_rotateLeft within] at left
        rw [size_rotateRight] at right
        rw [rotate_moved _ present known, rotate_moved _ present known, left, right]
        exact ⟨rotateRight_rotateLeft within, rotateLeft_rotateRight within⟩

end VectorOps

open Binary64 VectorOps in
/-- Turns to the left and to the right. Both answer 1, whatever the vector and the amount. An empty
vector stays as it is, and so does any vector for an amount that is no finite number. For any other
amount let `k` be its whole part, held within 64 signed bits: at place `i` stands then what stood at
`i + k` or at `i - k`, counted around the vector, which is turned by fewer places than it has. So no
element is lost, and the one turn takes back the other. -/
theorem turns_undo_each_other (kept overload : Nat) (xs : Array Float) (amount : Float) :
    ∃ left right : Array Float,
      turned? "rol" kept overload xs amount =
        some ⟨.ok 1, [.vector left, .scalar amount], kept⟩ ∧
      turned? "ror" kept overload xs amount =
        some ⟨.ok 1, [.vector right, .scalar amount], kept⟩ ∧
      (xs = #[] ∨ value? amount = none → left = xs ∧ right = xs) ∧
      (∀ v, value? amount = some v → 0 < xs.size →
        let k := max (-2 ^ 63) (min (2 ^ 63 - 1) (truncation v))
        shift xs.size amount < xs.size ∧ (shift xs.size amount : Int) = k % xs.size ∧
        left = rotateLeft xs (shift xs.size amount) ∧
        right = rotateRight xs (shift xs.size amount) ∧
        ∀ i < xs.size, left[i]? = xs[((i + k) % xs.size).toNat]? ∧
          right[i]? = xs[((i - k) % xs.size).toNat]?) ∧
      (left.size = xs.size ∧ left.Perm xs) ∧ (right.size = xs.size ∧ right.Perm xs) ∧
      turned? "ror" kept overload left amount =
        some ⟨.ok 1, [.vector xs, .scalar amount], kept⟩ ∧
      turned? "rol" kept overload right amount =
        some ⟨.ok 1, [.vector xs, .scalar amount], kept⟩ := by
  obtain ⟨left, right⟩ := turned_eq kept overload xs amount
  obtain ⟨permL, permR⟩ := perm_rotate xs amount
  obtain ⟨back, forth⟩ := rotate_rotate xs amount
  refine ⟨_, _, left, right, fun still => ⟨rotate_still _ still, rotate_still _ still⟩,
    fun v known present => ?_, ⟨permL.size_eq, permL⟩, ⟨permR.size_eq, permR⟩, ?_, ?_⟩
  · have within := Nat.le_of_lt (shift_lt present amount)
    have places : Index.ofFloat amount = max (-2 ^ 63) (min (2 ^ 63 - 1) (truncation v)) :=
      Index.ofFloat_of_value known
    dsimp only
    rw [← places, rotate_moved _ present known, rotate_moved _ present known]
    refine ⟨shift_lt present amount, cast_shift present amount, rfl, rfl, fun i inside => ⟨?_, ?_⟩⟩
    · rw [getElem?_rotateLeft within inside, add_shift present]
    · rw [rotateRight, getElem?_rotateLeft (Nat.sub_le _ _) inside, sub_shift present]
  · rw [(turned_eq kept overload _ amount).2, back]
  · rw [(turned_eq kept overload _ amount).1, forth]

open Binary64 VectorOps in
/-- Five and a half places back are five, so three forward around four elements. -/
theorem turns_undo_each_other_of_fraction :
    value? (-5.5) = some (-11 / 2) ∧ ∃ left right : Array Float,
      turned? "rol" 0 0 #[1, 2, 3, 4] (-5.5) =
        some ⟨.ok 1, [.vector left, .scalar (-5.5)], 0⟩ ∧
      left[0]? = some 4 ∧ left[3]? = some 3 ∧
      turned? "ror" 0 0 left (-5.5) =
        some ⟨.ok 1, [.vector #[1, 2, 3, 4], .scalar (-5.5)], 0⟩ ∧
      right[0]? = some 2 := by
  have read : ofFloat (-5.5) = .finite true (11 * 2 ^ 49) (-50) := by decide +kernel
  have known : value? (-5.5) = some (-11 / 2) := by norm_num [value?, read, size]
  have whole : max (-2 ^ 63) (min (2 ^ 63 - 1) (truncation (-11 / 2))) = -5 := by
    have negative : (-11 / 2 : ℚ) < 0 := by norm_num
    have ceiling : ⌈(-11 / 2 : ℚ)⌉ = -5 := by norm_num
    rw [truncation, if_pos negative, ceiling]
    decide
  obtain ⟨left, right, rol, -, -, moved, -, -, back, -⟩ :=
    turns_undo_each_other 0 0 #[1, 2, 3, 4] (-5.5)
  obtain ⟨-, -, -, -, places⟩ := moved _ known (by decide)
  rw [whole] at places
  exact ⟨known, left, right, rol, (places 0 (by decide)).1, (places 3 (by decide)).1, back,
    (places 0 (by decide)).2⟩

end MathScript
