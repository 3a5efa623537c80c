import MathScript.Proofs.Lengths
import MathScript.Proofs.Ranges

/-!
Fractions of indices. An element of a vector is found at its number truncated. A range of elements
or characters ends where one more than its bound is truncated to, so a fraction of the bound is
seen twice: between -1 and 0, where one more is above zero and the range is empty nevertheless,
and just below a power of two, where one more is rounded up.
-/

namespace MathScript

/-! ### Numbers without their fractions -/

namespace Binary64

/-- The number without its fraction, with its sign. -/
def chop (x : Float) : Float :=
  match ofFloat x with
  | .finite negative m e =>
      if 0 ≤ e then x
      else if negative then -(whole m e).toFloat else (whole m e).toFloat
  | _ => x

open Magnitude Float.Model Float.Model.UnpackedFloat

theorem value_of_unpack {x : Float} {s : Sign} {m : Nat} {e : Int} {positive : 0 < m}
    (read : x.toModel.unpack = .finite s m e positive) :
    value? x = some (if s == .negative then -size m e else size m e) := by
  rw [value?, ofFloat_eq, read]
  rfl

theorem unpack_neg (x : Float) : (-x).toModel.unpack = UnpackedFloat.unpack Format.binary64
    (UnpackedFloat.pack Format.binary64 x.toModel.unpack.neg) := rfl

/-- A whole number of 53 bits is a double, and so is its negation. -/
theorem value_toFloat {n : Nat} (short : n < 2 ^ 53) :
    value? n.toFloat = some (n : ℚ) ∧ value? (-n.toFloat) = some (-n : ℚ) := by
  have measured := measured_toFloat n
  rcases Nat.eq_zero_or_pos n with rfl | some
  · have zero : ofFloat (0 : Nat).toFloat = .finite false 0 (-1074) := by decide +kernel
    have negated : ofFloat (-(0 : Nat).toFloat) = .finite true 0 (-1074) := by decide +kernel
    simp [value?, zero, negated, size_zero]
  · have some := Nat.ne_of_gt some
    obtain ⟨m, e, positive, read, same⟩ := exact_of_measured (f := 0) some
      (Nat.le_of_lt_succ ((Nat.log2_lt some).mpr short)) (Nat.zero_le _) (by simpa using measured)
    have same : size m e = n := by simpa [size] using same
    rw [read] at measured
    generalize rank n = p at measured
    cases measured with
    | finite _ normal short whole small =>
        have negated : (-n.toFloat).toModel.unpack = .finite .negative m e positive := by
          rw [unpack_neg, read]
          exact unpack_pack .negative positive normal short whole small
        rw [value_of_unpack read, value_of_unpack negated, ← same]
        exact ⟨rfl, rfl⟩

theorem value_chop {x : Float} {v : ℚ} (known : value? x = some v) :
    value? (chop x) = some (truncation v : ℚ) := by
  obtain ⟨negative, m, e, read, rfl⟩ := value_cases known
  rw [truncation_size]
  unfold chop
  rw [read]
  dsimp only
  split
  · next natural =>
    obtain ⟨up, rfl⟩ := Int.eq_ofNat_of_zero_le natural
    have whole : (whole m up : ℚ) = size m up := by simp [whole_natCast, size]
    rw [known]
    cases negative <;> simp [applySign, whole]
  · next fraction =>
    have short : whole m e < 2 ^ 53 := by
      obtain ⟨f, rfl⟩ : ∃ f : Nat, e = -f := ⟨(-e).toNat, by omega⟩
      rw [whole_neg]
      exact Nat.lt_of_le_of_lt (Nat.div_le_self ..) (short_of_finite read)
    obtain ⟨positive, negated⟩ := value_toFloat short
    cases negative with
    | true => simpa [applySign] using negated
    | false => simpa [applySign] using positive

theorem chop_of_none {x : Float} (none : value? x = none) : chop x = x := by
  unfold value? at none
  unfold chop
  split <;> simp_all

end Binary64

namespace Index

open Binary64

variable {n start : Nat} {x : Float} {v : ℚ}

theorem vanishes_iff (known : value? x = some v) : Vanishes x ↔ -1 < v ∧ v < 0 := by
  obtain ⟨negative, m, e, read, rfl⟩ := value_cases known
  unfold Vanishes
  rw [read]
  have least := size_nonneg m e
  have small : whole m e = 0 ↔ size m e < 1 := by
    rw [← floor_size, Nat.floor_eq_zero]
  cases negative with
  | true =>
      by_cases zero : m = 0
      · subst zero
        simp [size_zero]
      · have above := size_pos zero e
        simp only [ne_eq, zero, not_false_eq_true, true_and, small, if_true]
        constructor
        · intro low
          exact ⟨by linarith, by linarith⟩
        · intro between
          linarith [between.1]
  | false => simp [not_lt.mpr least]

theorem Brink.nonneg (brink : Brink x) (known : value? x = some v) : 0 ≤ v := by
  obtain ⟨negative, m, e, read, rfl⟩ := value_cases known
  unfold Brink at brink
  rw [read] at brink
  obtain ⟨rfl, -⟩ := brink
  exact size_nonneg m e

/-- An element is found at the number truncated. -/
theorem ofFloat_chop (x : Float) : ofFloat (chop x) = ofFloat x := by
  cases known : value? x with
  | none => rw [chop_of_none known]
  | some v => rw [ofFloat_of_value (value_chop known), truncation_int, ofFloat_of_value known]

theorem toNat_truncation (v : ℚ) : (truncation v).toNat = ⌊v⌋₊ := by
  unfold truncation
  split
  · next below =>
    have none : ⌈v⌉ ≤ 0 := Int.ceil_le.mpr (by simpa using below.le)
    rw [Nat.floor_of_nonpos below.le, Int.toNat_of_nonpos none]
  · exact Int.floor_toNat v

theorem hold_chop (n : Nat) (x : Float) : hold n (chop x) = hold n x := by
  cases known : value? x with
  | none => rw [chop_of_none known]
  | some v => rw [hold_of_int (value_chop known), toNat_truncation, hold_of_value known]

/-- The range to the number, from `start`, does not end where the truncated number has it: between
-1 and 0 nothing is left, on the brink is one more. -/
def Astray (n start : Nat) (x : Float) : Prop :=
  Vanishes x ∧ start ≤ hold n x ∧ hold n x < n ∨
    Brink x ∧ start ≤ hold n x + 1 ∧ hold n x + 1 < n

theorem max_behind_iff (n start : Nat) (x : Float) :
    max (behind n x) start = max (behind n (chop x)) start ↔ ¬ Astray n start x := by
  cases known : value? x with
  | none =>
      have still : ¬ Vanishes x ∧ ¬ Brink x := by
        unfold value? at known
        unfold Vanishes Brink
        split at known <;> simp_all
      simp [chop_of_none known, Astray, still]
  | some v =>
      have whole : behind n (chop x) = min n (truncation v + 1).toNat :=
        behind_of_int (value_chop known)
      have nat := toNat_truncation v
      have vanishes := vanishes_iff known
      unfold Astray
      rw [behind_of_value known, whole, hold_of_value known, vanishes]
      by_cases below : v < 0
      · have floor : ⌊v⌋₊ = 0 := Nat.floor_of_nonpos below.le
        have inside : ¬ Brink x := fun brink => absurd (brink.nonneg known) (not_le.mpr below)
        have end_ : (truncation v + 1).toNat = if -1 < v then 1 else 0 := by
          have ceiling : truncation v = ⌈v⌉ := if_pos below
          have zero : ⌈v⌉ = 0 ↔ -1 < v := by
            rw [Int.ceil_eq_zero_iff]
            simp [below.le]
          have least : ⌈v⌉ ≤ 0 := Int.ceil_le.mpr (by simpa using below.le)
          rw [ceiling]
          split
          · next above => rw [zero.mpr above]; rfl
          · next above =>
            have := mt zero.mp above
            omega
        simp only [below, inside, end_, floor, if_true, and_true, false_and, or_false]
        by_cases above : -1 < v
        · simp only [above, if_true, true_and]
          omega
        · simp [above]
      · have natural : (truncation v + 1).toNat = ⌊v⌋₊ + 1 := by
          have least : 0 ≤ truncation v := by
            rw [truncation, if_neg below]
            exact Int.floor_nonneg.mpr (not_lt.mp below)
          omega
        rw [natural]
        simp only [below, if_false, and_false, false_and, false_or]
        by_cases brink : Brink x
        · simp only [brink, if_true, true_and]
          omega
        · simp [brink]

end Index

/-! ### Ranges -/

namespace Range

open Binary64

/-- What is at the number truncated. -/
def single {α : Type} (xs : List α) (x : Float) : Option α :=
  (truncated? x).bind fun k => if k < 0 then none else xs[k.toNat]?

variable {n : Nat}

theorem clamp_chop_iff (small : n ≤ 2 ^ 53) (first last : Float) :
    clamp n first last = clamp n (chop first) (chop last) ↔
      ¬ Index.Astray n (Index.hold n first) last := by
  rw [clamp_eq small, clamp_eq small, Index.hold_chop, Prod.mk.injEq]
  simp only [true_and, Index.max_behind_iff]

theorem cut_chop_iff {α : Type} {xs : List α} (small : xs.length ≤ 2 ^ 53) (first last : Float) :
    cut xs first last = cut xs (chop first) (chop last) ↔
      ¬ Index.Astray xs.length (Index.hold xs.length first) last := by
  rw [cut, cut, clamp_eq small, clamp_eq small, Index.hold_chop, ← Index.max_behind_iff]
  dsimp only
  have inside := Index.hold_le xs.length first
  have ends := Index.behind_le xs.length last
  have ends' := Index.behind_le xs.length (chop last)
  constructor
  · intro same
    have lengths := congrArg List.length same
    simp only [List.length_take, List.length_drop] at lengths
    omega
  · intro same
    rw [same]

/-- From a whole number to itself is the element there. -/
theorem cut_chop {α : Type} {xs : List α} (small : xs.length ≤ 2 ^ 53) (x : Float) :
    cut xs (chop x) (chop x) = (single xs x).toList := by
  rw [cut, clamp_eq small, single]
  dsimp only
  cases known : value? x with
  | none =>
      have nowhere : truncated? x = none ∧
          Index.behind xs.length x ≤ Index.hold xs.length x := by
        unfold value? at known
        unfold truncated? Index.behind Index.hold
        split at known
        · cases known
        · next other =>
          cases read : ofFloat x with
          | nan => simp
          | infinite negative => simp
          | finite negative m e => exact (other _ _ _ read).elim
      rw [chop_of_none known, nowhere.1, Nat.max_eq_right nowhere.2, Nat.sub_self]
      rfl
  | some v =>
      have whole : truncated? x = some (truncation v) := by
        obtain ⟨negative, m, e, read, rfl⟩ := value_cases known
        rw [truncated?, read, truncation_size]
      rw [Index.hold_of_int (value_chop known), Index.behind_of_int (value_chop known), whole,
        Option.bind_some]
      generalize truncation v = k
      split
      · next negative =>
        have none : (k + 1).toNat = 0 := by omega
        simp [none]
      · next natural =>
        obtain ⟨j, rfl⟩ := Int.eq_ofNat_of_zero_le (not_lt.mp natural)
        rcases Nat.lt_or_ge j xs.length with inside | beyond
        · have range : min xs.length (j : Int).toNat = j ∧
              max (min xs.length (j + 1 : Int).toNat) j - j = 1 := by omega
          rw [range.1, range.2, List.take_one, List.head?_drop]
          rfl
        · simp [beyond]

end Range

/-! ### Evaluation -/

namespace Eval

open Binary64 Range

variable {check : Option Check} {b : Binding} {m : Machine}

theorem elementAt_clamp {xs : Array Float} (small : xs.size ≤ 2 ^ 53) (k : Int) :
    elementAt? xs (Index.clamp k) = if k < 0 then none else xs.toList[k.toNat]? := by
  have least_eq : Index.least = -9223372036854775808 := rfl
  have greatest_eq : Index.greatest = 9223372036854775807 := rfl
  rw [elementAt?, Index.clamp, least_eq, greatest_eq]
  by_cases below : k < 0
  · rw [if_pos below, if_pos (by omega)]
  · rw [if_neg below, if_neg (by omega), Array.getElem?_toList]
    by_cases inside : k.toNat < xs.size
    · congr 1
      omega
    · rw [Array.getElem?_eq_none (by omega), Array.getElem?_eq_none (by omega)]

theorem elementAt_single {xs : Array Float} (small : xs.size ≤ 2 ^ 53) (x : Float) :
    elementAt? xs (Index.ofFloat x) = single xs.toList x := by
  unfold single truncated? Index.ofFloat
  cases Binary64.ofFloat x with
  | nan => rfl
  | infinite negative =>
      cases negative with
      | true => rfl
      | false =>
          have beyond : elementAt? xs Index.greatest = xs[2 ^ 63 - 1]? := rfl
          simp only [Bool.false_eq_true, if_false, Option.bind_none]
          rw [beyond, Array.getElem?_eq_none (by omega)]
  | finite negative m e => exact elementAt_clamp small _

theorem element?_chop (check : Option Check) (b : Binding) (x : Float) :
    element? check b (chop x) = element? check b x := by
  rw [element?, element?, Index.ofFloat_chop]

theorem setElement_chop (b : Binding) (i x : Float) :
    setElement b (chop i) x = setElement b i x := by
  unfold setElement
  rw [Index.ofFloat_chop]

theorem slice_value {first last : Option Float} {v : Value} {m' : Machine}
    (vector : b.kind = .vector) (completed : slice check b first last m = .ok v m') :
    v = .vector (Range.slice (m.vectorAt b.place) (first.getD 0) (last.getD infinity)) := by
  rw [slice_eq vector] at completed
  cases done : reportAll check b (m.vectorAt b.place).size
      (outside (m.vectorAt b.place).size first last) m with
  | error e m'' =>
      rw [bind_stopped done] at completed
      cases completed
  | ok a m'' =>
      rw [bind_completed done] at completed
      cases completed
      rfl

end Eval

open Binary64 Range in
/-- An element of a vector is the one at its number truncated, read or written. A character of a
string is, and a range is that of its bounds truncated, unless the end goes astray. -/
theorem fractions_truncate_iff (check : Option Check) (b : Binding) (m : Machine) :
    (b.kind = .string → (m.stringAt b.place).toList.length ≤ 2 ^ 53 →
      let cs := (m.stringAt b.place).toList
      (∀ i, Eval.element check b i m =
          .ok (.string (String.ofList (single cs i).toList)) m ↔
        ¬ Index.Astray cs.length (Index.hold cs.length i) i) ∧
      (∀ x y, Eval.slice check b (some x) (some y) m =
          Eval.slice check b (some (chop x)) (some (chop y)) m ↔
        ¬ Index.Astray cs.length (Index.hold cs.length x) y) ∧
      ∀ x y, ¬ Index.Astray cs.length (Index.hold cs.length x) y → ∀ op v,
        Eval.assign check (.range b (some x) (some y)) op v m =
          Eval.assign check (.range b (some (chop x)) (some (chop y))) op v m) ∧
    (b.kind = .vector → (m.vectorAt b.place).size ≤ 2 ^ 53 →
      let xs := (m.vectorAt b.place).toList
      (∀ i, Eval.element check b i = Eval.element check b (chop i) ∧
        Eval.element none b i m = .ok (.scalar ((single xs i).getD notNumber)) m ∧
        ∀ op v, Eval.assign check (.element b i) op v =
          Eval.assign check (.element b (chop i)) op v) ∧
      (∀ x y v m' v' m'', Eval.slice check b (some x) (some y) m = .ok v m' →
        Eval.slice check b (some (chop x)) (some (chop y)) m = .ok v' m'' →
          (v = v' ↔ ¬ Index.Astray xs.length (Index.hold xs.length x) y)) ∧
      ∀ i e, single xs i = some e → ∀ v m', Eval.slice check b (some i) (some i) m = .ok v m' →
        (v = .vector #[e] ↔ ¬ Index.Astray xs.length (Index.hold xs.length i) i)) := by
  constructor
  · intro string small cs
    have cut_iff := fun x y => @cut_chop_iff _ cs small x y
    refine ⟨fun i => ?_, fun x y => ?_, fun x y straight op v => ?_⟩
    · have evaluated : Eval.element check b i m = .ok (.string (String.ofList (cut cs i i))) m := by
        simp only [Eval.element, string, substring_eq]
        rfl
      rw [evaluated, ← cut_iff, cut_chop small]
      simp [String.ofList_inj, cs]
    · have evaluated : ∀ x y, Eval.slice check b (some x) (some y) m =
          .ok (.string (String.ofList (cut cs x y))) m := fun x y => by
        simp only [Eval.slice, string, substring_eq]
        rfl
      rw [evaluated, evaluated, ← cut_iff]
      simp [String.ofList_inj]
    · have written : m.modifyString b.place (fun old => overwriteText old x y v.asString) =
          m.modifyString b.place fun old => overwriteText old (chop x) (chop y) v.asString :=
        Machine.modifyString_congr <| by
          rw [overwriteText, overwriteText, (clamp_chop_iff small x y).mpr straight]
      simp only [Eval.assign, Option.getD_some, bind, EStateM.bind, modify, modifyGet,
        MonadStateOf.modifyGet, EStateM.modifyGet, written]
  · intro vector small xs
    have read : ∀ x y v m', Eval.slice check b (some x) (some y) m = .ok v m' →
        v = .vector (cut xs x y).toArray := fun x y v m' done => by
      rw [Eval.slice_value vector done, ← toList_slice]
      rfl
    refine ⟨fun i => ⟨?_, ?_, fun op v => ?_⟩, fun x y v m' v' m'' done done' => ?_,
      fun i e found v m' done => ?_⟩
    · rw [Eval.element, Eval.element, Eval.element?_chop]
      simp only [vector]
    · have found := Eval.elementAt_single small i
      simp only [Eval.element, vector, Eval.element?, Eval.vectorOf, bind, EStateM.bind, found]
      cases single (m.vectorAt b.place).toList i <;> rfl
    · simp only [Eval.assign, Eval.element?_chop, Eval.setElement_chop]
    · rw [read x y v m' done, read _ _ v' m'' done', ← @cut_chop_iff _ xs small x y]
      simp
    · rw [read i i v m' done, ← @cut_chop_iff _ xs small i i, cut_chop small, found]
      simp

/-- Just below one a string gives two characters; a vector sliced from 1.5 to 1.5 gives one. -/
theorem fractions_truncate_iff_of_brink :
    let m : Machine := ⟨⟨#[], #[#[10, 20, 30]], #["abc"], #[]⟩, #[], #[]⟩
    let s : Binding := ⟨"s", .string ⟨0⟩, true⟩
    let v : Binding := ⟨"v", .vector ⟨0⟩, true⟩
    let i : Float := 0.9999999999999999
    Index.Astray 3 (Index.hold 3 i) i ∧
      Eval.element none s i m ≠ .ok (.string (String.ofList ['a'])) m ∧
      ¬ Index.Astray 3 (Index.hold 3 1.5) 1.5 ∧
      ∀ w m', Eval.slice none v (some 1.5) (some 1.5) m = .ok w m' → w = .vector #[20] := by
  intro m s v i
  have letters : (m.stringAt s.place).toList = ['a', 'b', 'c'] := by decide +kernel
  have truncated : Range.single ['a', 'b', 'c'] i = some 'a' := by decide +kernel
  have astray : Index.Astray 3 (Index.hold 3 i) i := .inr (by decide +kernel)
  have straight : ¬ Index.Astray 3 (Index.hold 3 1.5) 1.5 := by
    have brink : ¬ Index.Brink 1.5 := by decide +kernel
    have read : Binary64.ofFloat 1.5 = .finite false (3 * 2 ^ 51) (-52) := by decide +kernel
    simp [Index.Astray, brink, Index.Vanishes, read]
  have character := ((fractions_truncate_iff none s m).1 rfl (by rw [letters]; decide)).1 i
  have element := ((fractions_truncate_iff none v m).2 rfl (by decide)).2.2 1.5 20
    (by decide +kernel)
  rw [letters, truncated] at character
  exact ⟨astray, fun same => character.mp same astray, straight,
    fun w m' done => (element w m' done).mpr straight⟩

end MathScript
