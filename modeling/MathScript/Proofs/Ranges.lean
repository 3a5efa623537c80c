import MathScript.Proofs.Observing
import MathScript.Proofs.Successor

/-!
Ranges of elements and characters stay within what is there, whatever the numbers are. Numbers are
compared by their exact values: a bound that is a whole number, be it outside or open, leaves
those between. What is outside of a vector is reported bound by bound.
-/

namespace MathScript

/-! ### Exact values -/

namespace Binary64

/-- The exact value of a number; none for an infinity or NaN. -/
def value? (x : Float) : Option ℚ :=
  match ofFloat x with
  | .finite negative m e => some (if negative then -size m e else size m e)
  | _ => none

/-- A number on the brink is not a whole number. -/
theorem OnBrink.size_ne {m : Nat} {e : Int} (brink : OnBrink m e) (k : Int) : size m e ≠ k := by
  obtain ⟨rfl, low, high⟩ := brink
  obtain ⟨f, rfl⟩ : ∃ f : Nat, e = -(f + 1 : Nat) := ⟨(-e - 1).toNat, by omega⟩
  intro same
  have power : (2 : ℚ) ^ (f + 1) ≠ 0 := by positivity
  have scaled : ((2 ^ 53 - 1 : Int) : ℚ) = ((k * 2 ^ f * 2 : Int) : ℚ) := by
    rw [Int.cast_mul, Int.cast_mul, ← same, size, zpow_neg, zpow_natCast, mul_assoc, Int.cast_pow,
      Int.cast_ofNat, ← pow_succ, inv_mul_cancel_right₀ power]
    norm_num
  have whole : (2 ^ 53 - 1 : Int) = k * 2 ^ f * 2 := by exact_mod_cast scaled
  generalize k * 2 ^ f = n at whole
  omega

theorem value_cases {x : Float} {v : ℚ} (known : value? x = some v) : ∃ negative m e,
    ofFloat x = .finite negative m e ∧ v = if negative then -size m e else size m e := by
  unfold value? at known
  split at known
  · next negative m e read => exact ⟨negative, m, e, read, (Option.some.inj known).symm⟩
  · cases known

end Binary64

/-- The number without its fraction. -/
def truncation (v : ℚ) : Int := if v < 0 then ⌈v⌉ else ⌊v⌋

theorem truncation_int (k : Int) : truncation k = k := by
  simp [truncation]

theorem truncation_size (negative : Bool) (m : Nat) (e : Int) :
    truncation (if negative then -Binary64.size m e else Binary64.size m e) =
      Binary64.applySign negative (Binary64.whole m e) := by
  have least := Binary64.size_nonneg m e
  have floor : ((Binary64.whole m e : Nat) : Int) = ⌊Binary64.size m e⌋ := by
    rw [← Binary64.floor_size, Int.natCast_floor_eq_floor least]
  unfold truncation
  cases negative with
  | true =>
      by_cases zero : m = 0
      · subst zero
        simp [Binary64.size_zero, Index.whole_zero, Binary64.applySign]
      · have below : -Binary64.size m e < 0 := neg_neg_of_pos (Binary64.size_pos zero e)
        simp [Binary64.applySign, below, floor, Int.ceil_neg]
  | false => simp [Binary64.applySign, floor, not_lt.mpr least]

namespace Index

open Binary64

/-- On the brink, and above zero. -/
def Brink (x : Float) : Prop :=
  match Binary64.ofFloat x with
  | .finite negative m e => negative = false ∧ OnBrink m e
  | _ => False

instance (x : Float) : Decidable (Brink x) :=
  match read : Binary64.ofFloat x with
  | .nan | .infinite _ => .isFalse (by simp [Brink, read])
  | .finite negative m e =>
      decidable_of_iff (negative = false ∧ OnBrink m e) (by simp [Brink, read])

variable {n : Nat} {x : Float} {v : ℚ} {k : Int}

theorem not_brink (known : value? x = some (k : ℚ)) : ¬ Brink x := by
  obtain ⟨negative, m, e, read, same⟩ := value_cases known
  unfold Brink
  rw [read]
  rintro ⟨rfl, brink⟩
  exact brink.size_ne k same.symm

theorem hold_of_value (known : value? x = some v) : hold n x = min n ⌊v⌋₊ := by
  obtain ⟨negative, m, e, read, rfl⟩ := value_cases known
  unfold hold
  rw [read]
  cases negative with
  | true =>
      have below : ⌊-size m e⌋₊ = 0 := Nat.floor_of_nonpos (neg_nonpos.mpr (size_nonneg m e))
      simp [below]
  | false => simp [floor_size]

/-- Where what is not beyond the number ends. -/
theorem behind_of_value (known : value? x = some v) :
    behind n x = if v < 0 then 0 else min n (⌊v⌋₊ + 1 + if Brink x then 1 else 0) := by
  obtain ⟨negative, m, e, read, rfl⟩ := value_cases known
  have brink : Brink x ↔ negative = false ∧ OnBrink m e := by rw [Brink, read]
  simp only [behind, read, brink]
  cases negative with
  | true =>
      by_cases zero : m = 0
      · have short : ¬ OnBrink 0 e := fun brink => by
          have := brink.1
          omega
        subst zero
        simp [size_zero, whole_zero, short]
      · have below : -size m e < 0 := neg_neg_of_pos (size_pos zero e)
        simp [zero, below]
  | false => simp [not_lt.mpr (size_nonneg m e), floor_size]

theorem within_iff : within n x = true ↔ ∃ v, value? x = some v ∧ 0 ≤ v ∧ v < n := by
  unfold within value?
  cases Binary64.ofFloat x with
  | nan => simp
  | infinite => simp
  | finite negative m e =>
      have floor : whole m e < n ↔ size m e < n := by
        rw [← floor_size, Nat.floor_lt (size_nonneg m e)]
      cases negative with
      | true =>
          by_cases zero : m = 0
          · subst zero
            simp [size_zero, whole_zero]
          · have below : ¬ 0 ≤ -size m e := by
              have := size_pos zero e
              linarith
            simp [zero, below]
      | false => simp [floor, size_nonneg]

theorem ofFloat_of_value (known : value? x = some v) : ofFloat x = clamp (truncation v) := by
  obtain ⟨negative, m, e, read, rfl⟩ := value_cases known
  unfold ofFloat
  rw [read, truncation_size]

theorem hold_of_int (known : value? x = some (k : ℚ)) : hold n x = min n k.toNat := by
  rw [hold_of_value known, ← Int.floor_toNat, Int.floor_intCast]

theorem behind_of_int (known : value? x = some (k : ℚ)) : behind n x = min n (k + 1).toNat := by
  rw [behind_of_value known, if_neg (not_brink known), ← Int.floor_toNat, Int.floor_intCast]
  split
  · next below =>
    have below : k < 0 := by exact_mod_cast below
    omega
  · next above =>
    have above : ¬ k < 0 := by exact_mod_cast above
    omega

theorem within_of_int (known : value? x = some (k : ℚ)) :
    within n x = true ↔ 0 ≤ k ∧ k < n := by
  rw [within_iff, known]
  simp only [Option.some.injEq, exists_eq_left']
  exact_mod_cast Iff.rfl

theorem ofFloat_of_int (known : value? x = some (k : ℚ)) : ofFloat x = clamp k := by
  rw [ofFloat_of_value known, truncation_int]

theorem hold_le (n : Nat) (x : Float) : hold n x ≤ n := by
  unfold hold
  split
  · exact Nat.zero_le n
  · split <;> omega
  · split <;> omega

theorem behind_le (n : Nat) (x : Float) : behind n x ≤ n := by
  unfold behind
  split
  · exact Nat.zero_le n
  · split <;> omega
  · split <;> omega

end Index

/-! ### Ranges -/

namespace Range

open Binary64

/-- The bound is a whole number, or is open like it. -/
def Stands : Option Float → Option Int → Prop := Option.Rel fun x k => value? x = some (k : ℚ)

/-- Between inclusive bounds, either of which may be open. -/
def Between (a b : Option Int) (i : Nat) : Prop := (∀ k ∈ a, k ≤ i) ∧ ∀ k ∈ b, (i : Int) ≤ k

/-- A half-open range of `n` indices, and the inclusive bounds it is between. -/
structure Covers (n : Nat) (first last : Option Float) (start stop : Nat) : Prop where
  ordered : start ≤ stop
  inside : stop ≤ n
  opening : first = none → start = 0
  ending : last = none → stop = n
  between : ∀ a b, Stands first a → Stands last b →
    ∀ i, (start ≤ i ∧ i < stop ↔ i < n ∧ Between a b i)
  exact : ∀ a b : Nat, Stands first (some a) → Stands last (some b) → a ≤ b → b < n →
    start = a ∧ stop = b + 1

variable {n : Nat} {first last : Option Float}

theorem hold_first {a : Option Int} (stands : Stands first a) :
    Index.hold n (first.getD 0) = min n (a.getD 0).toNat := by
  cases stands with
  | some known => exact Index.hold_of_int known
  | none =>
      have read : Binary64.ofFloat 0 = .finite false 0 (-1074) := by decide +kernel
      simp [Index.hold, read, Index.whole_zero]

theorem behind_last {b : Option Int} (stands : Stands last b) :
    Index.behind n (last.getD Eval.infinity) = b.elim n fun k => min n (k + 1).toNat := by
  cases stands with
  | some known => exact Index.behind_of_int known
  | none =>
      have read : Binary64.ofFloat Eval.infinity = .infinite false := by decide +kernel
      simp [Index.behind, read]

theorem clamp_covers (small : n ≤ 2 ^ 53) (first last : Option Float) :
    Covers n first last (clamp n (first.getD 0) (last.getD Eval.infinity)).1
      (clamp n (first.getD 0) (last.getD Eval.infinity)).2 := by
  rw [clamp_eq small]
  dsimp only
  have least := Index.hold_le n (first.getD 0)
  have most := Index.behind_le n (last.getD Eval.infinity)
  constructor
  case ordered => omega
  case inside => omega
  case opening =>
    rintro rfl
    exact (hold_first (a := none) .none).trans (by simp)
  case ending =>
    rintro rfl
    have whole : Index.behind n Eval.infinity = n := behind_last (b := none) .none
    rw [Option.getD_none, whole]
    omega
  case between =>
    intro a b firsts lasts i
    rw [hold_first firsts, behind_last lasts]
    unfold Between
    cases a <;> cases b <;> simp <;> omega
  case exact =>
    intro a b firsts lasts ordered inside
    rw [hold_first firsts, behind_last lasts]
    simp
    omega

/-- A part of a list without gaps, by where it starts and stops. -/
def Run {α : Type} (xs run : List α) (start stop : Nat) : Prop :=
  ∃ before after, xs = before ++ run ++ after ∧ before.length = start ∧
    (before ++ run).length = stop

/-- What is between two bounds. -/
def cut {α : Type} (xs : List α) (first last : Float) : List α :=
  (xs.drop (clamp xs.length first last).1).take
    ((clamp xs.length first last).2 - (clamp xs.length first last).1)

theorem substring_eq (s : String) (first last : Float) :
    substring s first last = String.ofList (cut s.toList first last) := rfl

theorem toList_slice (xs : Array Float) (first last : Float) :
    (slice xs first last).toList = cut xs.toList first last := by
  rw [slice, Array.toList_extract, List.extract_eq_take_drop]
  rfl

theorem run_cut {α : Type} {xs : List α} {first last : Float}
    (ordered : (clamp xs.length first last).1 ≤ (clamp xs.length first last).2)
    (inside : (clamp xs.length first last).2 ≤ xs.length) : Run xs (cut xs first last)
      (clamp xs.length first last).1 (clamp xs.length first last).2 := by
  unfold cut
  generalize clamp xs.length first last = range at ordered inside
  obtain ⟨start, stop⟩ := range
  dsimp only at ordered inside ⊢
  refine ⟨xs.take start, xs.drop stop, ?_, ?_, ?_⟩
  · have rest : xs.drop stop = (xs.drop start).drop (stop - start) := by
      rw [List.drop_drop, Nat.add_sub_cancel' ordered]
    rw [rest, List.append_assoc, List.take_append_drop, List.take_append_drop]
  · rw [List.length_take]
    omega
  · simp only [List.length_append, List.length_take, List.length_drop]
    omega

/-- The bounds outside of `n` elements, of those that are not open. -/
def outside (n : Nat) (first last : Option Float) : List Float :=
  (first.toList ++ last.toList).filter fun x => !Index.within n x

def Outside (n : Nat) (k : Int) : Prop := k < 0 ∨ n ≤ k

instance (n : Nat) (k : Int) : Decidable (Outside n k) :=
  inferInstanceAs (Decidable (k < 0 ∨ n ≤ k))

/-- The whole numbers outside of `n` elements, of two bounds that may be open. -/
def beyond (n : Nat) (a b : Option Int) : List Int :=
  (a.toList ++ b.toList).filter (Outside n ·)

theorem outside_of_int {x : Option Float} {k : Option Int} (stands : Stands x k) :
    (x.toList.filter fun x => !Index.within n x).map Index.ofFloat =
      (k.toList.filter (Outside n ·)).map Index.clamp := by
  cases stands with
  | none => rfl
  | @some x k known =>
      have index := Index.ofFloat_of_int known
      have inside : Index.within n x = decide (¬ Outside n k) := by
        rw [Bool.eq_iff_iff, Index.within_of_int known, decide_eq_true_iff, Outside]
        omega
      by_cases out : Outside n k <;> simp [inside, out, index]

theorem outside_eq {a b : Option Int} (firsts : Stands first a) (lasts : Stands last b) :
    (outside n first last).map Index.ofFloat = (beyond n a b).map Index.clamp := by
  simp only [outside, beyond, List.filter_append, List.map_append, outside_of_int firsts,
    outside_of_int lasts]

end Range

/-! ### Evaluation -/

namespace Eval

open Range

variable {check : Option Check} {b : Binding} {m : Machine}

/-- Reports of numbers outside of a vector, one after the other. -/
def reportAll (check : Option Check) (b : Binding) (n : Nat) (xs : List Float) : Eval Unit :=
  xs.forM fun x => report check b n (Index.ofFloat x)

theorem reportAll_append (n : Nat) (xs ys : List Float) :
    reportAll check b n (xs ++ ys) = (do reportAll check b n xs; reportAll check b n ys) := by
  simp [reportAll]

theorem reportBound_eq (n : Nat) (x : Option Float) :
    reportBound check b n x =
      reportAll check b n (x.toList.filter fun x => !Index.within n x) := by
  cases x with
  | none => rfl
  | some x =>
      cases inside : Index.within n x with
      | true => simp [reportBound, reportAll, inside]
      | false => simp [reportBound, reportAll, inside]

theorem stays_reportAll (n : Nat) (xs : List Float) (m : Machine) :
    Stays (fun _ => False) (reportAll check b n xs) m fun _ => True := by
  induction xs generalizing m with
  | nil => exact stays_pure trivial
  | cons x xs ih =>
      exact stays_bind (stays_report check b n (Index.ofFloat x)) fun _ m' _ _ => ih m'

/-- A check that lets all pass has been told of each, in order. -/
theorem reportAll_reports (c : Check) (n : Nat) (xs : List Float) (m : Machine) :
    Ends (reportAll (some c) b n xs) m
      (fun _ m' => m'.reports.toList =
        m.reports.toList ++ xs.map fun x => ⟨b.name, Index.ofFloat x, n⟩) fun _ _ => True := by
  induction xs generalizing m with
  | nil => exact ends_pure (List.append_nil _).symm
  | cons x xs ih =>
      refine ends_bind ((report_reports c b n (Index.ofFloat x) m).mono (fun _ m' told => ?_)
        fun _ _ _ => trivial)
      refine (ih m').mono (fun _ m'' told' => ?_) fun _ _ => id
      rw [told', told, Array.toList_push, List.append_assoc]
      rfl

/-- What writes nothing may as well be done after a vector is read. -/
theorem vectorOf_after {α β : Type} {x : Eval α} {value : α → Prop}
    (stays : Stays (fun _ => False) x m value) (f : Array Float → Eval β) :
    (x >>= fun _ => vectorOf b >>= f) m = (x >>= fun _ => f (m.vectorAt b.place)) m := by
  cases done : x m with
  | error e m' => rw [bind_stopped done, bind_stopped done]
  | ok a m' =>
      have still := (Ends.of_ok stays done).1
      have same : m'.vectorAt b.place = m.vectorAt b.place :=
        by simp only [Machine.vectorAt, still.places b.place id]
      rw [bind_completed done, bind_completed done, ← same]
      rfl

/-- The bounds of a slice that are outside of its vector are reported first. -/
theorem slice_eq (vector : b.kind = .vector) (first last : Option Float) (m : Machine) :
    slice check b first last m = (do
      reportAll check b (m.vectorAt b.place).size (outside (m.vectorAt b.place).size first last)
      return Value.vector
        (Range.slice (m.vectorAt b.place) (first.getD 0) (last.getD infinity))) m := by
  have joined : slice check b first last m = (do
      reportAll check b (m.vectorAt b.place).size (outside (m.vectorAt b.place).size first last)
      return Value.vector
        (Range.slice (← vectorOf b) (first.getD 0) (last.getD infinity))) m := by
    simp only [slice, vector, reportBound_eq, outside, List.filter_append, reportAll_append,
      bind_assoc]
    rfl
  exact joined.trans (vectorOf_after (stays_reportAll _ _ m) _)

end Eval

/-- How a vector is sliced, and which bounds that is reported of. -/
structure Eval.Slices (check : Option Check) (b : Binding) (first last : Option Float)
    (m : Machine) (run : List Float) : Prop where
  evaluated : slice check b first last m = (do
    reportAll check b (m.vectorAt b.place).size
      (Range.outside (m.vectorAt b.place).size first last)
    return Value.vector run.toArray) m
  silent : ∀ i j : Nat, Range.Stands first (some i) → Range.Stands last (some j) → i ≤ j →
    j < (m.vectorAt b.place).size → slice check b first last m = .ok (.vector run.toArray) m
  told : ∀ c, check = some c → ∀ i j, Range.Stands first i → Range.Stands last j → ∀ v m',
    slice check b first last m = .ok v m' → m'.reports.toList = m.reports.toList ++
      (Range.beyond (m.vectorAt b.place).size i j).map fun k =>
        ⟨b.name, Index.clamp k, (m.vectorAt b.place).size⟩

theorem Eval.slices {check : Option Check} {b : Binding} (vector : b.kind = .vector)
    (first last : Option Float) (m : Machine) : Slices check b first last m
      (Range.slice (m.vectorAt b.place) (first.getD 0) (last.getD infinity)).toList := by
  have evaluated := @slice_eq check b vector first last m
  constructor
  case evaluated => simpa using evaluated
  case silent =>
    intro i j firsts lasts ordered inside
    have none : Range.outside (m.vectorAt b.place).size first last = [] := by
      have same := Range.outside_eq (n := (m.vectorAt b.place).size) firsts lasts
      have low : ¬ Range.Outside (m.vectorAt b.place).size i := by
        unfold Range.Outside
        omega
      have high : ¬ Range.Outside (m.vectorAt b.place).size j := by
        unfold Range.Outside
        omega
      simpa [Range.beyond, low, high] using same
    rw [evaluated, none]
    rfl
  case told =>
    rintro c rfl i j firsts lasts v m' completed
    have same := Range.outside_eq (n := (m.vectorAt b.place).size) firsts lasts
    have reported := reportAll_reports (b := b) c (m.vectorAt b.place).size
      (Range.outside (m.vectorAt b.place).size first last) m
    rw [evaluated] at completed
    cases done : reportAll (some c) b (m.vectorAt b.place).size
        (Range.outside (m.vectorAt b.place).size first last) m with
    | error e m'' =>
        rw [bind_stopped done] at completed
        cases completed
    | ok a m'' =>
        rw [bind_completed done] at completed
        cases completed
        have relabel := congrArg
          (List.map fun k => (⟨b.name, k, (m.vectorAt b.place).size⟩ : Access)) same
        rw [List.map_map, List.map_map] at relabel
        rw [reported.of_ok done]
        exact congrArg _ relabel

end MathScript
