import MathScript.Tree

/-!
What a wildcard pattern matches, and that matching finds out. A cursor that comes back only to the
last star loses nothing: whatever a star before it could still take, the last one can take as well.
-/

namespace MathScript.Wildcard

/-- A pattern read as a sequence: a star stands for any run, `?` for one character, and any other
character for itself. -/
inductive Matches : List Char → List Char → Prop
  | done : Matches [] []
  | star {ps ts : List Char} (taken : List Char) (rest : Matches ps ts) :
      Matches ('*' :: ps) (taken ++ ts)
  | one {ps ts : List Char} (t : Char) (rest : Matches ps ts) : Matches ('?' :: ps) (t :: ts)
  | char {ps ts : List Char} {c : Char} (star : c ≠ '*') (one : c ≠ '?') (rest : Matches ps ts) :
      Matches (c :: ps) (c :: ts)

variable {ps ts : List Char}

theorem matches_star : Matches ('*' :: ps) ts ↔ ∃ k, Matches ps (ts.drop k) := by
  constructor
  · intro hit
    generalize whole : '*' :: ps = qs at hit
    cases hit with
    | done => cases whole
    | star taken rest =>
        cases whole
        exact ⟨taken.length, by rwa [List.drop_left]⟩
    | one t rest => cases whole
    | char star one rest => cases whole; exact absurd rfl star
  · rintro ⟨k, rest⟩
    have hit := Matches.star (ts.take k) rest
    rwa [List.take_append_drop] at hit

/-- A star takes any run in front of what it stands for. -/
theorem Matches.drop {k n : Nat} (hit : Matches ('*' :: ps) (ts.drop n)) (less : k ≤ n) :
    Matches ('*' :: ps) (ts.drop k) := by
  obtain ⟨more, rest⟩ := matches_star.mp hit
  rw [List.drop_drop] at rest
  refine matches_star.mpr ⟨n - k + more, ?_⟩
  rwa [List.drop_drop, ← Nat.add_assoc, Nat.add_sub_cancel' less]

theorem matches_cons {p t : Char} (plain : p ≠ '*') :
    Matches (p :: ps) (t :: ts) ↔ fits p t = true ∧ Matches ps ts := by
  constructor
  · intro hit
    generalize whole : t :: ts = us at hit
    cases hit with
    | star taken rest => exact absurd rfl plain
    | one _ rest =>
        cases whole
        exact ⟨rfl, rest⟩
    | char _ _ rest =>
        cases whole
        exact ⟨by simp [fits], rest⟩
  · rintro ⟨same, rest⟩
    by_cases one : p = '?'
    · subst one
      exact .one t rest
    · obtain rfl : p = t := by simpa [fits, one] using same
      exact .char plain one rest

theorem not_matches_nil {t : Char} : ¬ Matches [] (t :: ts) := nofun

theorem matches_empty : Matches ps [] ↔ ∀ p ∈ ps, p = '*' := by
  induction ps with
  | nil => exact ⟨fun _ => nofun, fun _ => .done⟩
  | cons p ps ih =>
      rw [List.forall_mem_cons, ← ih]
      constructor
      · intro hit
        generalize empty : ([] : List Char) = ts at hit
        cases hit with
        | star taken rest =>
            obtain ⟨rfl, rfl⟩ := List.append_eq_nil_iff.mp empty.symm
            exact ⟨rfl, rest⟩
        | one t rest => cases empty
        | char star one rest => cases empty
      · rintro ⟨rfl, rest⟩
        exact .star [] rest

/-- A pattern that starts without stars takes as many characters as it has. -/
theorem Matches.behind {qs : List Char} (hit : Matches (qs ++ ps) ts) (plain : '*' ∉ qs) :
    qs.length ≤ ts.length ∧ Matches ps (ts.drop qs.length) := by
  induction qs generalizing ts with
  | nil => exact ⟨Nat.zero_le _, hit⟩
  | cons q qs ih =>
      rw [List.mem_cons, not_or] at plain
      cases ts with
      | nil => exact absurd (matches_empty.mp hit q List.mem_cons_self).symm plain.1
      | cons t ts =>
          obtain ⟨short, rest⟩ := ih ((matches_cons (Ne.symm plain.1)).mp hit).2 plain.2
          exact ⟨Nat.succ_le_succ short, rest⟩

namespace Cursor

variable {text pattern : Array Char} {c c' : Cursor text pattern}

/-- What is left of the pattern matches what is left of the text. -/
def Ahead (c : Cursor text pattern) : Prop :=
  Matches (pattern.toList.drop c.passed) (text.toList.drop c.here)

/-- The pattern behind the last star matches where the star takes more than it does. -/
def Later (c : Cursor text pattern) : Prop :=
  ∃ s ∈ c.star, ∃ k, s.2 < k ∧ Matches (pattern.toList.drop (s.1 + 1)) (text.toList.drop k)

/-- Behind the last star nothing but single characters is passed, one for each of the text. -/
def Aligned (c : Cursor text pattern) : Prop :=
  ∀ s ∈ c.star, ∃ qs : List Char, '*' ∉ qs ∧
    pattern.toList.drop (s.1 + 1) = qs ++ pattern.toList.drop c.passed ∧
    s.2 + qs.length = c.here

theorem drop_here (short : c.here < text.size) :
    text.toList.drop c.here = text[c.here] :: text.toList.drop (c.here + 1) := by
  rw [List.drop_eq_getElem_cons (by simpa using short), Array.getElem_toList]

theorem drop_passed (more : c.passed < pattern.size) :
    pattern.toList.drop c.passed = pattern[c.passed] :: pattern.toList.drop (c.passed + 1) := by
  rw [List.drop_eq_getElem_cons (by simpa using more), Array.getElem_toList]

/-- Where the last star may take more, what is left of the pattern matches further on. -/
theorem Later.behind (later : c.Later) (aligned : c.Aligned) : ∃ n, c.here < n ∧
    Matches (pattern.toList.drop c.passed) (text.toList.drop n) := by
  obtain ⟨s, last, k, beyond, hit⟩ := later
  obtain ⟨qs, plain, same, level⟩ := aligned s last
  rw [same] at hit
  obtain ⟨-, rest⟩ := hit.behind plain
  rw [List.drop_drop] at rest
  exact ⟨k + qs.length, by omega, rest⟩

/-! ### One move -/

/-- A star that is passed may take nothing yet, or more. What an earlier one could take, it takes as
well. -/
theorem hold_iff (more : c.passed < pattern.size) (star : pattern[c.passed] = '*')
    (aligned : c.Aligned) :
    (c.hold more).Ahead ∨ (c.hold more).Later ↔ c.Ahead ∨ c.Later := by
  have ahead : c.Ahead ↔ Matches ('*' :: pattern.toList.drop (c.passed + 1))
      (text.toList.drop c.here) := by
    rw [Ahead, drop_passed more, star]
  have subsumed : c.Later → c.Ahead := by
    intro later
    obtain ⟨n, beyond, hit⟩ := later.behind aligned
    rw [drop_passed more, star] at hit
    exact ahead.mpr (hit.drop (Nat.le_of_lt beyond))
  rw [or_iff_left_of_imp subsumed, ahead, matches_star]
  constructor
  · rintro (now | ⟨_, ⟨⟩, k, beyond, hit⟩)
    · exact ⟨0, now⟩
    · refine ⟨k - c.here, ?_⟩
      rwa [List.drop_drop, Nat.add_sub_cancel' (Nat.le_of_lt beyond)]
  · rintro ⟨k, hit⟩
    rw [List.drop_drop] at hit
    cases k with
    | zero => exact .inl hit
    | succ k => exact .inr ⟨_, rfl, c.here + (k + 1), by omega, hit⟩

theorem step_iff (more : c.passed < pattern.size) (plain : pattern[c.passed] ≠ '*')
    (short : c.here < text.size) (same : fits pattern[c.passed] text[c.here] = true) :
    (c.step more).Ahead ∨ (c.step more).Later ↔ c.Ahead ∨ c.Later := by
  refine or_congr_left ?_
  rw [Ahead, Ahead, drop_passed more, drop_here short, matches_cons plain]
  exact ⟨fun rest => ⟨same, rest⟩, And.right⟩

/-- The last star takes one character more, or more than that. -/
theorem later_iff : c.Later ↔ ∃ c' ∈ c.back?, c'.Ahead ∨ c'.Later := by
  unfold back?
  split
  next none =>
    constructor
    · rintro ⟨s, last, -⟩
      rw [none] at last
      cases last
    · nofun
  next place reach last =>
    constructor
    · rintro ⟨s, last', k, beyond, hit⟩
      obtain rfl := Option.some.inj (last.symm.trans last')
      refine ⟨_, rfl, ?_⟩
      by_cases next : k = reach + 1
      · exact .inl (next ▸ hit)
      · exact .inr ⟨_, rfl, k, by dsimp only at beyond ⊢; omega, hit⟩
    · rintro ⟨_, ⟨⟩, now | ⟨_, ⟨⟩, k, beyond, hit⟩⟩
      · exact ⟨_, last, reach + 1, Nat.lt_succ_self _, now⟩
      · exact ⟨_, last, k, by dsimp only at beyond ⊢; omega, hit⟩

theorem next_iff (short : c.here < text.size) (aligned : c.Aligned) :
    c.Ahead ∨ c.Later ↔ ∃ c' ∈ c.next? text[c.here], c'.Ahead ∨ c'.Later := by
  have missed : ¬ c.Ahead → (c.Ahead ∨ c.Later ↔ ∃ c' ∈ c.back?, c'.Ahead ∨ c'.Later) :=
    fun past => (or_iff_right past).trans later_iff
  unfold next?
  split
  next more =>
    split
    next star => simp [hold_iff more star aligned]
    next plain =>
      split
      next same => simp [step_iff more plain short same]
      next other =>
        refine missed fun ahead => other ?_
        rw [Ahead, drop_passed more, drop_here short, matches_cons plain] at ahead
        exact ahead.1
  next past =>
    refine missed fun ahead => ?_
    rw [Ahead, drop_here short, List.drop_of_length_le (by simpa using past)] at ahead
    exact not_matches_nil ahead

theorem aligned_start : (start text pattern).Aligned := nofun

theorem aligned_back (back : c' ∈ c.back?) : c'.Aligned := by
  unfold back? at back
  split at back
  · cases back
  next place reach last =>
    cases back
    rintro _ ⟨⟩
    exact ⟨[], List.not_mem_nil, rfl, rfl⟩

theorem aligned_next {t : Char} (next : c' ∈ c.next? t) (aligned : c.Aligned) : c'.Aligned := by
  unfold next? at next
  split at next
  next more =>
    split at next
    next star =>
      cases next
      rintro _ ⟨⟩
      exact ⟨[], List.not_mem_nil, rfl, rfl⟩
    next plain =>
      split at next
      · cases next
        intro s last
        obtain ⟨qs, stars, same, level⟩ := aligned s last
        refine ⟨qs ++ [pattern[c.passed]], ?_, ?_, ?_⟩
        · simpa [stars] using Ne.symm plain
        · rw [same, drop_passed more, List.append_assoc]
          rfl
        · simp only [List.length_append, List.length_singleton, step]
          omega
      · exact aligned_back next
  · exact aligned_back next

/-! ### Whole runs -/

/-- At the end of the text only stars may be left. -/
theorem rest_iff (past : ¬ c.here < text.size) (aligned : c.Aligned) :
    (pattern.extract c.passed).all (· == '*') = true ↔ c.Ahead ∨ c.Later := by
  have nothing : ∀ n, c.here ≤ n → text.toList.drop n = [] := fun n beyond =>
    List.drop_of_length_le (by rw [Array.length_toList]; omega)
  have subsumed : c.Later → c.Ahead := by
    intro later
    obtain ⟨n, beyond, hit⟩ := later.behind aligned
    rw [nothing n (Nat.le_of_lt beyond)] at hit
    rwa [Ahead, nothing c.here (Nat.le_refl _)]
  rw [or_iff_left_of_imp subsumed, Ahead, nothing c.here (Nat.le_refl _), matches_empty,
    ← Array.all_toList, List.all_eq_true, Array.toList_extract, List.extract,
    List.take_of_length_le (by simp)]
  simp

/-- Matching finds out whether the rests match, or those behind the last star do further on. -/
theorem run_iff (aligned : c.Aligned) : c.run = true ↔ c.Ahead ∨ c.Later := by
  induction c using run.induct with
  | case1 c short c' next ih =>
      rw [next_iff short aligned, run, dif_pos short]
      split
      next c'' next' =>
        obtain rfl : c' = c'' := Option.some.inj (next.symm.trans next')
        simp [next, ih (aligned_next next aligned)]
      next none => simp [none] at next
  | case2 c short next =>
      rw [next_iff short aligned, run, dif_pos short]
      split
      next c'' next' => simp [next] at next'
      next => simp [next]
  | case3 c past =>
      rw [run, dif_neg past]
      exact rest_iff past aligned

end Cursor

/-- Matching is exact. A pattern matches a text just if the pattern, read as a sequence, stands for
it, in lower case on both sides where the case of ASCII letters is ignored; and that is what the
operators on strings yield. Every run ends, and all of its cursors are inside of the pattern. -/
theorem matching_is_exact (text pattern : String) (ignoreCase : Bool) :
    (like text pattern ignoreCase = true ↔
      Matches (fold ignoreCase pattern) (fold ignoreCase text)) ∧
    Operation.onStrings (if ignoreCase then .ilike else .like) text pattern =
      .scalar (ofBool (like text pattern ignoreCase)) := by
  constructor
  · rw [like, Cursor.run_iff Cursor.aligned_start]
    exact or_iff_left (by rintro ⟨s, ⟨⟩, -⟩)
  · cases ignoreCase <;> rfl

end MathScript.Wildcard
