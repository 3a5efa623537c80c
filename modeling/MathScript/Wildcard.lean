/-!
Wildcard patterns: `*` stands for any run of characters, `?` for exactly one, and every other
character for itself. A text is matched from its front with one star to come back to: where the
pattern does not go on, the last star passed takes one more character, and what it took before it
is given up for good.
-/

namespace MathScript.Wildcard

/-- How much of a text and of a pattern is passed, with the last star that was: its place in the
pattern and the place in the text up to which it reaches. -/
structure Cursor (text pattern : Array Char) where
  here : Nat
  passed : Nat
  star : Option (Nat × Nat)
  inside : passed ≤ pattern.size
  behind : ∀ s ∈ star, s.1 < pattern.size ∧ s.2 ≤ here

def fits (p t : Char) : Bool := p == '?' || p == t

namespace Cursor

variable {text pattern : Array Char}

def start (text pattern : Array Char) : Cursor text pattern :=
  ⟨0, 0, none, Nat.zero_le _, nofun⟩

/-- Passes a star, which takes nothing yet. -/
def hold (c : Cursor text pattern) (more : c.passed < pattern.size) : Cursor text pattern where
  here := c.here
  passed := c.passed + 1
  star := some (c.passed, c.here)
  inside := more
  behind := by
    rintro _ ⟨⟩
    exact ⟨more, Nat.le_refl _⟩

/-- Passes one character on both sides. -/
def step (c : Cursor text pattern) (more : c.passed < pattern.size) : Cursor text pattern where
  here := c.here + 1
  passed := c.passed + 1
  star := c.star
  inside := more
  behind s last := ⟨(c.behind s last).1, Nat.le_succ_of_le (c.behind s last).2⟩

/-- Back behind the last star, which takes one more character; none if no star was passed. -/
def back? (c : Cursor text pattern) : Option (Cursor text pattern) :=
  match last : c.star with
  | none => none
  | some (place, reach) => some {
      here := reach + 1
      passed := place + 1
      star := some (place, reach + 1)
      inside := (c.behind _ last).1
      behind := by
        rintro _ ⟨⟩
        exact ⟨(c.behind _ last).1, Nat.le_refl _⟩ }

/-- Where matching goes on with a character of the text ahead. -/
def next? (c : Cursor text pattern) (t : Char) : Option (Cursor text pattern) :=
  if more : c.passed < pattern.size then
    if pattern[c.passed] = '*' then some (c.hold more)
    else if fits pattern[c.passed] t then some (c.step more)
    else c.back?
  else c.back?

/-- How much a star may still take; one more than the text where none is passed yet. -/
def slack (c : Cursor text pattern) : Nat :=
  match c.star with
  | none => text.size + 1
  | some (_, reach) => text.size - reach

theorem next?_less {c c' : Cursor text pattern} {t : Char} (short : c.here < text.size)
    (next : c.next? t = some c') : Prod.Lex (· < ·) (· < ·)
      (c'.slack, pattern.size - c'.passed) (c.slack, pattern.size - c.passed) := by
  have returns : ∀ {c'}, c.back? = some c' → c'.slack < c.slack := by
    intro c' back
    unfold back? at back
    split at back
    · cases back
    next place reach last =>
      cases back
      have reached := (c.behind _ last).2
      simp only [slack, last]
      omega
  unfold next? at next
  split at next
  next more =>
    split at next
    · cases next
      rw [Prod.lex_def]
      cases last : c.star with
      | none =>
          simp only [slack, last, hold]
          omega
      | some s =>
          have reached := (c.behind _ last).2
          simp only [slack, last, hold]
          omega
    · split at next
      · cases next
        exact .right _ (by simp only [step]; omega)
      · exact .left _ _ (returns next)
  · exact .left _ _ (returns next)

/-- Whether the rest of the pattern matches the rest of the text, or what is behind the last star
matches what is left where the star takes more. At the end of the text only stars may be left. -/
def run (c : Cursor text pattern) : Bool :=
  if short : c.here < text.size then
    match next : c.next? text[c.here] with
    | some c' => c'.run
    | none => false
  else (pattern.extract c.passed).all (· == '*')
termination_by (c.slack, pattern.size - c.passed)
decreasing_by exact next?_less short next

end Cursor

/-- Letter case is ignored for ASCII letters alone. -/
def fold (ignoreCase : Bool) (s : String) : List Char :=
  if ignoreCase then s.toList.map Char.toLower else s.toList

def like (text pattern : String) (ignoreCase : Bool) : Bool :=
  (Cursor.start (fold ignoreCase text).toArray (fold ignoreCase pattern).toArray).run

end MathScript.Wildcard
