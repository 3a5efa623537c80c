import MathScript.Proofs.Spans

/-!
What the steps of a reader take. Where the text can be cut a step does not fail, and what it takes
from there are as many characters as a piece of the text has.
-/

namespace MathScript

/-- What is left of a text from a position on. -/
def Left (source : List Char) (position : Nat) (cs : List Char) : Prop :=
  ∃ front, source = front ++ cs ∧ utf8Length front = position

namespace Left

variable {source cs : List Char} {position : Nat}

theorem start (source : List Char) : Left source 0 source := ⟨[], rfl, rfl⟩

theorem cut (left : Left source position cs) :
    ∃ front, cutAt? source position = some (front, cs) := by
  obtain ⟨front, rfl, rfl⟩ := left
  exact ⟨front, cutAt?_append front cs⟩

theorem boundary (left : Left source position cs) : Boundary source position := by
  obtain ⟨front, whole, length⟩ := left
  exact ⟨front, cs, whole, length⟩

theorem length (left : Left source position cs) :
    position + utf8Length cs = utf8Length source := by
  obtain ⟨front, rfl, rfl⟩ := left
  exact (utf8Length_append front cs).symm

theorem append {front : List Char} (left : Left source position (front ++ cs)) :
    Left source (position + utf8Length front) cs := by
  obtain ⟨before, rfl, rfl⟩ := left
  exact ⟨before ++ front, (List.append_assoc ..).symm, utf8Length_append before front⟩

theorem drop (left : Left source position cs) (n : Nat) :
    Left source (position + utf8Length (cs.take n)) (cs.drop n) := by
  rw [← List.take_append_drop n cs] at left
  exact left.append

theorem behind {c : Char} (left : Left source position (c :: cs)) :
    Left source (position + c.utf8Size) cs := by
  have one := left.drop 1
  rwa [List.take_succ_cons, utf8Length_cons] at one

end Left

namespace Scan

/-- From a position on, with `cs` left, a step takes `n` characters and gives `a`. -/
def Takes {α : Type} (x : Scan α) (position : Nat) (cs : List Char) (n : Nat) (a : α) : Prop :=
  x position = some (a, position + utf8Length (cs.take n))

section

variable {α β σ : Type} {x : Scan α} {f : α → Scan β} {p n m : Nat} {cs : List Char} {a : α} {b : β}

theorem takes_pure (a : α) (p : Nat) (cs : List Char) : Takes (pure a) p cs 0 a := rfl

theorem Takes.bind (first : Takes x p cs n a)
    (second : Takes (f a) (p + utf8Length (cs.take n)) (cs.drop n) m b) :
    Takes (x >>= f) p cs (n + m) b := by
  change (x p).bind (fun result => f result.1 result.2) = _
  rw [first, Option.bind_some, List.take_add, utf8Length_append, ← Nat.add_assoc]
  exact second

/-- A step that only looks. -/
theorem Takes.look (first : Takes x p cs 0 a) (second : Takes (f a) p cs m b) :
    Takes (x >>= f) p cs m b := by
  have both : Takes (x >>= f) p cs (0 + m) b := first.bind second
  rwa [Nat.zero_add] at both

theorem Takes.map (first : Takes x p cs n a) (second : f a = pure b) :
    Takes (x >>= f) p cs n b := by
  refine first.bind (m := 0) ?_
  rw [second]
  exact takes_pure b _ _

end

variable {source : List Char} {position start : Nat} {cs : List Char}

/-! ### Looking and moving -/

theorem takes_get (position : Nat) (cs : List Char) :
    Takes (get : Scan Nat) position cs 0 position := rfl

theorem takes_lift {α : Type} {x : Option α} {a : α} (given : x = some a) (position : Nat)
    (cs : List Char) : Takes (liftM x : Scan α) position cs 0 a := by
  subst given
  rfl

theorem takes_rest (left : Left source position cs) : Takes (rest source) position cs 0 cs := by
  obtain ⟨front, cut⟩ := left.cut
  refine (takes_get position cs).look ?_
  exact (takes_lift cut position cs).map rfl

theorem takes_peek (left : Left source position cs) :
    Takes (peek source) position cs 0 cs.head? :=
  (takes_rest left).map rfl

theorem takes_peekNth (left : Left source position cs) (n : Nat) :
    Takes (peekNth source n) position cs 0 cs[n]? :=
  (takes_rest left).map rfl

theorem takes_move {bytes n : Nat} (length : bytes = utf8Length (cs.take n)) :
    Takes (move bytes) position cs n () := by
  subst length
  rfl

theorem takes_finish (left : Left source position cs) :
    Takes (finish source) position cs cs.length () := by
  change some ((), utf8Length source) = _
  rw [List.take_length, left.length]

theorem takes_bump {c : Char} (left : Left source position (c :: cs)) :
    Takes (bump source) position (c :: cs) 1 (some c) := by
  refine (takes_peek left).look ?_
  exact (takes_move (by simp [utf8Length])).map rfl

theorem takes_bump_end (left : Left source position []) :
    Takes (bump source) position [] 0 none :=
  (takes_peek left).look (takes_pure none position [])

theorem takes_follow {c : Char} (left : Left source position (c :: cs)) :
    Takes (follow source c) position (c :: cs) 1 true := by
  refine (takes_peek left).look ?_
  rw [List.head?_cons, if_pos rfl]
  exact (takes_bump left).map rfl

theorem takes_follow_other {c : Char} (left : Left source position cs)
    (other : ∀ tail, cs = c :: tail → False) : Takes (follow source c) position cs 0 false := by
  refine (takes_peek left).look ?_
  rw [if_neg fun first => (List.head?_eq_some_iff.mp first).elim other]
  exact takes_pure false position cs

/-- What was taken since a position is the text from there. -/
theorem takes_slice {front : List Char} (left : Left source start (front ++ cs)) :
    Takes (slice source start) (start + utf8Length front) cs 0 front := by
  obtain ⟨before, cut⟩ := left.cut
  have inner : cutAt? (front ++ cs) (start + utf8Length front - start) = some (front, cs) := by
    rw [Nat.add_sub_cancel_left, cutAt?_append]
  have within : start ≤ start + utf8Length front := Nat.le_add_right _ _
  refine (takes_get _ cs).look ?_
  rw [guard, if_pos within]
  refine (takes_pure () _ cs).look ?_
  refine (takes_lift cut _ cs).look ?_
  exact (takes_lift inner _ cs).map rfl

/-! ### Loops -/

section

variable {α σ : Type} {round : σ → Scan (σ ⊕ α)} {s s' : σ} {n m : Nat} {a : α}

theorem takes_loop_done (last : Takes (round s) position cs n (.inr a)) :
    Takes (loop source round s) position cs n a := by
  rw [Takes, loop, last]

theorem takes_loop_round (left : Left source position cs)
    (first : Takes (round s) position cs n (.inl s')) (on : cs.take n ≠ [])
    (rounds : Takes (loop source round s') (position + utf8Length (cs.take n)) (cs.drop n) m a) :
    Takes (loop source round s) position cs (n + m) a := by
  have forward : 0 < utf8Length (cs.take n) := by
    obtain ⟨c, taken, some⟩ := List.exists_cons_of_ne_nil on
    rw [some]
    exact utf8Length_pos c taken
  have within := (left.drop n).length
  have progress : position < position + utf8Length (cs.take n) ∧
      position + utf8Length (cs.take n) ≤ utf8Length source := by omega
  rw [Takes, loop, first]
  simp only [progress, and_self, if_true]
  rw [rounds, List.take_add, utf8Length_append, ← Nat.add_assoc]

end

theorem takes_bumpWhile (p : Char → Bool) (left : Left source position cs) :
    Takes (bumpWhile source p) position cs (cs.takeWhile p).length () := by
  induction cs generalizing position with
  | nil =>
      refine takes_loop_done ((takes_peek left).look ?_)
      exact takes_pure _ position []
  | cons c cs ih =>
      cases holds : p c with
      | true =>
          have further : Takes (bumpWhile source p) (position + utf8Length [c]) cs _ () :=
            ih (left.drop 1)
          rw [List.takeWhile_cons_of_pos holds, List.length_cons, Nat.add_comm]
          refine takes_loop_round left ?_ (List.cons_ne_nil c []) further
          refine (takes_peek left).look ?_
          rw [List.head?_cons, Option.any_some, holds, if_pos rfl]
          exact (takes_bump left).map rfl
      | false =>
          rw [List.takeWhile_cons_of_neg (Bool.eq_false_iff.mp holds)]
          refine takes_loop_done ((takes_peek left).look ?_)
          rw [List.head?_cons, Option.any_some, holds, if_neg Bool.false_ne_true]
          exact takes_pure _ position _

end Scan

namespace Scan

open Piece

variable {source : List Char} {position : Nat} {c : Char} {cs : List Char}

/-! ### Blanks and comments -/

theorem takes_skipLine (left : Left source position cs) :
    Takes (skipLine source) position cs (lineLength cs) () := by
  refine (takes_rest left).look ?_
  rcases line_cases cs with ⟨single, first⟩ | ⟨body, rest, rfl, single, first⟩
  · rw [first, lineLength_last single]
    exact takes_finish left
  · rw [first, lineLength_body single]
    refine takes_move ?_
    have taken : (body ++ '\n' :: rest).take (body.length + 1) = body ++ ['\n'] :=
      take_marked body ['\n'] rest
    rw [taken, utf8Length_append]
    rfl

theorem takes_skipOne_blank (left : Left source position (c :: cs)) (blank : isBlank c = true) :
    Takes (skipOne source) position (c :: cs) 1 (.inl ()) := by
  refine (takes_peek left).look ?_
  dsimp only [List.head?_cons]
  rw [if_pos blank]
  exact (takes_bump left).map rfl

theorem takes_skipOne_line (left : Left source position (c :: cs))
    (marked : c = '#' ∨ c = '/' ∧ startsWith (· == '/') cs = true) :
    Takes (skipOne source) position (c :: cs) (lineLength cs + 1) (.inl ()) := by
  have length : lineLength (c :: cs) = lineLength cs + 1 := by
    have other : decide (c ≠ '\n') = true := by
      rcases marked with rfl | ⟨rfl, -⟩ <;> rfl
    have front : (c :: cs).takeWhile (· ≠ '\n') = c :: cs.takeWhile (· ≠ '\n') :=
      List.takeWhile_cons_of_pos other
    rw [lineLength, lineLength, front]
    simp only [List.length_cons, Nat.add_lt_add_iff_right]
    split <;> rfl
  have line := takes_skipLine left
  rw [length] at line
  refine (takes_peek left).look ?_
  rcases marked with rfl | ⟨rfl, second⟩
  · exact line.map rfl
  · obtain ⟨more, rfl⟩ : ∃ more, cs = '/' :: more := by
      cases cs with
      | nil => cases second
      | cons d more => exact ⟨more, by rw [beq_iff_eq.mp second]⟩
    exact (takes_peekNth left 1).look (line.map rfl)

theorem cutAt?_two (cs : List Char) : cutAt? ('/' :: '*' :: cs) 2 = some (['/', '*'], cs) :=
  cutAt?_append ['/', '*'] cs

theorem takes_skipOne_block {body rest : List Char}
    (left : Left source position ('/' :: '*' :: (body ++ '*' :: '/' :: rest)))
    (first : firstAt? ['*', '/'] (body ++ '*' :: '/' :: rest) = some (utf8Length body)) :
    Takes (skipOne source) position ('/' :: '*' :: (body ++ '*' :: '/' :: rest))
      (body.length + 2 + 2) (.inl ()) := by
  refine (takes_peek left).look ?_
  refine (takes_peekNth left 1).look ?_
  refine (takes_get position _).look ?_
  refine (takes_rest left).look ?_
  refine (takes_lift (cutAt?_two _) position _).look ?_
  dsimp only
  rw [first]
  have taken : (body ++ '*' :: '/' :: rest).take (body.length + 2) = body ++ ['*', '/'] :=
    take_marked body ['*', '/'] rest
  refine (takes_move ?_).map rfl
  rw [List.take_succ_cons, List.take_succ_cons, taken, utf8Length_cons, utf8Length_cons,
    utf8Length_append]
  change 2 + utf8Length body + 2 = 1 + (1 + (utf8Length body + 2))
  omega

theorem takes_skipOne_open (left : Left source position ('/' :: '*' :: cs))
    (first : firstAt? ['*', '/'] cs = none) :
    Takes (skipOne source) position ('/' :: '*' :: cs) (cs.length + 2)
      (.inr (some ⟨position, .error .unterminatedComment⟩)) := by
  refine (takes_peek left).look ?_
  refine (takes_peekNth left 1).look ?_
  refine (takes_get position _).look ?_
  refine (takes_rest left).look ?_
  refine (takes_lift (cutAt?_two cs) position _).look ?_
  dsimp only
  rw [first]
  exact (takes_finish left).map rfl

theorem takes_skipOne_end (left : Left source position []) :
    Takes (skipOne source) position [] 0 (.inr none) :=
  (takes_peek left).look (takes_pure _ position [])

theorem takes_skipOne_plain (left : Left source position (c :: cs)) (plain : Plain c cs) :
    Takes (skipOne source) position (c :: cs) 0 (.inr none) := by
  obtain ⟨unblank, line, block⟩ := plain
  refine (takes_peek left).look ?_
  dsimp only [List.head?_cons]
  rw [if_neg (Bool.eq_false_iff.mp unblank), if_neg fun hash => line (.inl hash)]
  split
  next slash =>
    have other : ∀ d, startsWith (· == d) cs = false → (c :: cs)[1]? ≠ some d := by
      rintro d none second
      cases cs with
      | nil => cases second
      | cons e cs =>
          cases second
          simp [startsWith] at none
    refine (takes_peekNth left 1).look ?_
    split
    next second => exact absurd second (other '/' (Bool.eq_false_iff.mpr fun starts =>
      line (.inr ⟨slash, starts⟩)))
    next second => exact absurd second (other '*' (Bool.eq_false_iff.mpr fun starts =>
      block ⟨slash, starts⟩))
    next => exact takes_pure _ position _
  next => exact takes_pure _ position _

/-- What one round of skipping makes of the piece that stands there. -/
theorem skipOne_cases (left : Left source position (c :: cs)) :
    (∃ n, scan c cs = (n, .skip) ∧
      Takes (skipOne source) position (c :: cs) (n + 1) (.inl ())) ∨
    (scan c cs = (cs.length, .fault .unterminatedComment) ∧
      Takes (skipOne source) position (c :: cs) (cs.length + 1)
        (.inr (some ⟨position, .error .unterminatedComment⟩))) ∨
    (Plain c cs ∧ Takes (skipOne source) position (c :: cs) 0 (.inr none)) := by
  rcases place_cases c cs with blank | line | ⟨more, rfl, rfl⟩ | plain
  · exact .inl ⟨0, scan_blank blank, takes_skipOne_blank left blank⟩
  · exact .inl ⟨_, scan_line line, takes_skipOne_line left line⟩
  · rcases block_cases more with ⟨unclosed, first⟩ | ⟨body, rest, rfl, -, closed, first⟩
    · exact .inr (.inl ⟨scan_open unclosed, takes_skipOne_open left first⟩)
    · exact .inl ⟨_, scan_block closed, takes_skipOne_block left first⟩
  · exact .inr (.inr ⟨plain, takes_skipOne_plain left plain⟩)

/-- Where skipping comes to from some place on, behind `front`: to the end, to a token or to a
comment that is not closed. -/
inductive Skipping (source : List Char) (position : Nat) (cs front : List Char) : List Char → Prop
  | ended (skip : Takes (skipTrivia source) position cs front.length none) :
      Skipping source position cs front []
  | plain {c : Char} {rest : List Char} (plain : Plain c rest)
      (skip : Takes (skipTrivia source) position cs front.length none) :
      Skipping source position cs front (c :: rest)
  | blocked {c : Char} {rest : List Char}
      (scanned : scan c rest = (rest.length, .fault .unterminatedComment))
      (skip : Takes (skipTrivia source) position cs cs.length
        (some ⟨position + utf8Length front, .error .unterminatedComment⟩)) :
      Skipping source position cs front (c :: rest)

theorem takes_skipTrivia (left : Left source position cs) :
    ∃ skips rest, Skipped skips ∧ cs = skips.flatMap text ++ rest ∧
      split cs = skips ++ split rest ∧
        Skipping source position cs (skips.flatMap text) rest := by
  induction cs using split.induct generalizing position with
  | case1 =>
      exact ⟨[], [], .nil, rfl, rfl, .ended (takes_loop_done (takes_skipOne_end left))⟩
  | case2 c cs n content scanned ih =>
      rcases skipOne_cases left with ⟨m, skip, first⟩ | ⟨open', first⟩ | ⟨plain, first⟩
      · obtain ⟨rfl, rfl⟩ := Prod.mk.inj (scanned.symm.trans skip)
        obtain ⟨skips, rest, skipped, whole, cut, skipping⟩ := ih (left.drop (n + 1))
        have within : n ≤ cs.length := by simpa [scanned] using scan_le c cs
        have count : (cs.take n).length = n := List.length_take_of_le within
        have round {m : Nat} {l : Option Lexeme}
            (rounds : Takes (skipTrivia source) (position + utf8Length (c :: cs.take n))
              (cs.drop n) m l) :
            Takes (skipTrivia source) position (c :: cs) (n + 1 + m) l :=
          takes_loop_round left first (List.cons_ne_nil _ _) rounds
        have length : (((⟨c :: cs.take n, .skip⟩ : Piece) :: skips).flatMap text).length =
            n + 1 + (skips.flatMap text).length := by
          rw [List.flatMap_cons, List.length_append, List.length_cons, count]
        refine ⟨⟨c :: cs.take n, .skip⟩ :: skips, rest, skipped.cons rfl, ?_, ?_, ?_⟩
        · rw [List.flatMap_cons, List.append_assoc, ← whole, List.cons_append,
            List.take_append_drop]
        · rw [split_cons, scanned, cut, List.cons_append]
        · cases skipping with
          | ended skip =>
              refine .ended ?_
              rw [length]
              exact round skip
          | plain plain skip =>
              refine .plain plain ?_
              rw [length]
              exact round skip
          | blocked scanned skip =>
              refine .blocked scanned ?_
              have all : (c :: cs).length = n + 1 + (cs.drop n).length := by
                rw [List.length_cons, List.length_drop]
                omega
              rw [all, List.flatMap_cons, utf8Length_append, ← Nat.add_assoc]
              exact round skip
      · refine ⟨[], c :: cs, .nil, rfl, rfl, .blocked open' ?_⟩
        exact takes_loop_done first
      · exact ⟨[], c :: cs, .nil, rfl, rfl, .plain plain (takes_loop_done first)⟩

end Scan

end MathScript
