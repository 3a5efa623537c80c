import MathScript.Proofs.Scans

/-!
What the steps for tokens take. Where neither a blank nor a comment stands, a reader takes the
characters of the piece that stands there, and tells what that is.
-/

namespace MathScript.Scan

open Piece

variable {source : List Char} {position start : Nat} {c : Char} {cs : List Char}

/-! ### Numbers -/

/-- An exponent counts with its mark and sign where there is a first digit. -/
theorem digits_counted (cs : List Char) (n : Nat) :
    (if (cs.takeWhile Char.isDigit).length = 0 then 0
      else (cs.takeWhile Char.isDigit).length + n) =
    if cs[0]?.any Char.isDigit = true then n + (cs.takeWhile Char.isDigit).length else 0 := by
  cases cs with
  | nil => rfl
  | cons c cs => cases digit : c.isDigit <;> simp [digit, Nat.add_comm]

theorem takes_firstFigure (left : Left source position cs) :
    Takes (firstFigure source) position cs 0 (if isSign cs[1]? then cs[2]? else cs[1]?) := by
  refine (takes_peekNth left 1).look ?_
  split
  · exact takes_peekNth left 2
  · exact takes_pure _ position cs

theorem takes_skipSign (left : Left source position (c :: cs)) :
    Takes (skipSign source) position (c :: cs) (if isSign (some c) then 1 else 0) () := by
  refine (takes_peek left).look ?_
  rw [List.head?_cons]
  split
  · exact (takes_bump left).map rfl
  · exact takes_pure () position _

/-- An exponent as long as it is here: its mark, a sign and the digits. -/
theorem exponentLength_eq (cs : List Char) : exponentLength cs =
    if (cs.head? = some 'e' ∨ cs.head? = some 'E') ∧
        (if isSign cs[1]? then cs[2]? else cs[1]?).any Char.isDigit = true then
      1 + ((if isSign cs[1]? then 1 else 0) +
        ((cs.drop (if isSign cs[1]? then 2 else 1)).takeWhile Char.isDigit).length)
    else 0 := by
  match cs with
  | [] => rfl
  | [mark] => simp [exponentLength, isSign]
  | mark :: sign :: cs =>
      have marked : ((mark :: sign :: cs).head? = some 'e' ∨
          (mark :: sign :: cs).head? = some 'E') ↔ (mark = 'e' ∨ mark = 'E') := by simp
      have signed : isSign (mark :: sign :: cs)[1]? = decide (sign = '+' ∨ sign = '-') := by
        simp only [isSign, Bool.decide_or]
        rfl
      rw [exponentLength_cons, signed]
      simp only [marked, decide_eq_true_eq]
      by_cases marks : mark = 'e' ∨ mark = 'E'
      · by_cases signs : sign = '+' ∨ sign = '-'
        · simp only [marks, signs, if_true, true_and, ← Nat.add_assoc]
          exact digits_counted cs 2
        · simp only [marks, signs, if_true, if_false, true_and, Nat.zero_add]
          exact digits_counted (sign :: cs) 1
      · simp only [marks, if_false, false_and]

theorem takes_exponent (left : Left source position cs) :
    Takes (exponent source) position cs (exponentLength cs) () := by
  rw [exponentLength_eq]
  refine (takes_peek left).look ?_
  by_cases marked : cs.head? = some 'e' ∨ cs.head? = some 'E'
  · rw [if_pos marked]
    refine (takes_firstFigure left).look ?_
    cases digit : (if isSign cs[1]? then cs[2]? else cs[1]?).any Char.isDigit with
    | false =>
        rw [if_neg Bool.false_ne_true, if_neg fun both => Bool.false_ne_true both.2]
        exact takes_pure () position cs
    | true =>
        rw [if_pos rfl, if_pos ⟨marked, rfl⟩]
        obtain ⟨mark, sign, more, rfl⟩ : ∃ mark sign more, cs = mark :: sign :: more := by
          match cs, digit with
          | mark :: sign :: more, _ => exact ⟨mark, sign, more, rfl⟩
        refine (takes_bump left).bind ?_
        refine (takes_skipSign (left.drop 1)).bind ?_
        have shift : (mark :: sign :: more).drop (if isSign (some sign) then 2 else 1) =
            (sign :: more).drop (if isSign (some sign) then 1 else 0) := by
          split <;> rfl
        change Takes _ _ _ (((mark :: sign :: more).drop
          (if isSign (some sign) then 2 else 1)).takeWhile Char.isDigit).length ()
        rw [shift]
        exact takes_bumpWhile Char.isDigit ((left.drop 1).drop _)
  · rw [if_neg marked, if_neg fun both => marked both.1]
    exact takes_pure () position cs

/-- The length of a point with the digits behind it. -/
def fractionLength : List Char → Nat
  | '.' :: cs => (cs.takeWhile Char.isDigit).length + 1
  | _ => 0

theorem takes_fraction (left : Left source position cs) :
    Takes (fraction source) position cs (fractionLength cs) () := by
  refine (takes_peek left).look ?_
  by_cases point : ∃ more, cs = '.' :: more
  · obtain ⟨more, rfl⟩ := point
    rw [List.head?_cons, if_pos rfl, fractionLength, Nat.add_comm]
    exact (takes_bump left).bind (takes_bumpWhile Char.isDigit (left.drop 1))
  · have none : fractionLength cs = 0 := by
      unfold fractionLength
      split
      next more => exact absurd ⟨more, rfl⟩ point
      next => rfl
    rw [if_neg fun first => point (List.head?_eq_some_iff.mp first), none]
    exact takes_pure () position cs

theorem numberLength_eq (cs : List Char) : numberLength cs =
    (cs.takeWhile Char.isDigit).length +
      (fractionLength (cs.drop (cs.takeWhile Char.isDigit).length) +
        exponentLength ((cs.drop (cs.takeWhile Char.isDigit).length).drop
          (fractionLength (cs.drop (cs.takeWhile Char.isDigit).length)))) := by
  rw [List.drop_drop, ← Nat.add_assoc]
  unfold numberLength fractionLength
  rfl

theorem takes_figures (left : Left source position cs) :
    Takes (figures source) position cs (numberLength cs) () := by
  rw [numberLength_eq]
  refine (takes_bumpWhile Char.isDigit left).bind ?_
  refine (takes_fraction (left.drop _)).bind ?_
  exact takes_exponent ((left.drop _).drop _)

/-! ### Names -/

/-- What was taken behind the first character is a text with it. -/
theorem takes_text {x : Scan Unit} {n : Nat} (left : Left source start (c :: cs))
    (taken : Takes x (start + c.utf8Size) cs n ()) (g : List Char → Content) :
    Takes (do x; return g (← slice source start)) (start + c.utf8Size) cs n
      (g (c :: cs.take n)) := by
  have whole : Left source start (c :: cs.take n ++ cs.drop n) := by
    rwa [List.cons_append, List.take_append_drop]
  have text := takes_slice whole
  rw [utf8Length_cons, ← Nat.add_assoc] at text
  exact taken.bind (m := 0) (text.map rfl)

theorem takes_number (left : Left source start (c :: cs)) :
    Takes (number source start) (start + c.utf8Size) cs (numberLength cs)
      (numberContent (c :: cs.take (numberLength cs))) :=
  takes_text left (takes_figures left.behind) numberContent

theorem takes_word (left : Left source start (c :: cs)) :
    Takes (word source start) (start + c.utf8Size) cs (cs.takeWhile Identifier.continues).length
      (wordContent (String.ofList (c :: cs.takeWhile Identifier.continues))) := by
  have taken := takes_text left (takes_bumpWhile Identifier.continues left.behind)
    fun text => wordContent (String.ofList text)
  rwa [Stretch.take_takeWhile] at taken

/-! ### Texts in quotes -/

/-- How long a text in quotes is from here on, and what it is behind `value`. -/
def quotedFrom (value : String) (cs : List Char) : Nat × Content :=
  match quoted? cs with
  | some (more, n) => (n, .token (.text (value ++ String.ofList more)))
  | none => (cs.length, .fault .unterminatedString)

theorem quotedFrom_append (value : String) (front : List Char) {d : Char}
    (step : quoted? (front ++ cs) = (quoted? cs).map fun found =>
      (d :: found.1, found.2 + front.length)) :
    quotedFrom value (front ++ cs) = (front.length + (quotedFrom (value.push d) cs).1,
      (quotedFrom (value.push d) cs).2) := by
  have pushed (more : List Char) : value ++ String.ofList (d :: more) =
      value.push d ++ String.ofList more := by
    rw [← String.toList_inj]
    simp
  rw [quotedFrom, quotedFrom, step]
  cases quoted? cs with
  | none => rw [Option.map_none, List.length_append]
  | some found =>
      dsimp only [Option.map_some]
      rw [pushed, Nat.add_comm]

/-- What a backslash makes of a character. -/
def escaped (c : Char) : Char := if c = 'n' then '\n' else if c = 't' then '\t' else c

theorem takes_quoteOne_escaped (left : Left source position ('\\' :: c :: cs)) (value : String) :
    Takes (quoteOne source value) position ('\\' :: c :: cs) 2 (.inl (value.push (escaped c))) := by
  refine (takes_bump left).bind (m := 1) ?_
  refine (takes_bump left.behind).map ?_
  unfold escaped
  split
  next same =>
    cases same
    rfl
  next same =>
    cases same
    rfl
  next newline tab same =>
    cases same
    rw [if_neg newline, if_neg tab]
  next same => cases same

theorem takes_quoteOne_plain (left : Left source position (c :: cs)) (value : String)
    (other : c ≠ '\'') (other' : c ≠ '\\') :
    Takes (quoteOne source value) position (c :: cs) 1 (.inl (value.push c)) := by
  refine (takes_bump left).map ?_
  split
  next same => exact absurd (Option.some.inj same) other
  next same => exact absurd (Option.some.inj same) other'
  next same =>
    cases same
    rfl
  next same => cases same

theorem takes_quoting (left : Left source position cs) (value : String) :
    Takes (loop source (quoteOne source) value) position cs (quotedFrom value cs).1
      (quotedFrom value cs).2 := by
  induction cs using quoted?.induct generalizing position value with
  | case1 =>
      exact takes_loop_done ((takes_bump_end left).map rfl)
  | case2 c cs ih =>
      rw [show '\\' :: c :: cs = ['\\', c] ++ cs from rfl, quotedFrom_append value ['\\', c] rfl]
      refine takes_loop_round left (takes_quoteOne_escaped left value) (List.cons_ne_nil _ _) ?_
      exact ih (left.drop 2) _
  | case3 =>
      refine takes_loop_done ((takes_bump left).bind (m := 0) ?_)
      exact (takes_bump_end left.behind).map rfl
  | case4 cs escaped last =>
      have ended : quotedFrom value ('\'' :: cs) = (1, .token (.text value)) := by
        rw [quotedFrom, quoted?.eq_4 _ _ escaped last, if_pos rfl]
        simp
      rw [ended]
      exact takes_loop_done ((takes_bump left).map rfl)
  | case5 c cs escaped last other ih =>
      have plain : c ≠ '\\' := by
        rintro rfl
        cases cs with
        | nil => exact last rfl rfl
        | cons d cs => exact escaped _ _ rfl rfl
      have step : quoted? ([c] ++ cs) = (quoted? cs).map fun found =>
          (c :: found.1, found.2 + [c].length) := by
        rw [List.singleton_append, quoted?.eq_4 _ _ escaped last, if_neg other]
        rfl
      rw [← List.singleton_append, quotedFrom_append value [c] step]
      refine takes_loop_round left (takes_quoteOne_plain left value other plain)
        (List.cons_ne_nil _ _) ?_
      exact ih (left.drop 1) _

theorem takes_quoted {value : List Char} {n : Nat} (left : Left source position cs)
    (closed : quoted? cs = some (value, n)) :
    Takes (quoted source) position cs n (.token (.text (String.ofList value))) := by
  have taken := takes_quoting left ""
  rw [quotedFrom, closed] at taken
  dsimp only at taken
  rwa [String.empty_append] at taken

theorem takes_quoted_open (left : Left source position cs) (unclosed : quoted? cs = none) :
    Takes (quoted source) position cs cs.length (.fault .unterminatedString) := by
  have taken := takes_quoting left ""
  rwa [quotedFrom, unclosed] at taken

/-! ### Symbols -/

theorem takes_either (left : Left source position (c :: cs)) (yes no : Sym) :
    Takes (either source c yes no) position (c :: cs) 1 (.token (.sym yes)) :=
  (takes_follow left).map rfl

theorem takes_either_other (left : Left source position cs) (other : ∀ tail, cs = c :: tail → False)
    (yes no : Sym) : Takes (either source c yes no) position cs 0 (.token (.sym no)) :=
  (takes_follow_other left other).map rfl

theorem takes_swap (left : Left source position ('=' :: '>' :: cs)) :
    Takes (symbol source '<') position ('=' :: '>' :: cs) 2 (.token (.sym .swap)) := by
  refine (takes_rest left).look ?_
  rw [if_pos (by simp)]
  have both : Takes (move 2) position ('=' :: '>' :: cs) 2 () := takes_move rfl
  exact both.map rfl

/-- Where no swap stands, a `<` is read with what comes next. -/
theorem takes_less {n : Nat} {s : Sym} (left : Left source position cs)
    (other : ∀ tail, cs = '=' :: '>' :: tail → False)
    (taken : Takes (do
      if ← follow source '=' then return .token (.sym (.op .le))
      else either source '>' (.op .ne) (.op .lt)) position cs n (.token (.sym s))) :
    Takes (symbol source '<') position cs n (.token (.sym s)) := by
  refine (takes_rest left).look ?_
  rw [if_neg]
  · exact taken
  · intro starts
    obtain ⟨tail, whole⟩ := List.isPrefixOf_iff_prefix.mp starts
    exact other tail whole.symm

theorem takes_symbol {s : Sym} {n : Nat} (left : Left source position cs)
    (found : symbol? c cs = some (s, n)) :
    Takes (symbol source c) position cs n (.token (.sym s)) := by
  unfold symbol? at found
  split at found <;> cases found
  case h_18 => exact takes_swap left
  case h_19 tail other =>
    refine takes_less left (fun more same => other more (List.cons.inj same).2) ?_
    exact (takes_follow left).map rfl
  case h_20 more =>
    have equal (tail : List Char) : '>' :: more = '=' :: tail → False :=
      fun same => absurd (List.cons.inj same).1 (by decide)
    refine takes_less left (fun tail => equal ('>' :: tail)) ?_
    exact (takes_follow_other left equal).look (takes_either left _ _)
  case h_21 other equal greater =>
    refine takes_less left other ?_
    exact (takes_follow_other left equal).look (takes_either_other left greater _ _)
  all_goals
    first
      | exact takes_either left _ _
      | exact takes_either_other left ‹_› _ _
      | exact takes_pure _ position cs

theorem takes_symbol_none (none : symbol? c cs = none) :
    Takes (symbol source c) position cs 0 (.fault (.unexpectedChar c)) := by
  unfold symbol? at none
  split at none <;> cases none
  unfold symbol
  split
  all_goals first | contradiction | exact takes_pure _ position cs

/-! ### Tokens -/

theorem any_head? (p : Char → Bool) (cs : List Char) : cs.head?.any p = startsWith p cs := by
  cases cs <;> rfl

theorem startsFactor_split (cs : List Char) :
    startsFactor (split cs) = startsWith (fun c => Identifier.starts c || c == '(') cs := by
  cases cs with
  | nil => rw [split]; rfl
  | cons c cs => rw [split_cons]; rfl

theorem takes_product? (implicit : Bool) (left : Left source position cs) :
    Takes (product? source implicit) position cs 0
      (if implicit && startsFactor (split cs) then some ⟨position, .ok (.sym (.op .times))⟩
        else none) := by
  refine (takes_peek left).look ?_
  rw [any_head?, startsFactor_split]
  split
  · exact (takes_get position cs).map rfl
  · exact takes_pure _ position cs

/-- What is told of a piece behind its first character: what it is, a product sign that is put in
behind it, and whether it is a text in quotes that is not closed. -/
def told (implicit : Bool) (position : Nat) (cs : List Char) (piece : Nat × Content) :
    Content × Option Lexeme × Bool :=
  (piece.2,
    if implicit && (isNumber ⟨[], piece.2⟩ && startsFactor (split (cs.drop piece.1))) then
      some ⟨position + utf8Length (cs.take piece.1), .ok (.sym (.op .times))⟩
    else none,
    piece.2 = .fault .unterminatedString)

theorem told_of_token (implicit : Bool) (t : Token) (n : Nat) :
    told implicit position cs (n, .token t) = (.token t,
      if implicit && (t.isNumber && startsFactor (split (cs.drop n))) then
        some ⟨position + utf8Length (cs.take n), .ok (.sym (.op .times))⟩
      else none, false) := rfl

theorem told_token {implicit : Bool} {t : Token} (other : t.isNumber = false) (n : Nat) :
    told implicit position cs (n, .token t) = (.token t, none, false) := by
  rw [told_of_token, other, Bool.false_and, Bool.and_false, if_neg Bool.false_ne_true]

theorem told_fault (implicit : Bool) (cause : Cause) (n : Nat) :
    told implicit position cs (n, .fault cause) =
      (.fault cause, none, decide (Content.fault cause = .fault .unterminatedString)) := by
  have number : isNumber ⟨[], .fault cause⟩ = false := rfl
  rw [told, number, Bool.false_and, Bool.and_false, if_neg Bool.false_ne_true]

theorem takes_token (implicit : Bool) (plain : Plain c cs) (left : Left source start (c :: cs)) :
    Takes (token source implicit start c) (start + c.utf8Size) cs (scan c cs).1
      (told implicit (start + c.utf8Size) cs (scan c cs)) := by
  have behind := left.behind
  rw [scan, if_neg (Bool.eq_false_iff.mp plain.blank), if_neg plain.line, if_neg plain.block]
  refine (takes_peek behind).look ?_
  rw [any_head?]
  split
  next =>
    dsimp only
    refine (takes_number left).bind (m := 0) ?_
    rcases numberContent_cases (c :: cs.take (numberLength cs)) with ⟨x, same⟩ | same
    · rw [same]
      exact (takes_product? implicit (behind.drop _)).map rfl
    · rw [same, told_fault]
      exact takes_pure _ _ _
  next =>
    split
    next =>
      obtain ⟨t, same, other⟩ := wordContent_token
        (String.ofList (c :: cs.takeWhile Identifier.continues))
      have word := takes_word left
      dsimp only
      rw [same] at word ⊢
      rw [told_token other]
      exact word.map rfl
    next =>
      split
      next =>
        cases closed : quoted? cs with
        | none =>
            dsimp only
            rw [told_fault]
            exact (takes_quoted_open behind closed).map rfl
        | some text =>
            dsimp only
            rw [told_token rfl]
            exact (takes_quoted behind closed).map rfl
      next =>
        cases found : symbol? c cs with
        | none =>
            dsimp only
            rw [told_fault]
            exact (takes_symbol_none found).map rfl
        | some symbol =>
            dsimp only
            rw [told_token rfl]
            exact (takes_symbol behind found).map rfl

end MathScript.Scan
