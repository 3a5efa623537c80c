import MathScript.Proofs.Extents
import MathScript.Proofs.Spelling

/-!
How far a piece of a text reaches. Where it ends is decided inside of it or by what stands right
behind it. So it is scanned to its end whatever stands behind it, as long as that goes on as before
up to some blank or up to its end.
-/

namespace MathScript

/-- A text, and the same up to some place where it ends or goes on with a blank. -/
inductive Broken : List Char → List Char → Prop
  | here (cs : List Char) {c : Char} (blank : isBlank c = true) (ds : List Char) : Broken cs (c :: ds)
  | stop (cs : List Char) : Broken cs []
  | behind (c : Char) {cs ds : List Char} (broken : Broken cs ds) : Broken (c :: cs) (c :: ds)

namespace Broken

variable {cs ds : List Char}

theorem append (front : List Char) (broken : Broken cs ds) : Broken (front ++ cs) (front ++ ds) := by
  induction front with
  | nil => exact broken
  | cons c front ih => exact .behind c ih

/-- What a text does not start with it does not start with where it is broken, but for blanks. -/
theorem head {p : Char → Bool} (broken : Broken cs ds) (other : ∀ c, isBlank c = true → p c = false)
    (stops : ∀ c ∈ cs.head?, p c = false) : ∀ c ∈ ds.head?, p c = false := by
  cases broken with
  | here _ blank =>
      rintro _ ⟨⟩
      exact other _ blank
  | stop => exact nofun
  | behind c broken => exact stops

end Broken

theorem isDigit_blank {c : Char} (blank : isBlank c = true) : c.isDigit = false :=
  Bool.eq_false_iff.mpr fun digit => by
    rw [isBlank_digit digit] at blank
    cases blank

theorem beq_blank {c d : Char} (blank : isBlank c = true) (other : isBlank d = false) :
    (c == d) = false := by
  refine beq_eq_false_iff_ne.mpr ?_
  rintro rfl
  rw [blank] at other
  cases other

theorem continues_blank {c : Char} (blank : isBlank c = true) : Identifier.continues c = false := by
  refine Bool.eq_false_iff.mpr fun continues => ?_
  simp only [Identifier.continues, Bool.or_eq_true, beq_iff_eq, Char.isAlphanum] at continues
  rcases continues with (rfl | rfl) | letter | digit
  · cases blank
  · cases blank
  · have starts : Identifier.starts c = true := by rw [Identifier.starts, letter, Bool.or_true]
    rw [isBlank_starts starts] at blank
    cases blank
  · rw [isBlank_digit digit] at blank
    cases blank

/-- A run of characters that ends in front of a text or where the text starts. -/
theorem exists_run {p : Char → Bool} {front cs : List Char}
    (length : ((front ++ cs).takeWhile p).length ≤ front.length) :
    ∃ run rest, front = run ++ rest ∧ (∀ c ∈ run, p c = true) ∧
      ∀ c ∈ (rest ++ cs).head?, p c = false := by
  induction front with
  | nil =>
      refine ⟨[], [], rfl, nofun, fun c first => ?_⟩
      obtain ⟨cs, rfl⟩ := List.head?_eq_some_iff.mp first
      rw [Bool.eq_false_iff]
      intro holds
      simp [holds] at length
  | cons c front ih =>
      cases holds : p c with
      | true =>
          rw [List.cons_append, List.takeWhile_cons_of_pos holds, List.length_cons,
            List.length_cons, Nat.add_le_add_iff_right] at length
          obtain ⟨run, rest, rfl, all, stops⟩ := ih length
          exact ⟨c :: run, rest, rfl, by simpa [holds] using all, stops⟩
      | false =>
          refine ⟨[], c :: front, rfl, nofun, ?_⟩
          rintro _ ⟨⟩
          exact holds

/-- A run that ends where a text starts ends there where the text is broken. -/
theorem takeWhile_broken {p : Char → Bool} {front cs ds : List Char} (broken : Broken cs ds)
    (other : ∀ c, isBlank c = true → p c = false)
    (length : ((front ++ cs).takeWhile p).length = front.length) :
    (front ++ ds).takeWhile p = front ∧ (front ++ cs).takeWhile p = front := by
  obtain ⟨run, rest, rfl, all, stops⟩ := exists_run (Nat.le_of_eq length)
  rw [List.append_assoc, takeWhile_stops all stops] at length
  obtain rfl : rest = [] := List.length_eq_zero_iff.mp (by simpa using length)
  rw [List.nil_append] at stops
  rw [List.append_nil]
  exact ⟨takeWhile_stops all (broken.head other stops), takeWhile_stops all stops⟩

namespace Piece

/-! ### Numbers -/

theorem exponentLength_cons (mark sign : Char) (cs : List Char) :
    exponentLength (mark :: sign :: cs) =
      if mark = 'e' ∨ mark = 'E' then
        if sign = '+' ∨ sign = '-' then
          if (cs.takeWhile Char.isDigit).length = 0 then 0
          else (cs.takeWhile Char.isDigit).length + 2
        else if ((sign :: cs).takeWhile Char.isDigit).length = 0 then 0
        else ((sign :: cs).takeWhile Char.isDigit).length + 1
      else 0 := rfl

/-- Digits that end where a text starts end there where the text is broken. -/
theorem digits_broken {front cs ds : List Char} (broken : Broken cs ds)
    (length : ((front ++ cs).takeWhile Char.isDigit).length = front.length) :
    ((front ++ ds).takeWhile Char.isDigit).length = front.length := by
  rw [(takeWhile_broken broken (fun _ => isDigit_blank) length).1]

/-- Where no exponent starts, none starts when the text is broken. -/
theorem exponentLength_broken_nil {cs ds : List Char} (broken : Broken cs ds)
    (none : exponentLength cs = 0) : exponentLength ds = 0 := by
  cases broken with
  | @here _ c blank ds =>
      cases ds with
      | nil => rfl
      | cons d ds =>
          have mark : ¬ (c = 'e' ∨ c = 'E') := by
            rintro (rfl | rfl) <;> cases blank
          rw [exponentLength_cons, if_neg mark]
  | stop => rfl
  | behind mark broken =>
      cases broken with
      | stop => rfl
      | @here _ c blank ds =>
          have sign : ¬ (c = '+' ∨ c = '-') := by
            rintro (rfl | rfl) <;> cases blank
          rw [exponentLength_cons, if_neg sign]
          simp [isDigit_blank blank]
      | @behind sign cs ds broken =>
          rw [exponentLength_cons] at none ⊢
          split
          next marked =>
            rw [if_pos marked] at none
            split
            next signed =>
              rw [if_pos signed] at none
              have digitless : (([] ++ cs).takeWhile Char.isDigit).length = 0 := by
                split at none
                · assumption
                · cases none
              exact if_pos (digits_broken broken digitless)
            next unsigned =>
              rw [if_neg unsigned] at none
              have digitless : (([] ++ sign :: cs).takeWhile Char.isDigit).length = 0 := by
                split at none
                · assumption
                · cases none
              exact if_pos (digits_broken (.behind sign broken) digitless)
          · rfl

theorem exponentLength_broken {front cs ds : List Char} (broken : Broken cs ds)
    (length : exponentLength (front ++ cs) = front.length) :
    exponentLength (front ++ ds) = front.length := by
  match front with
  | [] => exact exponentLength_broken_nil broken length
  | [mark] =>
      -- A mark alone is no exponent.
      cases cs with
      | nil => cases length
      | cons sign cs =>
          rw [List.singleton_append, exponentLength_cons, List.length_singleton] at length
          split at length
          · split at length <;> split at length <;> omega
          · cases length
  | mark :: sign :: front =>
      rw [List.cons_append, List.cons_append, exponentLength_cons] at length ⊢
      split
      next marked =>
        rw [if_pos marked] at length
        split
        next signed =>
          rw [if_pos signed] at length
          have whole : ((front ++ cs).takeWhile Char.isDigit).length = front.length := by
            split at length
            · cases length
            · simpa using length
          rw [digits_broken broken whole]
          rwa [whole] at length
        next unsigned =>
          rw [if_neg unsigned] at length
          have whole : ((sign :: front ++ cs).takeWhile Char.isDigit).length =
              (sign :: front).length := by
            split at length
            · cases length
            · simpa using length
          rw [← List.cons_append, digits_broken broken whole]
          rwa [← List.cons_append, whole] at length
      next unmarked =>
        rw [if_neg unmarked] at length
        cases length

section

variable {run rest : List Char} (all : ∀ c ∈ run, c.isDigit = true)

include all

/-- A number without a point. -/
theorem numberLength_whole (stops : ∀ c ∈ rest.head?, c.isDigit = false)
    (pointless : ∀ c ∈ rest.head?, (c == '.') = false) :
    numberLength (run ++ rest) = run.length + exponentLength rest := by
  rw [numberLength]
  simp only [takeWhile_stops all stops, List.drop_left]
  cases rest with
  | nil => simp
  | cons c rest =>
      have other : c ≠ '.' := beq_eq_false_iff_ne.mp (pointless c rfl)
      simp [other]

/-- A number with a point. -/
theorem numberLength_point (cs : List Char) : numberLength (run ++ '.' :: cs) =
    run.length + ((cs.takeWhile Char.isDigit).length + 1) +
      exponentLength (cs.drop (cs.takeWhile Char.isDigit).length) := by
  have point : ∀ c ∈ ('.' :: cs).head?, c.isDigit = false := by
    rintro _ ⟨⟩
    rfl
  have dropped : (run ++ '.' :: cs).drop (run.length + ((cs.takeWhile Char.isDigit).length + 1)) =
      cs.drop (cs.takeWhile Char.isDigit).length := by
    rw [List.drop_append]
    simp
  rw [numberLength]
  simp only [takeWhile_stops all point, List.drop_left, dropped]

end

theorem numberLength_broken {front cs ds : List Char} (broken : Broken cs ds)
    (length : numberLength (front ++ cs) = front.length) :
    numberLength (front ++ ds) = front.length := by
  have digitless : ∀ c, isBlank c = true → c.isDigit = false := fun _ => isDigit_blank
  have pointless : ∀ c, isBlank c = true → (c == '.') = false := fun _ blank => beq_blank blank rfl
  have within : ((front ++ cs).takeWhile Char.isDigit).length ≤ front.length := by
    rw [← length, numberLength]
    omega
  obtain ⟨run, rest, rfl, all, stops⟩ := exists_run within
  rw [List.append_assoc] at length ⊢
  have broken' := broken.append rest
  by_cases point : ∃ more, rest ++ cs = '.' :: more
  · obtain ⟨more, starts⟩ := point
    cases rest with
    | nil =>
        -- The point would belong to the number.
        rw [starts, numberLength_point all, List.append_nil] at length
        omega
    | cons c rest =>
        obtain rfl : c = '.' := (List.cons.inj starts).1
        rw [List.cons_append, numberLength_point all, List.length_append, List.length_cons] at length
        obtain ⟨digits, rest, rfl, all', stops'⟩ :=
          exists_run (show ((rest ++ cs).takeWhile Char.isDigit).length ≤ rest.length by omega)
        have stopped := (broken.append rest).head digitless stops'
        rw [List.append_assoc, takeWhile_stops all' stops', List.drop_left, List.length_append]
          at length
        rw [List.cons_append, numberLength_point all, List.append_assoc,
          takeWhile_stops all' stopped, List.drop_left, exponentLength_broken broken (by omega)]
        simp only [List.length_append, List.length_cons]
        omega
  · have other : ∀ c ∈ (rest ++ cs).head?, (c == '.') = false := fun c first => by
      obtain ⟨more, starts⟩ := List.head?_eq_some_iff.mp first
      refine beq_eq_false_iff_ne.mpr ?_
      rintro rfl
      exact point ⟨more, starts⟩
    rw [numberLength_whole all stops other] at length
    rw [numberLength_whole all (broken'.head digitless stops) (broken'.head pointless other),
      exponentLength_broken broken (by simpa using length), List.length_append]

/-! ### Comments and texts in quotes -/

variable {front cs ds : List Char}

/-- A comment that does not reach the end of a text ends with a line end. -/
theorem lineLength_append (some : cs ≠ []) (length : lineLength (front ++ cs) = front.length)
    (ds : List Char) : lineLength (front ++ ds) = front.length := by
  have positive := List.length_pos_iff.mpr some
  have ended : ((front ++ cs).takeWhile (· ≠ '\n')).length + 1 = front.length := by
    rw [lineLength, List.length_append] at length
    split at length <;> omega
  obtain ⟨run, rest, rfl, all, stops⟩ := exists_run (Nat.le_of_succ_le (Nat.le_of_eq ended))
  rw [List.append_assoc, takeWhile_stops all stops, List.length_append, Nat.add_left_cancel_iff]
    at ended
  obtain ⟨c, rfl⟩ := List.length_eq_one_iff.mp ended.symm
  have stops' : ∀ d ∈ ([c] ++ ds).head?, decide (d ≠ '\n') = false := stops
  rw [lineLength, List.append_assoc, takeWhile_stops all stops']
  simp

theorem two_le_closing? {n : Nat} (closed : closing? cs = some n) : 2 ≤ n := by
  induction cs using closing?.induct generalizing n with
  | case1 => cases closed; exact Nat.le_refl 2
  | case2 c cs other ih =>
      rw [closing?] at closed
      · obtain ⟨m, behind, rfl⟩ := Option.map_eq_some_iff.mp closed
        exact Nat.le_succ_of_le (ih behind)
      · exact other
  | case3 => cases closed

/-- A comment ends where it is closed first. -/
theorem closing?_append (closed : closing? (front ++ cs) = some front.length) (ds : List Char) :
    closing? (front ++ ds) = some front.length := by
  induction front with
  | nil => exact absurd (two_le_closing? closed) (by decide)
  | cons c front ih =>
      by_cases ends : ∃ tail, c = '*' ∧ front ++ cs = '/' :: tail
      · obtain ⟨tail, rfl, ends⟩ := ends
        rw [List.cons_append, ends, closing?, Option.some_inj] at closed
        obtain ⟨d, rfl⟩ := List.length_eq_one_iff.mp (Nat.succ.inj closed).symm
        obtain rfl : d = '/' := (List.cons.inj ends).1
        rfl
      · have open' : ∀ tail, c = '*' → front ++ cs = '/' :: tail → False :=
          fun tail star slash => ends ⟨tail, star, slash⟩
        rw [List.cons_append, closing?.eq_2 _ _ open'] at closed
        obtain ⟨m, behind, same⟩ := Option.map_eq_some_iff.mp closed
        obtain rfl : m = front.length := Nat.succ.inj same
        have open'' : ∀ tail, c = '*' → front ++ ds = '/' :: tail → False := by
          cases front with
          | nil => exact absurd (two_le_closing? behind) (by decide)
          | cons d front =>
              intro tail star slash
              exact open' _ star (by rw [List.cons_append, (List.cons.inj slash).1])
        rw [List.cons_append, closing?.eq_2 _ _ open'', ih behind]
        rfl

/-- What is read between quotes is written there. -/
theorem exists_quotes {value : List Char} {n : Nat} (quoted : quoted? cs = some (value, n)) :
    ∃ body rest, cs = body ++ '\'' :: rest ∧ Quotes value body ∧ n = body.length + 1 := by
  induction cs using quoted?.induct generalizing value n with
  | case1 => cases quoted
  | case2 c cs ih =>
      rw [quoted?] at quoted
      obtain ⟨⟨value, n⟩, inner, same⟩ := Option.map_eq_some_iff.mp quoted
      obtain ⟨rfl, rfl⟩ := Prod.mk.inj same
      obtain ⟨body, rest, rfl, quotes, rfl⟩ := ih inner
      refine ⟨'\\' :: c :: body, rest, rfl, ?_, rfl⟩
      split
      next newline =>
        subst newline
        exact .newline quotes
      next other =>
        split
        next tab =>
          subst tab
          exact .tab quotes
        next other' => exact .escaped ⟨other, other'⟩ quotes
  | case3 => cases quoted
  | case4 cs escaped last =>
      rw [quoted?.eq_4 _ _ escaped last, if_pos rfl] at quoted
      obtain ⟨rfl, rfl⟩ := Prod.mk.inj (Option.some.inj quoted)
      exact ⟨[], cs, rfl, .nil, rfl⟩
  | case5 c cs escaped last other ih =>
      rw [quoted?.eq_4 _ _ escaped last, if_neg other] at quoted
      obtain ⟨⟨value, n⟩, inner, same⟩ := Option.map_eq_some_iff.mp quoted
      obtain ⟨rfl, rfl⟩ := Prod.mk.inj same
      obtain ⟨body, rest, rfl, quotes, rfl⟩ := ih inner
      refine ⟨c :: body, rest, rfl, .plain ⟨?_, other⟩ quotes, rfl⟩
      rintro rfl
      cases body with
      | nil => exact escaped _ _ rfl rfl
      | cons d body => exact escaped _ _ rfl rfl

/-- A text in quotes ends with its quote. -/
theorem quoted?_append {value : List Char}
    (quoted : quoted? (front ++ cs) = some (value, front.length)) (ds : List Char) :
    quoted? (front ++ ds) = some (value, front.length) := by
  obtain ⟨body, rest, same, quotes, length⟩ := exists_quotes quoted
  rw [List.append_cons] at same
  obtain ⟨rfl, -⟩ := List.append_inj same (by simpa using length)
  rw [List.append_assoc, length]
  exact quotes.quoted? ds

/-! ### Symbols -/

theorem symbol?_broken {c : Char} {s : Sym} (broken : Broken cs ds)
    (found : symbol? c (front ++ cs) = some (s, front.length)) :
    symbol? c (front ++ ds) = some (s, front.length) := by
  have other : ∀ {cs ds : List Char}, Broken cs ds → ∀ d, isBlank d = false →
      (∀ tail, cs = d :: tail → False) → ∀ tail, ds = d :: tail → False := by
    intro cs ds broken d plain none tail starts
    cases broken with
    | here _ blank =>
        rw [(List.cons.inj starts).1, plain] at blank
        cases blank
    | stop => cases starts
    | behind c broken => exact none _ (by rw [(List.cons.inj starts).1])
  match front with
  | [] =>
      rw [List.nil_append, List.length_nil] at found ⊢
      unfold symbol? at found
      split at found <;> cases found
      all_goals
        rw [symbol?] <;> exact fun _ starts => other broken _ (by decide) ‹_› _ starts
  | [a] =>
      rw [List.singleton_append, List.length_singleton] at found ⊢
      unfold symbol? at found
      split at found <;> cases found
      all_goals
        cases ‹a :: cs = _›
        first
          | rfl
          | rw [symbol?]; exact other broken _ (by decide) ‹_›
  | [a, b] =>
      rw [List.cons_append, List.singleton_append] at found ⊢
      unfold symbol? at found
      split at found <;> cases found
      cases ‹a :: b :: cs = _›
      rfl
  | a :: b :: d :: front =>
      unfold symbol? at found
      split at found <;> cases found

theorem symbol?_none {c : Char} (none : symbol? c cs = none) (ds : List Char) :
    symbol? c ds = Option.none := by
  unfold symbol? at none
  split at none <;> cases none
  rw [symbol?]
  all_goals
    first
      | assumption
      | exact fun _ same => absurd same ‹_›

/-! ### Pieces -/

theorem startsWith_broken {p : Char → Bool} (broken : Broken cs ds)
    (other : ∀ c, isBlank c = true → p c = false) (starts : startsWith p cs = false) :
    startsWith p ds = false := by
  cases broken with
  | here _ blank => exact other _ blank
  | stop => rfl
  | behind c broken => exact starts

theorem startsWith_append (some : front ≠ []) (p : Char → Bool) (cs : List Char) :
    startsWith p (front ++ cs) = startsWith p front := by
  cases front with
  | nil => exact absurd rfl some
  | cons c front => rfl

theorem lineLength_pos (some : cs ≠ []) : 0 < lineLength cs := by
  have positive := List.length_pos_iff.mpr some
  rw [lineLength]
  split <;> omega

theorem numberLength_pos (starts : startsWith Char.isDigit cs = true) : 0 < numberLength cs := by
  cases cs with
  | nil => cases starts
  | cons c cs =>
      have digit : c.isDigit = true := starts
      have taken : 0 < ((c :: cs).takeWhile Char.isDigit).length := by
        rw [List.takeWhile_cons_of_pos digit]
        exact Nat.succ_pos _
      rw [numberLength]
      omega

/-- What is looked at behind the first character belongs to the piece. -/
theorem scan_alone {c : Char} {content : Content} (scanned : scan c cs = (0, content)) :
    (c = '/' → startsWith (· == '/') cs = false ∧ startsWith (· == '*') cs = false) ∧
      (c = '.' → startsWith Char.isDigit cs = false) := by
  have some : ∀ {p : Char → Bool}, startsWith p cs = true → cs ≠ [] := by
    rintro p starts rfl
    cases starts
  have length : (scan c cs).1 = 0 := congrArg Prod.fst scanned
  constructor
  · rintro rfl
    have unblank : isBlank '/' = false := rfl
    have line : startsWith (· == '/') cs = false := by
      refine Bool.eq_false_iff.mpr fun starts => ?_
      have positive := lineLength_pos (some starts)
      have zero : lineLength cs = 0 := by simpa [scan, unblank, starts] using length
      omega
    refine ⟨line, Bool.eq_false_iff.mpr fun starts => ?_⟩
    have empty : cs.length = 0 := by
      simp only [scan, unblank, line, starts] at length
      cases closed : closing? (cs.drop 1) <;> simp_all
    exact some starts (List.length_eq_zero_iff.mp empty)
  · rintro rfl
    have unblank : isBlank '.' = false := rfl
    refine Bool.eq_false_iff.mpr fun starts => ?_
    have positive := numberLength_pos starts
    have zero : numberLength cs = 0 := by simpa [scan, unblank, starts] using length
    omega

/-- A look behind the first character finds the same where the text behind the piece is broken. -/
theorem startsWith_piece {p : Char → Bool} (broken : Broken cs ds)
    (other : ∀ c, isBlank c = true → p c = false) (alone : front = [] → startsWith p cs = false) :
    startsWith p (front ++ ds) = startsWith p (front ++ cs) := by
  cases front with
  | nil =>
      have none := alone rfl
      rw [List.nil_append, List.nil_append, none]
      exact startsWith_broken broken other none
  | cons c front => rfl

private theorem ite_follow {α : Type} {p : Prop} [Decidable p] {a a' b b' r : α}
    (same : (if p then a else b) = r) (yes : p → a = r → a' = r) (no : ¬ p → b = r → b' = r) :
    (if p then a' else b') = r := by
  split
  next holds => exact yes holds (by rwa [if_pos holds] at same)
  next fails => exact no fails (by rwa [if_neg fails] at same)

/-- A piece that is scanned to its end is scanned to its end also where the text behind it is
broken. What reaches the end of a text must be a token, since a comment or a text in quotes might go
on. -/
theorem scan_broken {c : Char} {content : Content} (broken : Broken cs ds)
    (scanned : scan c (front ++ cs) = (front.length, content))
    (ended : (∃ t, content = .token t) ∨ cs ≠ []) :
    scan c (front ++ ds) = (front.length, content) := by
  have alone : front = [] → scan c cs = (0, content) := by
    rintro rfl
    exact scanned
  have line : (c = '/' ∧ startsWith (· == '/') (front ++ ds)) ↔
      (c = '/' ∧ startsWith (· == '/') (front ++ cs)) := and_congr_right fun slash => by
    rw [startsWith_piece broken (fun _ blank => beq_blank blank rfl) fun empty =>
      ((scan_alone (alone empty)).1 slash).1]
  have block : (c = '/' ∧ startsWith (· == '*') (front ++ ds)) ↔
      (c = '/' ∧ startsWith (· == '*') (front ++ cs)) := and_congr_right fun slash => by
    rw [startsWith_piece broken (fun _ blank => beq_blank blank rfl) fun empty =>
      ((scan_alone (alone empty)).1 slash).2]
  have point : (c == '.' && startsWith Char.isDigit (front ++ ds)) =
      (c == '.' && startsWith Char.isDigit (front ++ cs)) := by
    cases dot : c == '.' with
    | false => rfl
    | true =>
        rw [startsWith_piece broken (fun _ => isDigit_blank) fun empty =>
          (scan_alone (alone empty)).2 (beq_iff_eq.mp dot)]
  have unfinished : ∀ {cause : Cause},
      ((front ++ cs).length, Content.fault cause) ≠ (front.length, content) := by
    intro cause same
    obtain ⟨length, rfl⟩ := Prod.mk.inj same
    have none : cs = [] := List.length_eq_zero_iff.mp (by simpa using length)
    exact ended.elim (fun ⟨t, token⟩ => Content.noConfusion token) fun some => some none
  unfold scan at scanned ⊢
  simp only [line, block, point]
  refine ite_follow scanned (fun _ same => same) fun _ scanned => ?_
  refine ite_follow scanned (fun _ same => ?_) fun _ scanned => ?_
  · obtain ⟨length, rfl⟩ := Prod.mk.inj same
    rw [lineLength_append (ended.resolve_left nofun) length]
  refine ite_follow scanned (fun _ same => ?_) fun _ scanned => ?_
  · cases closed : closing? ((front ++ cs).drop 1) with
    | none =>
        rw [closed] at same
        exact absurd same unfinished
    | some n =>
        rw [closed] at same
        obtain ⟨length, rfl⟩ := Prod.mk.inj same
        cases front with
        | nil => cases length
        | cons d front =>
            obtain rfl : n = front.length := Nat.succ.inj length
            have again : closing? ((d :: front ++ ds).drop 1) = some front.length :=
              closing?_append closed ds
            rw [again]
            rfl
  refine ite_follow scanned (fun _ same => ?_) fun _ scanned => ?_
  · obtain ⟨length, same⟩ := Prod.mk.inj same
    rw [numberLength_broken broken length, List.take_left]
    rw [length, List.take_left] at same
    rw [same]
  refine ite_follow scanned (fun _ same => ?_) fun _ scanned => ?_
  · obtain ⟨length, same⟩ := Prod.mk.inj same
    obtain ⟨taken, taken'⟩ := takeWhile_broken broken (fun _ => continues_blank) length
    rw [taken, ← same, taken']
  refine ite_follow scanned (fun _ same => ?_) fun _ scanned => ?_
  · cases quoted : quoted? (front ++ cs) with
    | none =>
        rw [quoted] at same
        exact absurd same unfinished
    | some found =>
        rw [quoted] at same
        obtain ⟨length, rfl⟩ := Prod.mk.inj same
        obtain ⟨value, n⟩ := found
        obtain rfl : n = front.length := length
        rw [quoted?_append quoted]
  · cases found : symbol? c (front ++ cs) with
    | none =>
        rw [found] at scanned
        rw [symbol?_none found]
        exact scanned
    | some sym =>
        rw [found] at scanned
        obtain ⟨length, rfl⟩ := Prod.mk.inj scanned
        obtain ⟨s, n⟩ := sym
        obtain rfl : n = front.length := length
        rw [symbol?_broken broken found]

/-! ### How far a piece reaches -/

theorem length_takeWhile_le (p : Char → Bool) (cs : List Char) :
    (cs.takeWhile p).length ≤ cs.length :=
  (List.takeWhile_sublist p).length_le

theorem lineLength_le (cs : List Char) : lineLength cs ≤ cs.length := by
  have body := length_takeWhile_le (· ≠ '\n') cs
  rw [lineLength]
  split <;> omega

theorem closing?_le {n : Nat} (closed : closing? cs = some n) : n ≤ cs.length := by
  induction cs using closing?.induct generalizing n with
  | case1 tail =>
      cases closed
      simp
  | case2 c cs other ih =>
      rw [closing?.eq_2 _ _ other] at closed
      obtain ⟨m, behind, rfl⟩ := Option.map_eq_some_iff.mp closed
      exact Nat.succ_le_succ (ih behind)
  | case3 => cases closed

theorem exponentLength_le (cs : List Char) : exponentLength cs ≤ cs.length := by
  match cs with
  | [] => exact Nat.le_refl 0
  | [c] => exact Nat.zero_le _
  | mark :: sign :: cs =>
      have signed := length_takeWhile_le Char.isDigit cs
      have unsigned := length_takeWhile_le Char.isDigit (sign :: cs)
      rw [exponentLength_cons]
      simp only [List.length_cons] at unsigned ⊢
      split
      · split <;> split <;> omega
      · exact Nat.zero_le _

theorem numberLength_le (cs : List Char) : numberLength cs ≤ cs.length := by
  obtain ⟨run, rest, rfl, all, stops⟩ :=
    exists_run (show ((cs ++ []).takeWhile Char.isDigit).length ≤ cs.length by
      rw [List.append_nil]
      exact length_takeWhile_le _ _)
  rw [List.append_nil] at stops
  by_cases point : ∃ more, rest = '.' :: more
  · obtain ⟨more, rfl⟩ := point
    have fraction := length_takeWhile_le Char.isDigit more
    have exponent := exponentLength_le (more.drop (more.takeWhile Char.isDigit).length)
    rw [numberLength_point all]
    simp only [List.length_append, List.length_cons, List.length_drop] at exponent ⊢
    omega
  · have exponent := exponentLength_le rest
    rw [numberLength_whole all stops fun c first => by
      obtain ⟨more, rfl⟩ := List.head?_eq_some_iff.mp first
      refine beq_eq_false_iff_ne.mpr ?_
      rintro rfl
      exact point ⟨more, rfl⟩, List.length_append]
    omega

theorem quoted?_le {value : List Char} {n : Nat} (quoted : quoted? cs = some (value, n)) :
    n ≤ cs.length := by
  obtain ⟨body, rest, rfl, -, rfl⟩ := exists_quotes quoted
  simp

theorem symbol?_le {c : Char} {s : Sym} {n : Nat} (found : symbol? c cs = some (s, n)) :
    n ≤ cs.length := by
  unfold symbol? at found
  split at found <;> cases found <;> simp

theorem scan_le (c : Char) (cs : List Char) : (scan c cs).1 ≤ cs.length := by
  unfold scan
  split
  · exact Nat.zero_le _
  split
  · exact lineLength_le cs
  split
  · split
    next closed =>
      have low := two_le_closing? closed
      have high := closing?_le closed
      rw [List.length_drop] at high
      omega
    next => exact Nat.le_refl _
  split
  · exact numberLength_le cs
  split
  · exact length_takeWhile_le _ cs
  split
  · split
    next quoted => exact quoted?_le quoted
    next => exact Nat.le_refl _
  · split
    next found => exact symbol?_le found
    next => exact Nat.zero_le _

end Piece

end MathScript
