import MathScript.Proofs.Scanning

/-!
How far a number reaches. It is read to the end of the longest text of a number that stands there,
and reading goes on behind it. Only a point with digits is read on over a second point, and is no
number then.
-/

namespace MathScript

/-- A text starts like a number: with a digit, or with a point and a digit behind it. -/
def StartsNumber : List Char → Prop
  | [] => False
  | c :: cs => c.isDigit = true ∨ c = '.' ∧ Piece.startsWith Char.isDigit cs = true

/-- The longest of the texts of numbers that a text starts with. -/
structure Longest (text rest : List Char) : Prop where
  numeral : Numeral text
  front : text <+: rest
  longest : ∀ {other : List Char}, Numeral other → other <+: rest → other.length ≤ text.length

/-- Digits between a point that nothing stands in front of and another point. -/
inductive TwoPoints : List Char → Prop
  | mk {ds : List Char} (digits : Digits ds) (present : ds ≠ []) (more : List Char) :
      TwoPoints ('.' :: (ds ++ '.' :: more))

section

variable {c : Char} {cs ds run rest tail exponent : List Char}

/-! ### Digits and exponents in front of a text -/

theorem exists_digits (cs : List Char) : ∃ run rest, cs = run ++ rest ∧ Digits run ∧
    ∀ c ∈ rest.head?, c.isDigit = false := by
  have within : ((cs ++ []).takeWhile Char.isDigit).length ≤ cs.length := by
    rw [List.append_nil]
    exact Piece.length_takeWhile_le _ _
  obtain ⟨run, rest, rfl, all, stops⟩ := exists_run within
  rw [List.append_nil] at stops
  exact ⟨run, rest, rfl, all, stops⟩

/-- Digits that a text starts with are all that it starts with, or nothing comes behind them. -/
theorem digits_front (digits : Digits ds) (ends : ∀ c ∈ tail.head?, c.isDigit = false)
    (all : Digits run) (stops : ∀ c ∈ rest.head?, c.isDigit = false)
    (front : ds ++ tail <+: run ++ rest) :
    tail = [] ∧ ds.length ≤ run.length ∨ ds = run ∧ tail <+: rest := by
  induction ds generalizing run with
  | nil =>
      cases run with
      | nil => exact .inr ⟨rfl, front⟩
      | cons r run =>
          cases tail with
          | nil => exact .inl ⟨rfl, Nat.zero_le _⟩
          | cons t tail =>
              obtain ⟨rfl, -⟩ := List.cons_prefix_cons.mp front
              exact absurd (all t List.mem_cons_self) (by simp [ends t rfl])
  | cons d ds ih =>
      have digit := digits d List.mem_cons_self
      cases run with
      | nil =>
          obtain ⟨more, rfl⟩ := front
          exact absurd (stops d rfl) (by simp [digit])
      | cons r run =>
          obtain ⟨rfl, later⟩ := List.cons_prefix_cons.mp front
          have inner := ih (fun c inside => digits c (List.mem_cons_of_mem _ inside))
            (fun c inside => all c (List.mem_cons_of_mem _ inside)) later
          rcases inner with ⟨none, shorter⟩ | ⟨rfl, behind⟩
          · exact .inl ⟨none, Nat.succ_le_succ shorter⟩
          · exact .inr ⟨rfl, behind⟩

theorem Exponent.head (raised : Exponent exponent) :
    ∀ c ∈ exponent.head?, c.isDigit = false ∧ c ≠ '.' := by
  simpa using raised.digitless (.inl rfl)

theorem Exponent.take (cs : List Char) : Exponent (cs.take (Piece.exponentLength cs)) := by
  match cs with
  | [] => exact .none
  | [c] => exact .none
  | mark :: sign :: cs =>
      have digits : ∀ cs : List Char, Digits (cs.takeWhile Char.isDigit) := fun cs c inside =>
        List.all_eq_true.mp List.all_takeWhile c inside
      have taken : ∀ cs : List Char, cs.take (cs.takeWhile Char.isDigit).length =
          cs.takeWhile Char.isDigit := fun cs =>
        (List.prefix_iff_eq_take.mp (List.takeWhile_prefix _)).symm
      rw [Piece.exponentLength_cons]
      split
      next marked =>
        split
        next signed =>
          split
          · exact .none
          next some =>
            rw [List.take_succ_cons, List.take_succ_cons, taken]
            have signs : [sign] = [] ∨ [sign] = ['+'] ∨ [sign] = ['-'] := by simpa using signed
            exact .some marked signs (digits cs) (mt List.length_eq_zero_iff.mpr some)
        next unsigned =>
          split
          · exact .none
          next some =>
            rw [List.take_succ_cons, taken]
            have present := mt List.length_eq_zero_iff.mpr some
            exact .some marked (.inl rfl) (digits (sign :: cs)) present
      · exact .none

/-- No exponent that a text starts with is longer than the one that is read. -/
theorem Exponent.length_le (raised : Exponent exponent) (front : exponent <+: cs) :
    exponent.length ≤ Piece.exponentLength cs := by
  cases raised with
  | none => exact Nat.zero_le _
  | @some mark sign ds marked signed digits present =>
      obtain ⟨more, rfl⟩ := front
      have taken : ds.length ≤ ((ds ++ more).takeWhile Char.isDigit).length := by
        rw [List.takeWhile_append_of_pos digits, List.length_append]
        exact Nat.le_add_right _ _
      have positive := List.length_pos_iff.mpr present
      rcases signed with rfl | signed
      · obtain ⟨d, ds, rfl⟩ := List.exists_cons_of_ne_nil present
        have digit := digits d List.mem_cons_self
        have unsigned : ¬ (d = '+' ∨ d = '-') := by
          rintro (rfl | rfl) <;> cases digit
        simp only [List.nil_append, List.cons_append] at taken ⊢
        rw [Piece.exponentLength_cons, if_pos marked, if_neg unsigned, if_neg (by omega)]
        exact Nat.succ_le_succ taken
      · obtain ⟨s, rfl, plus⟩ : ∃ s, sign = [s] ∧ (s = '+' ∨ s = '-') := by
          rcases signed with rfl | rfl <;> simp
        simp only [List.nil_append, List.cons_append]
        rw [Piece.exponentLength_cons, if_pos marked, if_pos plus, if_neg (by omega)]
        exact Nat.add_le_add_right taken 2

/-! ### The longest number -/

theorem Longest.whole (all : Digits run) (present : run ≠ [])
    (stops : ∀ c ∈ rest.head?, c.isDigit = false) (pointless : ∀ c ∈ rest.head?, c ≠ '.') :
    Longest (run ++ rest.take (Piece.exponentLength rest)) (run ++ rest) := by
  refine ⟨?_, (List.prefix_append_right_inj run).mpr (List.take_prefix _ _), ?_⟩
  · simpa using Numeral.mk all .none (Exponent.take rest) (.inl present)
  · intro other numeral front
    cases numeral with
    | @mk whole fraction exponent digits fractional raised some =>
        have ends : ∀ c ∈ (fraction ++ exponent).head?, c.isDigit = false := by
          simpa using fractional.digitless raised (.inl rfl)
        rw [List.append_assoc] at front ⊢
        rcases digits_front digits ends all stops front with ⟨none, shorter⟩ | ⟨rfl, later⟩
        · rw [none]
          simp only [List.length_append, List.length_nil]
          omega
        · cases fractional with
          | none =>
              have length := raised.length_le later
              have within := Piece.exponentLength_le rest
              simp only [List.length_append, List.length_nil, List.length_take]
              omega
          | some behind =>
              obtain ⟨more, rfl⟩ := later
              exact absurd rfl (pointless '.' rfl)

theorem Longest.point (all : Digits run) (behind : Digits ds) (present : run ≠ [] ∨ ds ≠ [])
    (stops : ∀ c ∈ rest.head?, c.isDigit = false) :
    Longest (run ++ '.' :: (ds ++ rest.take (Piece.exponentLength rest)))
      (run ++ '.' :: (ds ++ rest)) := by
  have point : ∀ c ∈ ('.' :: (ds ++ rest)).head?, c.isDigit = false := by
    rintro _ ⟨⟩
    rfl
  refine ⟨?_, ?_, ?_⟩
  · have some : run ≠ [] ∨ 1 < ('.' :: ds).length :=
      present.imp_right fun some => Nat.succ_lt_succ (List.length_pos_iff.mpr some)
    simpa using Numeral.mk all (.some behind) (Exponent.take rest) some
  · refine (List.prefix_append_right_inj run).mpr (List.cons_prefix_cons.mpr ⟨rfl, ?_⟩)
    exact (List.prefix_append_right_inj ds).mpr (List.take_prefix _ _)
  · intro other numeral front
    have within := Piece.exponentLength_le rest
    cases numeral with
    | @mk whole fraction exponent digits fractional raised some =>
        have ends : ∀ c ∈ (fraction ++ exponent).head?, c.isDigit = false := by
          simpa using fractional.digitless raised (.inl rfl)
        rw [List.append_assoc] at front ⊢
        simp only [List.length_append, List.length_cons, List.length_take]
        rcases digits_front digits ends all point front with ⟨none, shorter⟩ | ⟨rfl, later⟩
        · have nothing := List.append_eq_nil_iff.mp none
          rw [nothing.1, nothing.2, List.length_nil]
          omega
        · cases fractional with
          | none =>
              -- An exponent does not start with a point.
              have nothing : exponent = [] := by
                cases exponent with
                | nil => rfl
                | cons e exponent =>
                    obtain ⟨rfl, -⟩ := List.cons_prefix_cons.mp later
                    exact absurd rfl (raised.head '.' rfl).2
              rw [nothing, List.length_nil]
              omega
          | @some fs inner =>
              obtain ⟨-, fraction⟩ := List.cons_prefix_cons.mp later
              have last : ∀ c ∈ exponent.head?, c.isDigit = false := fun c first =>
                (raised.head c first).1
              rcases digits_front inner last behind stops fraction with ⟨rfl, shorter⟩ | ⟨rfl, e⟩
              · simp only [List.length_cons, List.length_nil]
                omega
              · have length := raised.length_le e
                simp only [List.length_cons]
                omega

/-- What is read where a number starts is the longest number there, but for a second point. -/
theorem Longest.read (starts : StartsNumber (c :: cs)) (single : ¬ TwoPoints (c :: cs)) :
    Longest (c :: cs.take (Piece.numberLength cs)) (c :: cs) := by
  obtain ⟨run, rest, rfl, all, stops⟩ := exists_digits cs
  by_cases point : ∃ more, rest = '.' :: more
  · obtain ⟨more, rfl⟩ := point
    rcases starts with digit | ⟨rfl, behind⟩
    · obtain ⟨ds, rest, rfl, digits, stops⟩ := exists_digits more
      have whole : Digits (c :: run) := List.forall_mem_cons.mpr ⟨digit, all⟩
      have length : Piece.numberLength (run ++ '.' :: (ds ++ rest)) =
          (run ++ '.' :: ds).length + Piece.exponentLength rest := by
        rw [Piece.numberLength_point all, takeWhile_stops digits stops, List.drop_left]
        simp
      have longest := Longest.point whole digits (.inl (List.cons_ne_nil c run)) stops
      have same : run ++ '.' :: (ds ++ rest) = (run ++ '.' :: ds) ++ rest := by simp
      rw [length, same, List.take_length_add_append]
      simpa using longest
    · -- Digits with a point on either side.
      refine absurd (TwoPoints.mk all ?_ more) single
      rintro rfl
      cases behind
  · have pointless : ∀ c ∈ rest.head?, c ≠ '.' := by
      intro c first
      obtain ⟨more, rfl⟩ := List.head?_eq_some_iff.mp first
      rintro rfl
      exact point ⟨more, rfl⟩
    have length := Piece.numberLength_whole all stops fun c first =>
      beq_eq_false_iff_ne.mpr (pointless c first)
    rw [length, List.take_length_add_append]
    rcases starts with digit | ⟨rfl, behind⟩
    · have whole : Digits (c :: run) := List.forall_mem_cons.mpr ⟨digit, all⟩
      exact Longest.whole whole (List.cons_ne_nil c run) stops pointless
    · have present : run ≠ [] := by
        rintro rfl
        cases rest with
        | nil => cases behind
        | cons d rest => exact absurd behind (by simpa [Piece.startsWith] using stops d rfl)
      have nothing : Digits [] := by simp [Digits]
      exact Longest.point nothing all (.inr present) stops

/-! ### Two points -/

theorem TwoPoints.starts (points : TwoPoints rest) : StartsNumber rest := by
  cases points with
  | mk digits present more =>
      obtain ⟨d, ds, rfl⟩ := List.exists_cons_of_ne_nil present
      exact .inr ⟨rfl, digits d List.mem_cons_self⟩

/-- The digits up to a second point are the longest number there. What is read goes on behind that
point, and no number is written so. -/
theorem TwoPoints.read (points : TwoPoints (c :: cs)) :
    Piece.numberContent (c :: cs.take (Piece.numberLength cs)) =
        .fault (.invalidNumber (String.ofList (c :: cs.take (Piece.numberLength cs)))) ∧
      ∃ text, Longest text (c :: cs) ∧
        text.length < (c :: cs.take (Piece.numberLength cs)).length := by
  cases points with
  | @mk ds digits present more =>
      have nothing : Digits [] := by simp [Digits]
      have point : ∀ c ∈ ('.' :: more).head?, c.isDigit = false := by
        rintro _ ⟨⟩
        rfl
      have behind := Longest.point nothing digits (.inr present) point
      obtain ⟨n, length⟩ : ∃ n, Piece.numberLength (ds ++ '.' :: more) = ds.length + (n + 1) :=
        ⟨_, by rw [Piece.numberLength_point digits, Nat.add_assoc, Nat.add_right_comm]⟩
      have short : Piece.exponentLength ('.' :: more) = 0 := by
        cases more with
        | nil => rfl
        | cons c more => rw [Piece.exponentLength_cons, if_neg (by decide)]
      rw [short] at behind
      rw [length, List.take_length_add_append, List.take_succ_cons]
      refine ⟨?_, _, behind, ?_⟩
      · have point : ∀ c ∈ ('.' :: more.take n).head?, c.isDigit = false := by
          rintro _ ⟨⟩
          rfl
        have unread : Decimal.unsigned? ('.' :: (ds ++ '.' :: more.take n)) = none := by
          simp [Decimal.unsigned?, takeWhile_stops digits point, dropWhile_stops digits point,
            Decimal.exponent?]
        have unnamed : Decimal.named? ('.' :: (ds ++ '.' :: more.take n)) = none := by
          have other : ∀ name : String, name.toList.head? ≠ some '.' →
              String.ofList (('.' :: (ds ++ '.' :: more.take n)).map Char.toLower) ≠ name := by
            rintro _ head rfl
            exact head (by rw [String.toList_ofList]; rfl)
          rw [Decimal.named?, if_neg (not_or.mpr ⟨other _ (by decide), other _ (by decide)⟩),
            if_neg (other _ (by decide))]
        have read : Decimal.read? ('.' :: (ds ++ '.' :: more.take n)) = none := by
          rw [Decimal.read?, Decimal.magnitude?, unread]
          · exact unnamed
          all_goals simp
        rw [Piece.numberContent, read]
      · simp

end

/-! ### What is read at a place -/

/-- Behind some pieces of a text a stretch of its rest is read as one piece. What that is stands
where the stretch starts, and reading goes on right behind the stretch. -/
structure ReadAs (source : List Char) (before : List Piece) (rest text : List Char)
    (content : Content) : Prop where
  stretch : text <+: rest
  pieces : Piece.split source =
    before ++ ⟨text, content⟩ :: Piece.split (rest.drop text.length)
  lexemes : ∀ implicit, Lexeme.read implicit source =
    Lexeme.ofPieces implicit 0 before ++
      Lexeme.ofPieces implicit (utf8Length (before.flatMap Piece.text))
        (⟨text, content⟩ :: Piece.split (rest.drop text.length))

theorem Lexeme.ofPieces_append (implicit : Bool) (position : Nat) (before : List Piece)
    {after : List Piece} (plain : Piece.startsFactor after = false) :
    ofPieces implicit position (before ++ after) = ofPieces implicit position before ++
      ofPieces implicit (position + utf8Length (before.flatMap Piece.text)) after := by
  induction before generalizing position with
  | nil => rfl
  | cons p before ih =>
      have sign : product (position + utf8Length p.text) p (before ++ after) =
          product (position + utf8Length p.text) p before := by
        cases before with
        | nil =>
            rw [product, List.nil_append, plain]
            rfl
        | cons q before => rfl
      rw [List.cons_append, ofPieces, ofPieces, ih, sign, List.flatMap_cons, utf8Length_append,
        Nat.add_assoc]
      simp only [List.append_assoc]

theorem scan_number {c : Char} {cs : List Char} (starts : StartsNumber (c :: cs)) :
    Piece.scan c cs = (Piece.numberLength cs,
      Piece.numberContent (c :: cs.take (Piece.numberLength cs))) := by
  have others : isBlank c = false ∧ c ≠ '#' ∧ c ≠ '/' := by
    rcases starts with digit | ⟨rfl, -⟩
    · exact ⟨isBlank_digit digit, digit_ne digit rfl, digit_ne digit rfl⟩
    · decide
  have begins : (c.isDigit || (c == '.' && Piece.startsWith Char.isDigit cs)) = true := by
    rcases starts with digit | ⟨rfl, behind⟩
    · rw [digit, Bool.true_or]
    · rw [behind]
      rfl
  simp [Piece.scan, others, begins]

theorem readAs_number {source : List Char} {before : List Piece} {c : Char} {cs : List Char}
    (here : Piece.split source = before ++ Piece.split (c :: cs))
    (starts : StartsNumber (c :: cs)) :
    ReadAs source before (c :: cs) (c :: cs.take (Piece.numberLength cs))
      (Piece.numberContent (c :: cs.take (Piece.numberLength cs))) := by
  have plain : Piece.startsFactor (Piece.split (c :: cs)) = false := by
    have other : (Identifier.starts c || c == '(') = false := by
      refine Bool.eq_false_iff.mpr fun factor => ?_
      rcases Bool.or_eq_true_iff.mp factor with letter | parenthesis
      · rcases starts with digit | ⟨rfl, -⟩
        · rw [isDigit_starts letter] at digit
          cases digit
        · cases letter
      · obtain rfl := beq_iff_eq.mp parenthesis
        rcases starts with digit | ⟨same, -⟩
        · cases digit
        · cases same
    rw [Piece.split_cons]
    exact other
  have split : Piece.split (c :: cs) = ⟨c :: cs.take (Piece.numberLength cs),
      Piece.numberContent (c :: cs.take (Piece.numberLength cs))⟩ ::
        Piece.split ((c :: cs).drop (c :: cs.take (Piece.numberLength cs)).length) := by
    rw [Piece.split_cons, scan_number starts, List.length_cons, List.length_take,
      Nat.min_eq_left (Piece.numberLength_le cs), List.drop_succ_cons]
  refine ⟨List.cons_prefix_cons.mpr ⟨rfl, List.take_prefix _ _⟩, by rw [here, split],
    fun implicit => ?_⟩
  rw [Lexeme.read, here, Lexeme.ofPieces_append implicit 0 before plain, Nat.zero_add, ← split]

theorem scan_invalid {c : Char} {cs : List Char} {text : String}
    (faulty : (Piece.scan c cs).2 = .fault (.invalidNumber text)) : TwoPoints (c :: cs) := by
  have starts : StartsNumber (c :: cs) := by
    unfold Piece.scan at faulty
    split at faulty
    · cases faulty
    split at faulty
    · cases faulty
    split at faulty
    · split at faulty <;> cases faulty
    split at faulty
    next begins => simpa [StartsNumber] using begins
    split at faulty
    · simp only [Piece.wordContent] at faulty
      split at faulty <;> cases faulty
    split at faulty
    · split at faulty <;> cases faulty
    · split at faulty <;> cases faulty
  refine Classical.byContradiction fun single => ?_
  obtain ⟨x, value⟩ := (Longest.read starts single).numeral.read
  rw [scan_number starts, Piece.numberContent, value] at faulty
  cases faulty

/-- A number that cannot be read is one with a second point. -/
theorem exists_twoPoints {implicit : Bool} {position : Nat} {source : List Char} {l : Lexeme}
    {text : String} (inside : l ∈ Lexeme.ofPieces implicit position (Piece.split source))
    (faulty : l.content = .error (.invalidNumber text)) :
    ∃ before rest, Piece.split source = before ++ Piece.split rest ∧ TwoPoints rest := by
  induction source using Piece.split.induct generalizing position with
  | case1 => simp [Piece.split, Lexeme.ofPieces] at inside
  | case2 c cs n content scanned ih =>
      have first := Piece.split_cons c cs
      rw [scanned] at first
      rw [first, Lexeme.ofPieces] at inside
      rcases List.mem_append.mp inside with front | later
      · refine ⟨[], c :: cs, rfl, ?_⟩
        rcases List.mem_append.mp front with here | sign
        · cases content with
          | skip => cases here
          | token t =>
              rw [List.mem_singleton.mp here] at faulty
              cases faulty
          | fault cause =>
              rw [List.mem_singleton.mp here] at faulty
              cases faulty
              exact scan_invalid (congrArg Prod.snd scanned)
        · -- A sign that is put in is a token.
          unfold Lexeme.product at sign
          split at sign
          · split at sign
            · rw [List.mem_singleton.mp sign] at faulty
              cases faulty
            · cases sign
          · cases sign
      · obtain ⟨before, rest, same, points⟩ := ih later
        exact ⟨_ :: before, rest, by rw [first, same, List.cons_append], points⟩

/-- Numbers are read by the longest match, but for those with a second point. Wherever reading a
text has come to a digit, or to a point and a digit, there is a longest number, and it can be read.
It is the item there, and reading goes on right behind it, exactly if it is not the digits of a
point that a second point follows; then more is taken, which is no number. And no text is said to
hold an invalid number where there is no such place. -/
theorem numbers_longest_iff (source : List Char) :
    (∀ (before : List Piece) (rest : List Char), Piece.split source = before ++ Piece.split rest →
      StartsNumber rest → ∃ text x, Longest text rest ∧ Decimal.read? text = some x ∧
        (ReadAs source before rest text (.token (.number x)) ↔ ¬ TwoPoints rest) ∧
        (TwoPoints rest → ∃ longer, text.length < longer.length ∧
          ReadAs source before rest longer (.fault (.invalidNumber (String.ofList longer))))) ∧
    ∀ implicit : Bool, (∃ l ∈ Lexeme.read implicit source, ∃ text : String,
        l.content = .error (.invalidNumber text)) ↔
      ∃ before rest, Piece.split source = before ++ Piece.split rest ∧ TwoPoints rest := by
  refine ⟨fun before rest here starts => ?_, fun implicit => ⟨?_, ?_⟩⟩
  · obtain ⟨c, cs, rfl⟩ : ∃ c cs, rest = c :: cs :=
      List.exists_cons_of_ne_nil (by rintro rfl; exact starts)
    have read := readAs_number here starts
    by_cases points : TwoPoints (c :: cs)
    · obtain ⟨invalid, text, longest, longer⟩ := points.read
      obtain ⟨x, value⟩ := longest.numeral.read
      rw [invalid] at read
      refine ⟨text, x, longest, value, ⟨fun asNumber => ?_, absurd points⟩,
        fun _ => ⟨_, longer, read⟩⟩
      have same := List.append_cancel_left (read.pieces.symm.trans asNumber.pieces)
      cases (List.cons.inj same).1
    · have longest := Longest.read starts points
      obtain ⟨x, value⟩ := longest.numeral.read
      rw [Piece.numberContent, value] at read
      exact ⟨_, x, longest, value, ⟨fun _ => points, fun _ => read⟩, fun points' =>
        absurd points' points⟩
  · rintro ⟨l, inside, text, faulty⟩
    exact exists_twoPoints inside faulty
  · rintro ⟨before, rest, here, points⟩
    obtain ⟨c, cs, rfl⟩ : ∃ c cs, rest = c :: cs := by
      cases points
      exact ⟨_, _, rfl⟩
    have read := readAs_number here points.starts
    rw [points.read.1] at read
    refine ⟨⟨utf8Length (before.flatMap Piece.text), .error (.invalidNumber (String.ofList
      (c :: cs.take (Piece.numberLength cs))))⟩, ?_, _, rfl⟩
    rw [read.lexemes implicit]
    simp [Lexeme.ofPieces, Lexeme.ofContent]

/-- A point behind a number starts a number of its own. An exponent without digits is none. -/
theorem numbers_longest_iff_of_version :
    ∃ before : List Piece, before.map Piece.text = ["v".toList, " ".toList, "1.2".toList] ∧
      Piece.split "v 1.2.3e+x".toList = before ++ Piece.split ".3e+x".toList ∧
      ∃ x, ReadAs "v 1.2.3e+x".toList before ".3e+x".toList ".3".toList (.token (.number x)) := by
  have here : Piece.split "v 1.2.3e+x".toList = [⟨"v".toList, Piece.wordContent "v"⟩,
      ⟨" ".toList, .skip⟩, ⟨"1.2".toList, Piece.numberContent "1.2".toList⟩] ++
        Piece.split ".3e+x".toList := by
    have word := Piece.split_cons 'v' " 1.2.3e+x".toList
    have blank := Piece.split_cons ' ' "1.2.3e+x".toList
    have number := Piece.split_cons '1' ".2.3e+x".toList
    exact word.trans (congrArg (_ :: ·) (blank.trans (congrArg (_ :: ·) number)))
  have starts : StartsNumber ".3e+x".toList := .inr ⟨rfl, rfl⟩
  have single : ¬ TwoPoints ".3e+x".toList := by
    generalize same : ".3e+x".toList = rest
    rintro ⟨digits, present, more⟩
    have second : '.' ∈ "3e+x".toList := by
      rw [show "3e+x".toList = _ from (List.cons.inj same).2]
      simp
    exact absurd second (by decide)
  obtain ⟨text, x, -, -, read, -⟩ := (numbers_longest_iff _).1 _ _ here starts
  have asNumber := read.mpr single
  have pieces := List.append_cancel_left (here.symm.trans asNumber.pieces)
  have chars : ".3e+x".toList = '.' :: "3e+x".toList := rfl
  rw [chars, Piece.split_cons] at pieces
  obtain rfl : ".3".toList = text := congrArg Piece.text (List.cons.inj pieces).1
  exact ⟨_, rfl, here, x, asNumber⟩

/-- `.5.5` is one item, which is no number. -/
example : (Piece.split ".5.5".toList).map Piece.text = [".5.5".toList] := by decide +kernel

end MathScript
