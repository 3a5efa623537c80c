import MathScript.Lexeme

/-!
How tokens are spelled. A number is digits with a point and an exponent, a word is an identifier
that is no operator, a text stands in quotes with its backslashes and quotes escaped, everything
else is its symbol. Where spellings stand apart, reading takes every one of them for its token, and
it puts nothing in between and leaves nothing out.
-/

namespace MathScript

/-! ### Spellings -/

def Digits (cs : List Char) : Prop := ∀ c ∈ cs, c.isDigit = true

/-- Nothing, or a point with the digits behind it. -/
inductive Fraction : List Char → Prop
  | none : Fraction []
  | some {ds : List Char} (digits : Digits ds) : Fraction ('.' :: ds)

/-- Nothing, or a mark with the digits behind it, which may have a sign. -/
inductive Exponent : List Char → Prop
  | none : Exponent []
  | some {mark : Char} {sign ds : List Char} (marked : mark = 'e' ∨ mark = 'E')
      (signed : sign = [] ∨ sign = ['+'] ∨ sign = ['-']) (digits : Digits ds)
      (present : ds ≠ []) : Exponent (mark :: (sign ++ ds))

/-- A number as it is written: digits in front of the point or behind it, or both. -/
inductive Numeral : List Char → Prop
  | mk {whole fraction exponent : List Char} (digits : Digits whole)
      (fractional : Fraction fraction) (raised : Exponent exponent)
      (present : whole ≠ [] ∨ 1 < fraction.length) : Numeral (whole ++ fraction ++ exponent)

/-- How characters are written between quotes. Any character but `n` and `t` may have a backslash
in front, a backslash and a quote must have one. -/
inductive Quotes : List Char → List Char → Prop
  | nil : Quotes [] []
  | plain {c : Char} {value body : List Char} (simple : c ≠ '\\' ∧ c ≠ '\'')
      (rest : Quotes value body) : Quotes (c :: value) (c :: body)
  | escaped {c : Char} {value body : List Char} (unnamed : c ≠ 'n' ∧ c ≠ 't')
      (rest : Quotes value body) : Quotes (c :: value) ('\\' :: c :: body)
  | newline {value body : List Char} (rest : Quotes value body) :
      Quotes ('\n' :: value) ('\\' :: 'n' :: body)
  | tab {value body : List Char} (rest : Quotes value body) :
      Quotes ('\t' :: value) ('\\' :: 't' :: body)

/-- What a token may be written as. -/
inductive Spells : List Char → Token → Prop
  | number {text : List Char} {x : Float} (numeral : Numeral text)
      (value : Decimal.read? text = some x) : Spells text (.number x)
  | word {name : String} (identifier : isIdentifier name = true)
      (plain : ∀ op : Op, name ≠ op.symbol) : Spells name.toList (.word name)
  | text {value body : List Char} (quotes : Quotes value body) :
      Spells ('\'' :: (body ++ ['\''])) (.text (String.ofList value))
  | sym (s : Sym) : Spells s.text.toList (.sym s)

/-- What may stand behind a token that stands apart. -/
def Apart (rest : List Char) : Prop := rest = [] ∨ ∃ more, rest = ' ' :: more

/-! ### Characters -/

section

variable {c : Char}

theorem digit_range (digit : c.isDigit = true) : 48 ≤ c.toNat ∧ c.toNat ≤ 57 := by
  simpa [Char.isDigit, UInt32.le_iff_toNat_le] using digit

theorem digit_ne (digit : c.isDigit = true) {d : Char} (other : d.isDigit = false) : c ≠ d := by
  rintro rfl
  rw [digit] at other
  cases other

theorem starts_ne (starts : Identifier.starts c = true) {d : Char}
    (other : Identifier.starts d = false) : c ≠ d := by
  rintro rfl
  rw [starts] at other
  cases other

theorem isBlank_digit (digit : c.isDigit = true) : isBlank c = false := by
  obtain ⟨low, high⟩ := digit_range digit
  simp only [isBlank, Bool.or_eq_false_iff, Bool.and_eq_false_iff, decide_eq_false_iff_not,
    beq_eq_false_iff_ne]
  omega

theorem starts_range (starts : Identifier.starts c = true) :
    65 ≤ c.toNat ∧ c.toNat ≤ 122 := by
  rw [Identifier.starts, Bool.or_eq_true, beq_iff_eq] at starts
  rcases starts with rfl | letter
  · decide
  · change (decide (65 ≤ c.val ∧ c.val ≤ 90) || 97 ≤ c.val && c.val ≤ 122) = true at letter
    simp only [Bool.or_eq_true, Bool.and_eq_true, decide_eq_true_eq,
      UInt32.le_iff_toNat_le] at letter
    change (65 ≤ c.toNat ∧ c.toNat ≤ 90) ∨ (97 ≤ c.toNat ∧ c.toNat ≤ 122) at letter
    omega

theorem isBlank_starts (starts : Identifier.starts c = true) : isBlank c = false := by
  obtain ⟨low, high⟩ := starts_range starts
  simp only [isBlank, Bool.or_eq_false_iff, Bool.and_eq_false_iff, decide_eq_false_iff_not,
    beq_eq_false_iff_ne]
  omega

theorem isDigit_starts (starts : Identifier.starts c = true) : c.isDigit = false := by
  have low := (starts_range starts).1
  refine Bool.eq_false_iff.mpr fun digit => ?_
  have high := (digit_range digit).2
  omega

end

theorem takeWhile_stops {p : Char → Bool} {cs rest : List Char} (all : ∀ c ∈ cs, p c = true)
    (stops : ∀ c ∈ rest.head?, p c = false) : (cs ++ rest).takeWhile p = cs := by
  rw [List.takeWhile_append_of_pos all]
  cases rest with
  | nil => simp
  | cons c rest => simp [stops c rfl]

theorem dropWhile_stops {p : Char → Bool} {cs rest : List Char} (all : ∀ c ∈ cs, p c = true)
    (stops : ∀ c ∈ rest.head?, p c = false) : (cs ++ rest).dropWhile p = rest := by
  rw [List.dropWhile_append_of_pos all]
  cases rest with
  | nil => rfl
  | cons c rest => simp [stops c rfl]

theorem Apart.stops {p : Char → Bool} {rest : List Char} (apart : Apart rest)
    (blank : p ' ' = false) : ∀ c ∈ rest.head?, p c = false := by
  rcases apart with rfl | ⟨more, rfl⟩
  · simp
  · simpa using blank

/-! ### Numbers -/

section

variable {whole fraction exponent text rest : List Char}

theorem Exponent.digitless (raised : Exponent exponent) (apart : Apart rest) :
    ∀ c ∈ (exponent ++ rest).head?, c.isDigit = false ∧ c ≠ '.' := by
  cases raised with
  | none =>
      intro c first
      rcases apart with rfl | ⟨more, rfl⟩
      · cases first
      · cases first
        decide
  | some marked =>
      intro c first
      cases first
      rcases marked with rfl | rfl <;> decide

theorem Fraction.digitless (fractional : Fraction fraction) (raised : Exponent exponent)
    (apart : Apart rest) : ∀ c ∈ (fraction ++ exponent ++ rest).head?, c.isDigit = false := by
  cases fractional with
  | none => exact fun c first => (raised.digitless apart c first).1
  | some digits =>
      intro c first
      cases first
      rfl

theorem exponentLength_append (raised : Exponent exponent) (apart : Apart rest) :
    Piece.exponentLength (exponent ++ rest) = exponent.length := by
  cases raised with
  | none =>
      rcases apart with rfl | ⟨_ | ⟨c, more⟩, rfl⟩
      · rfl
      · rfl
      · simp [Piece.exponentLength]
  | @some mark sign ds marked signed digits present =>
      have taken : (ds ++ rest).takeWhile Char.isDigit = ds :=
        takeWhile_stops digits (apart.stops rfl)
      obtain ⟨d, more, rfl⟩ := List.exists_cons_of_ne_nil present
      have unsigned : d ≠ '+' ∧ d ≠ '-' :=
        ⟨digit_ne (digits d List.mem_cons_self) rfl, digit_ne (digits d List.mem_cons_self) rfl⟩
      rw [List.cons_append] at taken
      rcases signed with rfl | rfl | rfl
      · simp [Piece.exponentLength, marked, unsigned, taken]
      · simp [Piece.exponentLength, marked, taken]
      · simp [Piece.exponentLength, marked, taken]

/-- A number is read to the end of its digits, its point and its exponent. -/
theorem numberLength_append (digits : Digits whole) (fractional : Fraction fraction)
    (raised : Exponent exponent) (apart : Apart rest) :
    Piece.numberLength (whole ++ fraction ++ exponent ++ rest) =
      (whole ++ fraction ++ exponent).length := by
  have taken : (whole ++ (fraction ++ exponent ++ rest)).takeWhile Char.isDigit = whole :=
    takeWhile_stops digits (fractional.digitless raised apart)
  have text_eq : whole ++ fraction ++ exponent ++ rest =
      whole ++ (fraction ++ exponent ++ rest) := by
    simp only [List.append_assoc]
  rw [text_eq, Piece.numberLength]
  simp only [taken, List.drop_left]
  have raises := exponentLength_append raised apart
  cases fractional with
  | none =>
      have pointless : ∀ more, exponent ++ rest ≠ '.' :: more := fun more same =>
        (raised.digitless apart '.' (by simp [same])).2 rfl
      simp only [List.nil_append]
      simp [raises]
  | @some ds behind =>
      have taken : (ds ++ (exponent ++ rest)).takeWhile Char.isDigit = ds :=
        takeWhile_stops behind fun c first => (raised.digitless apart c first).1
      simp only [List.cons_append, List.append_assoc, taken]
      have dropped : (whole ++ '.' :: (ds ++ (exponent ++ rest))).drop
          (whole.length + (ds.length + 1)) = exponent ++ rest := by
        rw [List.drop_append]
        simp
      rw [dropped, raises]
      simp [Nat.add_assoc, Nat.add_comm 1]

theorem exponent?_raised (raised : Exponent exponent) :
    ∃ e, Decimal.exponent? exponent = some e := by
  cases raised with
  | none => exact ⟨0, rfl⟩
  | @some mark sign ds marked signed digits present =>
      have all : ds.all Char.isDigit = true := List.all_eq_true.mpr digits
      obtain ⟨d, more, rfl⟩ := List.exists_cons_of_ne_nil present
      have unsigned : d ≠ '+' ∧ d ≠ '-' :=
        ⟨digit_ne (digits d List.mem_cons_self) rfl, digit_ne (digits d List.mem_cons_self) rfl⟩
      rcases signed with rfl | rfl | rfl <;>
        simp [Decimal.exponent?, marked, unsigned, all]

theorem unsigned?_numeral (digits : Digits whole) (fractional : Fraction fraction)
    (raised : Exponent exponent) (present : whole ≠ [] ∨ 1 < fraction.length) :
    ∃ d, Decimal.unsigned? (whole ++ fraction ++ exponent) = some d := by
  have apart : Apart [] := .inl rfl
  have stops := fractional.digitless raised apart
  rw [List.append_nil] at stops
  obtain ⟨e, raises⟩ := exponent?_raised raised
  rw [Decimal.unsigned?, List.append_assoc]
  simp only [takeWhile_stops digits stops, dropWhile_stops digits stops]
  cases fractional with
  | none =>
      have first := raised.digitless apart
      rw [List.append_nil] at first
      have pointless : ∀ more, exponent ≠ '.' :: more := fun more same =>
        (first '.' (by simp [same])).2 rfl
      have some : whole ≠ [] := by simpa using present
      simp [raises, some]
  | @some ds behind =>
      have stops : ∀ c ∈ exponent.head?, c.isDigit = false := by
        have first := raised.digitless apart
        rw [List.append_nil] at first
        exact fun c head => (first c head).1
      have some : ¬ (whole = [] ∧ ds = []) := by
        rintro ⟨rfl, rfl⟩
        simp at present
      simp [takeWhile_stops behind stops, dropWhile_stops behind stops, raises, some]

theorem Numeral.head (numeral : Numeral text) : ∃ c cs, text = c :: cs ∧
    (c.isDigit = true ∨ c = '.' ∧ ∀ rest, Piece.startsWith Char.isDigit (cs ++ rest) = true) := by
  cases numeral with
  | @mk whole fraction exponent digits fractional raised present =>
      cases whole with
      | cons c cs => exact ⟨c, _, rfl, .inl (digits c List.mem_cons_self)⟩
      | nil =>
          cases fractional with
          | none => simp at present
          | @some ds behind =>
              obtain ⟨d, more, rfl⟩ := List.exists_cons_of_ne_nil (l := ds) (by
                rintro rfl
                simp at present)
              refine ⟨'.', _, rfl, .inr ⟨rfl, fun rest => ?_⟩⟩
              simpa [Piece.startsWith] using behind d List.mem_cons_self

/-- The text of a number can be read. -/
theorem Numeral.read (numeral : Numeral text) : ∃ x, Decimal.read? text = some x := by
  obtain ⟨c, cs, rfl, first⟩ := numeral.head
  have unsigned : c ≠ '-' ∧ c ≠ '+' := by
    rcases first with digit | ⟨rfl, -⟩
    · exact ⟨digit_ne digit rfl, digit_ne digit rfl⟩
    · decide
  have read_eq : Decimal.read? (c :: cs) = Decimal.magnitude? (c :: cs) := by
    simp [Decimal.read?, unsigned]
  rw [read_eq]
  generalize c :: cs = text at numeral
  cases numeral with
  | mk digits fractional raised present =>
      obtain ⟨d, found⟩ := unsigned?_numeral digits fractional raised present
      exact ⟨d.toFloat, by rw [Decimal.magnitude?, found]⟩

theorem Numeral.length (numeral : Numeral text) {c : Char} {cs : List Char}
    (text_eq : text = c :: cs)
    (apart : Apart rest) : Piece.numberLength (cs ++ rest) = cs.length := by
  cases numeral with
  | @mk whole fraction exponent digits fractional raised present =>
      cases whole with
      | cons d ds =>
          obtain ⟨-, rfl⟩ := List.cons.inj text_eq
          have digits : Digits ds := fun c inside => digits c (List.mem_cons_of_mem _ inside)
          exact numberLength_append digits fractional raised apart
      | nil =>
          cases fractional with
          | none => simp at present
          | @some ds behind =>
              -- Behind a point stand digits and no further point.
              obtain ⟨-, rfl⟩ := List.cons.inj text_eq
              have length := numberLength_append behind .none raised apart
              simpa using length

end

/-! ### Texts in quotes -/

theorem Quotes.quoted? {value body : List Char} (quotes : Quotes value body) (rest : List Char) :
    Piece.quoted? (body ++ '\'' :: rest) = some (value, body.length + 1) := by
  induction quotes with
  | nil => rfl
  | plain simple _ ih => simp [Piece.quoted?, simple, ih]
  | escaped unnamed _ ih => simp [Piece.quoted?, unnamed, ih]
  | newline _ ih => simp [Piece.quoted?, ih]
  | tab _ ih => simp [Piece.quoted?, ih]

/-! ### One token -/

theorem wordContent_plain {name : String} (plain : ∀ op : Op, name ≠ op.symbol) :
    Piece.wordContent name = .token (.word name) := by
  unfold Piece.wordContent
  split
  case h_10 => rfl
  · exact absurd rfl (plain .and)
  · exact absurd rfl (plain .or)
  · exact absurd rfl (plain .xor)
  · exact absurd rfl (plain .nand)
  · exact absurd rfl (plain .nor)
  · exact absurd rfl (plain .xnor)
  · exact absurd rfl (plain .member)
  · exact absurd rfl (plain .like)
  · exact absurd rfl (plain .ilike)

theorem scan_sym (s : Sym) {rest : List Char} (apart : Apart rest) :
    ∃ c cs, s.text.toList = c :: cs ∧
      Piece.scan c (cs ++ rest) = (cs.length, .token (.sym s)) := by
  rcases apart with rfl | ⟨more, rfl⟩
  all_goals
    cases s with
    | op o => cases o <;> exact ⟨_, _, rfl, rfl⟩
    | assign o => cases o <;> exact ⟨_, _, rfl, rfl⟩
    | _ => exact ⟨_, _, rfl, rfl⟩

/-- A spelling that stands apart is scanned as its token, to its end. -/
theorem scan_spelled {text rest : List Char} {t : Token} (spells : Spells text t)
    (apart : Apart rest) :
    ∃ c cs, text = c :: cs ∧ Piece.scan c (cs ++ rest) = (cs.length, .token t) := by
  cases spells with
  | sym s => exact scan_sym s apart
  | number numeral value =>
      obtain ⟨c, cs, rfl, first⟩ := numeral.head
      have plain : isBlank c = false ∧ c ≠ '#' ∧ c ≠ '/' := by
        rcases first with digit | ⟨rfl, -⟩
        · exact ⟨isBlank_digit digit, digit_ne digit rfl, digit_ne digit rfl⟩
        · decide
      have begins :
          (c.isDigit || (c == '.' && Piece.startsWith Char.isDigit (cs ++ rest))) = true := by
        rcases first with digit | ⟨rfl, behind⟩
        · simp [digit]
        · simp [behind rest]
      refine ⟨c, cs, rfl, ?_⟩
      simp only [Piece.scan, plain, begins, numeral.length rfl apart, List.take_left,
        Piece.numberContent, value]
      simp
  | @word name identifier plain =>
      cases named : name.toList with
      | nil => simp [isIdentifier, Identifier.valid, named] at identifier
      | cons c cs =>
          simp only [isIdentifier, Identifier.valid, named, Bool.and_eq_true,
            List.all_eq_true] at identifier
          obtain ⟨starts, continues⟩ := identifier
          have taken : (cs ++ rest).takeWhile Identifier.continues = cs :=
            takeWhile_stops continues (apart.stops rfl)
          have whole : String.ofList (c :: cs) = name := by rw [← named, String.ofList_toList]
          have others : isBlank c = false ∧ c ≠ '#' ∧ c ≠ '/' ∧ c ≠ '.' ∧ c.isDigit = false :=
            ⟨isBlank_starts starts, starts_ne starts rfl, starts_ne starts rfl,
              starts_ne starts rfl, isDigit_starts starts⟩
          refine ⟨c, cs, rfl, ?_⟩
          simp [Piece.scan, others, starts, taken, whole, wordContent_plain plain]
  | @text value body quotes =>
      refine ⟨'\'', _, rfl, ?_⟩
      have quoted := quotes.quoted? rest
      rw [List.append_assoc, List.singleton_append]
      have other :
          isBlank '\'' = false ∧ '\''.isDigit = false ∧ Identifier.starts '\'' = false := by
        decide
      simp [Piece.scan, other, quoted]

/-! ### Tokens apart from each other -/

theorem split_spelled {text rest : List Char} {t : Token} (spells : Spells text t)
    (apart : Apart rest) : Piece.split (text ++ rest) = ⟨text, .token t⟩ :: Piece.split rest := by
  obtain ⟨c, cs, rfl, scanned⟩ := scan_spelled spells apart
  rw [List.cons_append, Piece.split, scanned]
  simp

theorem split_blank (rest : List Char) :
    Piece.split (' ' :: rest) = ⟨[' '], .skip⟩ :: Piece.split rest := by
  have scanned : Piece.scan ' ' rest = (0, .skip) := rfl
  rw [Piece.split, scanned]
  simp

/-- Lexemes of texts that one blank stands between: each token where its text starts, in bytes. -/
def Lexeme.placed (position : Nat) : List (List Char × Token) → List Lexeme
  | [] => []
  | (text, t) :: items =>
      ⟨position, .ok t⟩ :: placed (position + utf8Length text + 1) items

/-- No product is put in where a blank or nothing stands behind a number. -/
theorem product_apart (position : Nat) (p : Piece) {rest : List Char} (apart : Apart rest) :
    Lexeme.product position p (Piece.split rest) = [] := by
  rcases apart with rfl | ⟨more, rfl⟩
  · simp [Lexeme.product, Piece.split, Piece.startsFactor]
  · have unfactored : Piece.startsFactor (Piece.split (' ' :: more)) = false := by
      rw [split_blank]
      rfl
    simp [Lexeme.product, unfactored]

theorem ofPieces_spelled (implicit : Bool) (position : Nat) {text rest : List Char} {t : Token}
    (spells : Spells text t) (apart : Apart rest) :
    Lexeme.ofPieces implicit position (Piece.split (text ++ rest)) =
      ⟨position, .ok t⟩ ::
        Lexeme.ofPieces implicit (position + utf8Length text) (Piece.split rest) := by
  rw [split_spelled spells apart, Lexeme.ofPieces]
  simp [Lexeme.ofContent, product_apart _ _ apart]

theorem ofPieces_blank (implicit : Bool) (position : Nat) (rest : List Char) :
    Lexeme.ofPieces implicit position (Piece.split (' ' :: rest)) =
      Lexeme.ofPieces implicit (position + 1) (Piece.split rest) := by
  have width : utf8Length [' '] = 1 := rfl
  rw [split_blank, Lexeme.ofPieces, width]
  simp [Lexeme.ofContent, Lexeme.product, Piece.isNumber]

theorem ofPieces_placed (implicit : Bool) (position : Nat) {items : List (List Char × Token)}
    (spelled : ∀ e ∈ items, Spells e.1 e.2) :
    Lexeme.ofPieces implicit position (Piece.split ([' '].intercalate (items.map Prod.fst))) =
      Lexeme.placed position items := by
  induction items generalizing position with
  | nil =>
      rw [List.map_nil, List.intercalate_nil, Piece.split]
      rfl
  | cons e items ih =>
      obtain ⟨text, t⟩ := e
      have spells : Spells text t := spelled (text, t) List.mem_cons_self
      have later := fun position =>
        ih position fun e inside => spelled e (List.mem_cons_of_mem _ inside)
      cases items with
      | nil =>
          have single := ofPieces_spelled implicit position spells (.inl rfl)
          rw [List.append_nil] at single
          rw [List.map_cons, List.map_nil, List.intercalate_singleton, single, Piece.split]
          rfl
      | cons e' items =>
          rw [List.map_cons] at later
          rw [List.map_cons, List.map_cons, List.intercalate_cons_cons, List.append_assoc,
            List.singleton_append, ofPieces_spelled implicit position spells (.inr ⟨_, rfl⟩),
            ofPieces_blank, later]
          rfl

/-- Reading undoes spelling. Every number that is written can be read, and of tokens that are
written with one blank between them reading makes those tokens, each where its text starts, whether
products may be left out or not. -/
theorem reading_undoes_spelling :
    (∀ text, Numeral text → ∃ x, Decimal.read? text = some x ∧ Spells text (.number x)) ∧
    ∀ (implicit : Bool) (items : List (List Char × Token)), (∀ e ∈ items, Spells e.1 e.2) →
      Lexeme.read implicit ([' '].intercalate (items.map Prod.fst)) =
        Lexeme.placed 0 items := by
  constructor
  · intro text numeral
    obtain ⟨x, value⟩ := numeral.read
    exact ⟨x, value, .number numeral value⟩
  · exact fun implicit items spelled => ofPieces_placed implicit 0 spelled

/-- A number without a digit in front of its point, symbols that start alike, a text with an escaped
quote and a character of two bytes, and a name behind a number. -/
theorem reading_undoes_spelling_of_mixture :
    ∃ x, Decimal.read? ".5e-3".toList = some x ∧ ∀ implicit,
      Lexeme.read implicit "<= <=> < 'é\\'\n' .5e-3 or x.y".toList =
        [⟨0, .ok (.sym (.op .le))⟩, ⟨3, .ok (.sym .swap)⟩, ⟨7, .ok (.sym (.op .lt))⟩,
          ⟨9, .ok (.text "é'\n")⟩, ⟨17, .ok (.number x)⟩, ⟨23, .ok (.sym (.op .or))⟩,
          ⟨26, .ok (.word "x.y")⟩] := by
  have whole : Digits [] := by simp [Digits]
  have fraction : Fraction ['.', '5'] := .some (by simp [Digits])
  have exponent : Exponent ['e', '-', '3'] :=
    .some (.inl rfl) (.inr (.inr rfl)) (by simp [Digits]) (by simp)
  have numeral : Numeral ".5e-3".toList := .mk whole fraction exponent (.inr (by decide))
  obtain ⟨numbers, reads⟩ := reading_undoes_spelling
  obtain ⟨x, value, number⟩ := numbers _ numeral
  refine ⟨x, value, fun implicit => ?_⟩
  have quotes : Quotes "é'\n".toList "é\\'\n".toList :=
    .plain (by decide) (.escaped (by decide) (.plain (by decide) .nil))
  have word : Spells "x.y".toList (.word "x.y") :=
    .word (by decide) fun op => by cases op <;> decide
  exact reads implicit
    [("<=".toList, .sym (.op .le)), ("<=>".toList, .sym .swap), ("<".toList, .sym (.op .lt)),
      ("'é\\'\n'".toList, .text "é'\n"), (".5e-3".toList, .number x),
      ("or".toList, .sym (.op .or)), ("x.y".toList, .word "x.y")]
    (by
      intro e inside
      simp only [List.mem_cons, List.not_mem_nil, or_false] at inside
      rcases inside with rfl | rfl | rfl | rfl | rfl | rfl | rfl
      · exact .sym (.op .le)
      · exact .sym .swap
      · exact .sym (.op .lt)
      · exact .text quotes
      · exact number
      · exact .sym (.op .or)
      · exact word)

end MathScript
