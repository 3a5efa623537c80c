import Mathlib.Data.List.Infix
import MathScript.Proofs.Gaps
import MathScript.Proofs.Locations
import MathScript.Proofs.Products
import MathScript.Reader

/-!
What a text is made of, in order and without a rest: blanks and comments, the texts of its tokens
and faults, and between these the places of the product signs that are put in, which take nothing of
the text.
-/

namespace MathScript

/-! ### Marks -/

theorem firstAt?_eq_some {mark cs : List Char} {n : Nat} (some : mark ≠ [])
    (first : firstAt? mark cs = .some n) :
    ∃ body rest, cs = body ++ (mark ++ rest) ∧ utf8Length body = n ∧ ¬ mark <:+: body := by
  induction cs generalizing n with
  | nil =>
      rw [firstAt?, if_neg (by simpa using some)] at first
      cases first
  | cons c cs ih =>
      rw [firstAt?] at first
      split at first
      next here =>
        cases first
        obtain ⟨rest, whole⟩ := List.isPrefixOf_iff_prefix.mp here
        exact ⟨[], rest, whole.symm, rfl, fun inside => some (List.infix_nil.mp inside)⟩
      next later =>
        obtain ⟨m, behind, rfl⟩ := Option.map_eq_some_iff.mp first
        obtain ⟨body, rest, rfl, length, none⟩ := ih behind
        have length' : utf8Length (c :: body) = m + c.utf8Size := by
          rw [utf8Length_cons, length, Nat.add_comm]
        refine ⟨c :: body, rest, rfl, length', fun inside => ?_⟩
        rcases List.infix_cons_iff.mp inside with starts | within
        · refine later (List.isPrefixOf_iff_prefix.mpr ?_)
          rw [← List.cons_append]
          exact starts.trans (List.prefix_append _ _)
        · exact none within

theorem firstAt?_eq_none {mark cs : List Char} (some : mark ≠ []) (none : firstAt? mark cs = none) :
    ¬ mark <:+: cs := by
  induction cs with
  | nil => exact fun inside => some (List.infix_nil.mp inside)
  | cons c cs ih =>
      rw [firstAt?] at none
      split at none
      next => cases none
      next later =>
        rw [Option.map_eq_none_iff] at none
        intro inside
        rcases List.infix_cons_iff.mp inside with starts | within
        · exact later (List.isPrefixOf_iff_prefix.mpr starts)
        · exact ih none within

theorem Piece.closing?_eq_none {cs : List Char} (open' : ¬ ['*', '/'] <:+: cs) :
    closing? cs = none := by
  induction cs using closing?.induct with
  | case1 tail => exact absurd ⟨[], tail, rfl⟩ open'
  | case2 c cs other ih =>
      rw [closing?.eq_2 _ _ other,
        ih fun inside => open' (inside.trans (List.suffix_cons c cs).isInfix)]
      rfl
  | case3 => rfl

/-- A text has no line end, or a first one. -/
theorem line_cases (cs : List Char) : ('\n' ∉ cs ∧ firstAt? ['\n'] cs = none) ∨
    ∃ body rest, cs = body ++ '\n' :: rest ∧ '\n' ∉ body ∧
      firstAt? ['\n'] cs = some (utf8Length body) := by
  have some : ['\n'] ≠ [] := List.cons_ne_nil _ _
  cases first : firstAt? ['\n'] cs with
  | none =>
      have single := firstAt?_eq_none some first
      rw [List.singleton_infix_iff] at single
      exact .inl ⟨single, rfl⟩
  | some n =>
      obtain ⟨body, rest, whole, rfl, single⟩ := firstAt?_eq_some some first
      rw [List.singleton_infix_iff] at single
      exact .inr ⟨body, rest, whole, single, rfl⟩

/-- A comment is not closed in a text, or closed at a first place. -/
theorem block_cases (cs : List Char) :
    (Piece.closing? cs = none ∧ firstAt? ['*', '/'] cs = none) ∨
      ∃ body rest, cs = body ++ '*' :: '/' :: rest ∧ ¬ ['*', '/'] <:+: body ∧
        Piece.closing? cs = some (body.length + 2) ∧
        firstAt? ['*', '/'] cs = some (utf8Length body) := by
  have some : ['*', '/'] ≠ [] := List.cons_ne_nil _ _
  cases first : firstAt? ['*', '/'] cs with
  | none => exact .inl ⟨Piece.closing?_eq_none (firstAt?_eq_none some first), rfl⟩
  | some n =>
      obtain ⟨body, rest, rfl, rfl, open'⟩ := firstAt?_eq_some some first
      exact .inr ⟨body, rest, rfl, open', Piece.closing?_body open' rest, rfl⟩

theorem take_marked (body mark rest : List Char) :
    (body ++ (mark ++ rest)).take (body.length + mark.length) = body ++ mark := by
  rw [← List.append_assoc]
  exact List.take_left' List.length_append

/-! ### What stands at a place -/

namespace Piece

variable {c : Char} {cs : List Char}

/-- Neither a blank nor a comment stands here. -/
structure Plain (c : Char) (cs : List Char) : Prop where
  blank : isBlank c = false
  line : ¬ (c = '#' ∨ c = '/' ∧ startsWith (· == '/') cs = true)
  block : ¬ (c = '/' ∧ startsWith (· == '*') cs = true)

theorem scan_open (unclosed : closing? cs = none) :
    scan '/' ('*' :: cs) = (cs.length + 1, .fault .unterminatedComment) := by
  have unblank : isBlank '/' = false := rfl
  simp [scan, unblank, startsWith, unclosed]

/-- A blank stands at a place, a comment of one line, one of the other kind, or none of these. -/
theorem place_cases (c : Char) (cs : List Char) :
    isBlank c = true ∨ (c = '#' ∨ c = '/' ∧ startsWith (· == '/') cs = true) ∨
      (∃ more, c = '/' ∧ cs = '*' :: more) ∨ Plain c cs := by
  by_cases blank : isBlank c = true
  · exact .inl blank
  by_cases line : c = '#' ∨ c = '/' ∧ startsWith (· == '/') cs = true
  · exact .inr (.inl line)
  by_cases block : c = '/' ∧ startsWith (· == '*') cs = true
  · obtain ⟨rfl, second⟩ := block
    cases cs with
    | nil => cases second
    | cons d more => exact .inr (.inr (.inl ⟨more, rfl, by rw [beq_iff_eq.mp second]⟩))
  · exact .inr (.inr (.inr ⟨Bool.eq_false_iff.mpr blank, line, block⟩))

theorem scan_blank (blank : isBlank c = true) : scan c cs = (0, .skip) := by
  rw [scan, if_pos blank]

theorem numberContent_cases (text : List Char) : (∃ x, numberContent text = .token (.number x)) ∨
    numberContent text = .fault (.invalidNumber (String.ofList text)) := by
  unfold numberContent
  cases Decimal.read? text with
  | some x => exact .inl ⟨x, rfl⟩
  | none => exact .inr rfl

theorem wordContent_token (name : String) :
    ∃ t, wordContent name = .token t ∧ t.isNumber = false := by
  unfold wordContent
  split <;> exact ⟨_, rfl, rfl⟩

/-- What is no blank and no comment is a token or a fault, and a text in quotes that is not closed
goes on to the end. -/
theorem Plain.scan_cases (plain : Plain c cs) :
    (∃ t, (scan c cs).2 = .token t) ∨
      ∃ cause, (scan c cs).2 = .fault cause ∧
        (cause = .unterminatedString → (scan c cs).1 = cs.length) := by
  rw [scan, if_neg (Bool.eq_false_iff.mp plain.blank), if_neg plain.line, if_neg plain.block]
  split
  · rcases numberContent_cases (c :: cs.take (numberLength cs)) with ⟨x, same⟩ | same
    · exact .inl ⟨_, same⟩
    · exact .inr ⟨_, same, fun open' => by cases open'⟩
  split
  · obtain ⟨t, same, -⟩ := wordContent_token
      (String.ofList (c :: cs.takeWhile Identifier.continues))
    exact .inl ⟨t, same⟩
  split
  · split
    · exact .inl ⟨_, rfl⟩
    · exact .inr ⟨_, rfl, fun _ => rfl⟩
  · split
    · exact .inl ⟨_, rfl⟩
    · exact .inr ⟨_, rfl, fun open' => by cases open'⟩

/-- The mark of a comment of one line, and what stands behind it up to some place. -/
theorem exists_mark {front rest : List Char} (apart : startsWith (· == '/') rest = false)
    (marked : c = '#' ∨ c = '/' ∧ startsWith (· == '/') (front ++ rest) = true) :
    ∃ mark body, c :: front = mark ++ body ∧ (mark = ['#'] ∨ mark = ['/', '/']) ∧
      body <:+ front := by
  rcases marked with rfl | ⟨rfl, second⟩
  · exact ⟨['#'], front, rfl, .inl rfl, List.suffix_rfl⟩
  · cases front with
    | nil =>
        rw [List.nil_append, apart] at second
        cases second
    | cons d front =>
        obtain rfl : d = '/' := beq_iff_eq.mp second
        exact ⟨['/', '/'], front, rfl, .inr rfl, List.suffix_cons _ _⟩

/-- What is skipped is a blank or a comment. -/
theorem trivia_scan {n : Nat} (skip : scan c cs = (n, .skip)) :
    Trivia (cs.drop n).isEmpty (c :: cs.take n) := by
  rcases place_cases c cs with blank | marked | ⟨more, rfl, rfl⟩ | plain
  · rw [scan_blank blank] at skip
    cases skip
    exact .blank blank .none
  · rw [scan_line marked] at skip
    obtain ⟨rfl, -⟩ := Prod.mk.inj skip
    rcases line_cases cs with ⟨single, -⟩ | ⟨body, rest, rfl, single, -⟩
    · rw [lineLength_last single, List.take_length, List.drop_length]
      rw [← List.append_nil cs] at marked
      obtain ⟨mark, body, same, kind, suffix⟩ := exists_mark rfl marked
      rw [same]
      exact .final kind (fun inside => single (suffix.subset inside)) rfl
    · have taken := take_marked body ['\n'] rest
      obtain ⟨mark, front, same, kind, suffix⟩ := exists_mark rfl marked
      rw [lineLength_body single]
      change Trivia _ (c :: (body ++ (['\n'] ++ rest)).take (body.length + ['\n'].length))
      rw [taken, ← List.cons_append, same]
      exact .line kind (fun inside => single (suffix.subset inside)) .none
  · rcases block_cases more with ⟨unclosed, -⟩ | ⟨body, rest, rfl, open', closed, -⟩
    · rw [scan_open unclosed] at skip
      cases skip
    · rw [scan_block closed] at skip
      obtain ⟨rfl, -⟩ := Prod.mk.inj skip
      have taken := take_marked body ['*', '/'] rest
      change Trivia _ ('/' :: '*' :: (body ++ (['*', '/'] ++ rest)).take
        (body.length + ['*', '/'].length))
      rw [taken]
      exact .block open' .none
  · rcases plain.scan_cases with ⟨t, same⟩ | ⟨cause, same, -⟩ <;> rw [skip] at same <;> cases same

/-- What stands at a place is scanned alike with nothing behind it. -/
theorem scan_cut {front : List Char} {content : Content}
    (scanned : scan c (front ++ cs) = (front.length, content)) :
    scan c front = (front.length, content) := by
  cases cs with
  | nil => rwa [List.append_nil] at scanned
  | cons d cs =>
      have alone := scan_broken (.stop (d :: cs)) scanned (.inr (List.cons_ne_nil _ _))
      rwa [List.append_nil] at alone

end Piece

/-! ### Spans -/

/-- A part of a text: blanks and comments between lexemes, the text of a lexeme, or the place of a
product sign that is put in. -/
inductive Span where
  | gap (text : List Char)
  | item (text : List Char) (content : Except Cause Token)
  | sign

namespace Span

def text : Span → List Char
  | .gap text | .item text _ => text
  | .sign => []

def content? : Span → Option (Except Cause Token)
  | .gap _ => none
  | .item _ content => some content
  | .sign => some (.ok (.sym (.op .times)))

/-- The lexemes of the spans from a position on, each with its span. -/
def items (position : Nat) : List Span → List (Lexeme × Span)
  | [] => []
  | s :: rest =>
      let behind := items (position + utf8Length s.text) rest
      match s.content? with
      | some content => (⟨position, content⟩, s) :: behind
      | none => behind

def ofPiece (p : Piece) : Span :=
  match p.content with
  | .skip => .gap p.text
  | .token t => .item p.text (.ok t)
  | .fault cause => .item p.text (.error cause)

def ofPieces (implicit : Bool) : List Piece → List Span
  | [] => []
  | p :: rest =>
      ofPiece p :: ((if implicit && (p.isNumber && Piece.startsFactor rest) then [.sign] else []) ++
        ofPieces implicit rest)

end Span

/-- A text is made of spans, in order and without a rest. A gap is a blank or a comment, and a text
that is read has, when it stands alone, just the lexeme that is read there. A product sign is put in
only behind a number and in front of a name or a parenthesis. -/
inductive Covers (implicit : Bool) : List Char → List Span → Prop
  | nothing : Covers implicit [] []
  | gap {text rest : List Char} {spans : List Span} (some : text ≠ [])
      (trivia : Trivia rest.isEmpty text) (behind : Covers implicit rest spans) :
      Covers implicit (text ++ rest) (.gap text :: spans)
  | item {text rest : List Char} {content : Except Cause Token} {spans : List Span}
      (some : text ≠ []) (read : Lexeme.read false text = [⟨0, content⟩])
      (behind : Covers implicit rest spans) :
      Covers implicit (text ++ rest) (.item text content :: spans)
  | product {text rest : List Char} {c : Char} {x : Float} {spans : List Span}
      (some : text ≠ []) (read : Lexeme.read false text = [⟨0, .ok (.number x)⟩])
      (put : implicit = true) (factor : Identifier.starts c = true ∨ c = '(')
      (behind : Covers implicit (c :: rest) spans) :
      Covers implicit (text ++ c :: rest) (.item text (.ok (.number x)) :: .sign :: spans)

namespace Covers

variable {implicit : Bool} {source : List Char} {spans : List Span}

theorem flatMap_text (covers : Covers implicit source spans) :
    spans.flatMap Span.text = source := by
  induction covers with
  | nothing => rfl
  | gap some trivia behind ih => rw [List.flatMap_cons, ih]; rfl
  | item some read behind ih => rw [List.flatMap_cons, ih]; rfl
  | product some read put factor behind ih => rw [List.flatMap_cons, List.flatMap_cons, ih]; rfl

end Covers

namespace Span

theorem read_piece {c : Char} {cs : List Char} {n : Nat} {content : Content}
    (scanned : Piece.scan c cs = (n, content)) :
    Lexeme.read false (c :: cs.take n) = Lexeme.ofContent 0 content := by
  have within : n ≤ cs.length := by simpa [scanned] using Piece.scan_le c cs
  have count : (cs.take n).length = n := List.length_take_of_le within
  have whole : Piece.scan c (cs.take n ++ cs.drop n) = ((cs.take n).length, content) := by
    rw [List.take_append_drop, count, scanned]
  have alone := Piece.scan_cut whole
  rw [Lexeme.read, Piece.split_cons, alone, List.take_length, List.drop_length, Piece.split,
    Lexeme.ofPieces, Lexeme.ofPieces, List.append_nil, if_neg Bool.false_ne_true, List.append_nil]

theorem ofPieces_other {implicit : Bool} {p : Piece} (other : p.isNumber = false)
    (rest : List Piece) : ofPieces implicit (p :: rest) = ofPiece p :: ofPieces implicit rest := by
  rw [ofPieces, other, Bool.false_and, Bool.and_false, if_neg Bool.false_ne_true, List.nil_append]

theorem ofPieces_of_token (implicit : Bool) (text : List Char) (t : Token) (rest : List Piece) :
    ofPieces implicit (⟨text, .token t⟩ :: rest) = .item text (.ok t) ::
      ((if implicit && (t.isNumber && Piece.startsFactor rest) then [.sign] else []) ++
        ofPieces implicit rest) := rfl

/-- The spans of a text are those of its pieces. -/
theorem covers_split (implicit : Bool) (cs : List Char) :
    Covers implicit cs (ofPieces implicit (Piece.split cs)) := by
  induction cs using Piece.split.induct with
  | case1 =>
      rw [Piece.split]
      exact .nothing
  | case2 c cs n content scanned ih =>
      have whole : c :: cs = (c :: cs.take n) ++ cs.drop n := by
        rw [List.cons_append, List.take_append_drop]
      have some := List.cons_ne_nil c (cs.take n)
      have read := read_piece scanned
      have cut : Piece.split (c :: cs) = ⟨c :: cs.take n, content⟩ :: Piece.split (cs.drop n) := by
        rw [Piece.split_cons, scanned]
      rw [cut, whole]
      cases content with
      | skip =>
          rw [ofPieces_other rfl]
          exact .gap some (Piece.trivia_scan scanned) ih
      | fault cause =>
          rw [ofPieces_other rfl]
          exact .item some read ih
      | token t =>
          rw [ofPieces_of_token]
          cases sign : implicit && (t.isNumber && Piece.startsFactor (Piece.split (cs.drop n))) with
          | false =>
              rw [if_neg Bool.false_ne_true, List.nil_append]
              exact .item some read ih
          | true =>
              rw [if_pos rfl]
              rw [Bool.and_eq_true, Bool.and_eq_true] at sign
              obtain ⟨put, number, factor⟩ := sign
              obtain ⟨x, rfl⟩ : ∃ x, t = .number x := by
                cases t with
                | number x => exact ⟨x, rfl⟩
                | word name | sym s | text value => cases number
              cases behind : cs.drop n with
              | nil =>
                  rw [behind, Piece.split] at factor
                  cases factor
              | cons d rest =>
                  rw [behind] at ih factor
                  rw [Piece.split_cons] at factor
                  have starts : Identifier.starts d = true ∨ d = '(' := by
                    have first : (Identifier.starts d || d == '(') = true := factor
                    simpa using first
                  exact .product some read put starts ih

theorem map_items (implicit : Bool) (position : Nat) (pieces : List Piece) :
    (items position (ofPieces implicit pieces)).map Prod.fst =
      Lexeme.ofPieces implicit position pieces := by
  induction pieces generalizing position with
  | nil => rfl
  | cons p rest ih =>
      obtain ⟨text, content⟩ := p
      rw [ofPieces, Lexeme.ofPieces, Lexeme.product]
      cases content with
      | skip =>
          have next := ih (position + utf8Length text)
          cases implicit <;> exact next
      | fault cause =>
          have next := congrArg (⟨position, .error cause⟩ :: ·) (ih (position + utf8Length text))
          cases implicit <;> exact next
      | token t =>
          have next := ih (position + utf8Length text)
          have token := congrArg (⟨position, .ok t⟩ :: ·) next
          cases implicit with
          | false => exact token
          | true =>
              rw [Bool.true_and, if_pos rfl]
              split
              · have sign := congrArg
                  (⟨position + utf8Length text, .ok (.sym (.op .times))⟩ :: ·) next
                exact congrArg (⟨position, .ok t⟩ :: ·) sign
              · exact token

theorem position_items {position : Nat} {spans : List Span} {e : Lexeme × Span}
    (inside : e ∈ items position spans) : position ≤ e.1.position := by
  induction spans generalizing position with
  | nil => cases inside
  | cons s rest ih =>
      rw [items] at inside
      have later (behind : e ∈ items (position + utf8Length s.text) rest) :
          position ≤ e.1.position := Nat.le_trans (Nat.le_add_right _ _) (ih behind)
      cases content : s.content? with
      | none =>
          rw [content] at inside
          exact later inside
      | some content' =>
          rw [content] at inside
          rcases List.mem_cons.mp inside with rfl | behind
          · exact Nat.le_refl _
          · exact later behind

end Span

namespace Covers

variable {implicit : Bool} {source : List Char} {spans : List Span}

theorem eq_sign (covers : Covers implicit source spans) :
    ∀ s ∈ spans, s.text = [] → s = .sign := by
  induction covers with
  | nothing => exact List.forall_mem_nil _
  | gap some trivia behind ih | item some read behind ih =>
      exact List.forall_mem_cons.mpr ⟨fun none => absurd none some, ih⟩
  | product some read put factor behind ih =>
      exact List.forall_mem_cons.mpr ⟨fun none => absurd none some,
        List.forall_mem_cons.mpr ⟨fun _ => rfl, ih⟩⟩

end Covers

/-- Lexemes follow one another. Two of them stand at one position only where the first is a product
sign that is put in. -/
theorem Span.pairwise_items {spans : List Span} (proper : ∀ s ∈ spans, s.text = [] → s = .sign)
    (position : Nat) :
    (items position spans).Pairwise fun e e' => e.1.position ≤ e'.1.position ∧
      (e.1.position = e'.1.position → e.2 = .sign) := by
  induction spans generalizing position with
  | nil => exact .nil
  | cons s rest ih =>
      obtain ⟨first, others⟩ := List.forall_mem_cons.mp proper
      rw [items]
      cases content : s.content? with
      | none => exact ih others _
      | some content' =>
          refine List.pairwise_cons.mpr ⟨fun e later => ?_, ih others _⟩
          have behind := position_items later
          refine ⟨Nat.le_trans (Nat.le_add_right _ _) behind, fun same => first ?_⟩
          -- What takes something of the text ends behind its position.
          cases text : s.text with
          | nil => rfl
          | cons c cs =>
              have some := utf8Length_pos c cs
              rw [text] at behind
              change position = e.1.position at same
              omega

end MathScript
