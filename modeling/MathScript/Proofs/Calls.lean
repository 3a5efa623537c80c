import MathScript.Proofs.Uptake

/-!
Calls of a reader. Between any two of them the reader stands where a part of the text is left, and
what it still gives are the lexemes of the spans that this part is made of. So each call gives the
lexeme that is next and stops behind its text, and once there is none left every call says so.
-/

namespace MathScript

open Scan

namespace Span

theorem items_skipped (implicit : Bool) {skips : List Piece} (skipped : Piece.Skipped skips)
    (pieces : List Piece) (position : Nat) :
    items position (ofPieces implicit (skips ++ pieces)) =
      items (position + utf8Length (skips.flatMap Piece.text)) (ofPieces implicit pieces) := by
  induction skips generalizing position with
  | nil => rfl
  | cons p skips ih =>
      obtain ⟨first, others⟩ := List.forall_mem_cons.mp skipped
      obtain ⟨text, content⟩ := p
      subst first
      rw [List.cons_append, ofPieces_other rfl, List.flatMap_cons, utf8Length_append,
        ← Nat.add_assoc]
      exact ih others (position + utf8Length text)

end Span

theorem Scan.Takes.past {α β : Type} {x : Scan α} {f : α → Scan β} {p m : Nat}
    {front rest : List Char} {a : α} {b : β} (first : Takes x p (front ++ rest) front.length a)
    (second : Takes (f a) (p + utf8Length front) rest m b) :
    Takes (x >>= f) p (front ++ rest) (front.length + m) b := by
  refine first.bind ?_
  rw [List.take_left, List.drop_left]
  exact second

/-- What a reader still has to give. -/
inductive Remains (source : List Char) (implicit : Bool) : Reader → List Span → Prop
  | text {position : Nat} {cs : List Char} (left : Left source position cs) :
      Remains source implicit ⟨position, none, false⟩ (Span.ofPieces implicit (Piece.split cs))
  | sign {position : Nat} {cs : List Char} (left : Left source position cs) :
      Remains source implicit ⟨position, some ⟨position, .ok (.sym (.op .times))⟩, false⟩
        (.sign :: Span.ofPieces implicit (Piece.split cs))
  | ended {position : Nat} (within : Boundary source position) :
      Remains source implicit ⟨position, none, true⟩ []

/-- A call gives the first of the lexemes that remain, stops behind its text and leaves the
others. -/
structure Gives (source : List Char) (implicit : Bool) (r : Reader) (spans : List Span)
    (r' : Reader) (spans' : List Span) : Prop where
  next : r.next source implicit = some ((Span.items r.position spans).head?.map Prod.fst, r')
  remains : Remains source implicit r' spans'
  items : Span.items r'.position spans' = (Span.items r.position spans).tail
  stops : ∀ e ∈ (Span.items r.position spans).head?,
    r'.position = e.1.position + utf8Length e.2.text

section

variable {source cs : List Char} {implicit : Bool} {position : Nat} {r : Reader}
  {spans : List Span}

theorem next_eq {l pending : Option Lexeme} {done : Bool} {q : Nat}
    (taken : lexeme source implicit position = some ((l, pending, done), q)) :
    Reader.next source implicit ⟨position, none, false⟩ = some (l, ⟨q, pending, done⟩) := by
  rw [Reader.next]
  dsimp only
  rw [if_neg Bool.false_ne_true, taken]
  rfl

variable (implicit) in
/-- A call where a token stands. -/
theorem takes_lexeme_plain {c : Char} {front rest : List Char}
    (left : Left source position (front ++ c :: rest)) (plain : Piece.Plain c rest)
    (skip : Takes (skipTrivia source) position (front ++ c :: rest) front.length none) :
    Takes (lexeme source implicit) position (front ++ c :: rest)
      (front.length + ((Piece.scan c rest).1 + 1))
      ((Lexeme.ofContent (position + utf8Length front) (Piece.scan c rest).2).head?,
        (told implicit (position + utf8Length front + c.utf8Size) rest (Piece.scan c rest)).2) := by
  refine skip.past ?_
  refine (takes_get _ _).look ?_
  rw [Nat.add_comm (Piece.scan c rest).1]
  have one : utf8Length ((c :: rest).take 1) = c.utf8Size := by simp [utf8Length]
  refine (takes_bump left.append).bind ?_
  rw [one]
  exact (takes_token implicit plain left.append).map rfl

theorem gives_none {q : Nat}
    (taken : lexeme source implicit position = some ((none, none, true), q))
    (within : Boundary source q) (empty : Span.items position spans = []) :
    Gives source implicit ⟨position, none, false⟩ spans ⟨q, none, true⟩ [] where
  next := by rw [next_eq taken, empty]; rfl
  remains := .ended within
  items := by rw [empty]; rfl
  stops e inside := by
    rw [empty] at inside
    cases inside

theorem gives_some {q : Nat} {l : Lexeme} {pending : Option Lexeme} {done : Bool} {s : Span}
    {spans' : List Span}
    (taken : lexeme source implicit position = some ((some l, pending, done), q))
    (stops : q = l.position + utf8Length s.text)
    (first : Span.items position spans = (l, s) :: Span.items q spans')
    (remains : Remains source implicit ⟨q, pending, done⟩ spans') :
    Gives source implicit ⟨position, none, false⟩ spans ⟨q, pending, done⟩ spans' where
  next := by rw [next_eq taken, first]; rfl
  remains := remains
  items := by rw [first]; rfl
  stops e inside := by
    rw [first] at inside
    cases inside
    exact stops

/-- A call where a token stands gives what stands there. -/
theorem gives_plain {c : Char} {front rest : List Char}
    (left : Left source position (front ++ c :: rest)) (plain : Piece.Plain c rest)
    (skip : Takes (skipTrivia source) position (front ++ c :: rest) front.length none)
    (shift : Span.items position spans = Span.items (position + utf8Length front)
      (Span.ofPieces implicit (Piece.split (c :: rest)))) :
    ∃ r' spans', Gives source implicit ⟨position, none, false⟩ spans r' spans' := by
  have taken := takes_lexeme_plain implicit left plain skip
  have behind := left.append.drop ((Piece.scan c rest).1 + 1)
  have kinds := plain.scan_cases
  rw [Takes, List.take_add, List.take_left, List.drop_left, utf8Length_append, ← Nat.add_assoc]
    at taken
  rw [List.take_succ_cons] at taken behind
  rw [List.drop_succ_cons] at behind
  rw [Piece.split_cons] at shift
  -- From here on the piece matters only by its length and by what it is.
  generalize Piece.scan c rest = piece at taken behind kinds shift
  obtain ⟨n, content⟩ := piece
  dsimp only at taken behind kinds shift
  rcases kinds with ⟨t, rfl⟩ | ⟨cause, rfl, unended⟩
  · have size : position + utf8Length front + c.utf8Size + utf8Length (rest.take n) =
        position + utf8Length front + utf8Length (c :: rest.take n) := by
      rw [utf8Length_cons, ← Nat.add_assoc]
    rw [told_of_token, size] at taken
    rw [Span.ofPieces_of_token] at shift
    cases sign : implicit && (t.isNumber && Piece.startsFactor (Piece.split (rest.drop n))) with
    | false =>
        rw [sign, if_neg Bool.false_ne_true] at taken shift
        exact ⟨_, _, gives_some taken rfl shift (.text behind)⟩
    | true =>
        rw [sign, if_pos rfl] at taken shift
        exact ⟨_, _, gives_some taken rfl shift (.sign behind)⟩
  · rw [told_fault] at taken
    rw [Span.ofPieces_other rfl] at shift
    -- Reading ends with a text in quotes that is not closed: it takes all that is left.
    by_cases unclosed : cause = .unterminatedString
    · subst unclosed
      obtain rfl := unended rfl
      rw [List.drop_length, Piece.split] at shift
      exact ⟨_, [], gives_some taken rfl shift (.ended behind.boundary)⟩
    · have open' : decide (Content.fault cause = .fault .unterminatedString) = false := by
        simpa using unclosed
      rw [open'] at taken
      exact ⟨_, _, gives_some taken rfl shift (.text behind)⟩

theorem gives_text (left : Left source position cs) :
    ∃ r' spans', Gives source implicit ⟨position, none, false⟩
      (Span.ofPieces implicit (Piece.split cs)) r' spans' := by
  obtain ⟨skips, rest, skipped, rfl, cut, skipping⟩ := takes_skipTrivia left
  have shift := Span.items_skipped implicit skipped (Piece.split rest) position
  rw [← cut] at shift
  generalize skips.flatMap Piece.text = front at *
  have left' := left.append
  cases skipping with
  | ended skip =>
      have taken : Takes (lexeme source implicit) position (front ++ []) front.length
          (none, none, true) := by
        refine skip.past (m := 0) ?_
        refine (takes_get _ _).look ?_
        exact (takes_bump_end left').map rfl
      rw [Piece.split, Span.ofPieces, Span.items] at shift
      exact ⟨_, [], gives_none taken (left.drop _).boundary shift⟩
  | @blocked c rest scanned skip =>
      have taken : Takes (lexeme source implicit) position (front ++ c :: rest)
          (front ++ c :: rest).length (some ⟨position + utf8Length front,
            .error .unterminatedComment⟩, none, true) := skip.map rfl
      rw [Takes, List.take_length, utf8Length_append, ← Nat.add_assoc] at taken
      rw [Piece.split_cons, scanned, List.take_length, List.drop_length, Piece.split,
        Span.ofPieces_other rfl] at shift
      have ends := (left'.drop (c :: rest).length).boundary
      rw [List.take_length] at ends
      exact ⟨_, [], gives_some taken rfl shift (.ended ends)⟩
  | @plain c rest plain skip =>
      exact gives_plain left plain skip shift

theorem gives (remains : Remains source implicit r spans) :
    ∃ r' spans', Gives source implicit r spans r' spans' := by
  cases remains with
  | text left => exact gives_text left
  | @sign position cs left =>
      refine ⟨⟨position, none, false⟩, _, ⟨?_, .text left, ?_, ?_⟩⟩
      · rw [Reader.next, Span.items]
        rfl
      · rw [Span.items]
        rfl
      · rintro _ ⟨⟩
        rfl
  | @ended position within =>
      refine ⟨⟨position, none, true⟩, [], ⟨?_, .ended within, rfl, fun e inside => ?_⟩⟩
      · rw [Reader.next, Span.items]
        rfl
      · rw [Span.items] at inside
        cases inside

theorem Remains.boundary (remains : Remains source implicit r spans) :
    Boundary source r.position := by
  cases remains with
  | text left | sign left => exact left.boundary
  | ended within => exact within

/-- After some calls there remain the lexemes that were not given yet. -/
theorem remains_after (source : List Char) (implicit : Bool) (n : Nat) :
    ∃ r spans, Reader.after source implicit n = some r ∧ Remains source implicit r spans ∧
      Span.items r.position spans =
        (Span.items 0 (Span.ofPieces implicit (Piece.split source))).drop n := by
  induction n with
  | zero => exact ⟨_, _, rfl, .text (.start source), rfl⟩
  | succ n ih =>
      obtain ⟨r, spans, called, remains, left⟩ := ih
      obtain ⟨r', spans', given⟩ := gives remains
      refine ⟨r', spans', ?_, given.remains, ?_⟩
      · rw [Reader.after, called]
        change (r.next source implicit).bind (fun result => some result.2) = _
        rw [given.next]
        rfl
      · rw [given.items, left, List.tail_drop]

end

/-- Calls of a reader cover the text and come to an end. Every text is made of spans, in order and
without a rest: blanks and comments, the texts of tokens and faults, which read alone give just
these, and product signs that are put in between a number and a factor, which take nothing. From
the start on no call fails, so the text is cut between characters only: the calls give the lexemes
of the spans one after the other, those behind a fault too, each stopping where the text of its
lexeme ends, and when all are given they give nothing, however many more there are. Lexemes stand
between characters, none in front of the one before it, and only a sign that is put in stands where
the next one does. -/
theorem calls_cover_text (implicit : Bool) (text : String) :
    ∃ spans, Covers implicit text.toList spans ∧ spans.flatMap Span.text = text.toList ∧
      (Span.items 0 spans).map Prod.fst = Lexeme.read implicit text.toList ∧
      (∀ e ∈ Span.items 0 spans, String.Pos.Raw.IsValid text ⟨e.1.position⟩ ∧
        e.1.position ≤ text.utf8ByteSize) ∧
      (Span.items 0 spans).Pairwise (fun e e' => e.1.position ≤ e'.1.position ∧
        (e.1.position = e'.1.position → e.2 = .sign)) ∧
      ∀ n, ∃ r r', Reader.after text.toList implicit n = some r ∧
        String.Pos.Raw.IsValid text ⟨r.position⟩ ∧
        r.next text.toList implicit = some ((Lexeme.read implicit text.toList)[n]?, r') ∧
        ∀ e, (Span.items 0 spans)[n]? = some e →
          r'.position = e.1.position + utf8Length e.2.text := by
  have covers := Span.covers_split implicit text.toList
  have lexemes : (Span.items 0 (Span.ofPieces implicit (Piece.split text.toList))).map Prod.fst =
      Lexeme.read implicit text.toList := Span.map_items implicit 0 _
  refine ⟨_, covers, covers.flatMap_text, lexemes, fun e inside => ?_,
    Span.pairwise_items covers.eq_sign 0, fun n => ?_⟩
  · have read : e.1 ∈ Lexeme.read implicit text.toList :=
      lexemes ▸ List.mem_map_of_mem inside
    have valid := isValid_iff_boundary.mpr (Lexeme.boundary_read read)
    exact ⟨valid, valid.le_rawEndPos⟩
  · obtain ⟨r, spans, called, remains, left⟩ := remains_after text.toList implicit n
    obtain ⟨r', spans', given⟩ := gives remains
    have next := given.next
    have stops := given.stops
    rw [left, List.head?_drop] at next stops
    refine ⟨r, r', called, isValid_iff_boundary.mpr remains.boundary, ?_, stops⟩
    rw [next, ← lexemes, List.getElem?_map]

/-- A letter of two bytes that cannot stand there, a product, and a comment that is not closed:
there are five lexemes, and no more. -/
theorem calls_cover_text_of_faults :
    ∃ spans, Covers true "é 2x/*".toList spans ∧
      (Span.items 0 spans).map (fun e => e.1.position) = [0, 3, 4, 4, 5] ∧
      ∀ n, 5 ≤ n → ∃ r r', Reader.after "é 2x/*".toList true n = some r ∧
        r.next "é 2x/*".toList true = some (none, r') := by
  obtain ⟨spans, covers, -, lexemes, -, -, calls⟩ := calls_cover_text true "é 2x/*"
  have positions : (Lexeme.read true "é 2x/*".toList).map Lexeme.position = [0, 3, 4, 4, 5] := by
    decide +kernel
  have length : (Lexeme.read true "é 2x/*".toList).length = 5 := by
    simpa using congrArg List.length positions
  refine ⟨spans, covers, ?_, fun n behind => ?_⟩
  · rw [← positions, ← lexemes, List.map_map]
    rfl
  · obtain ⟨r, r', called, -, next, -⟩ := calls n
    rw [List.getElem?_eq_none (by omega)] at next
    exact ⟨r, r', called, next⟩

end MathScript
