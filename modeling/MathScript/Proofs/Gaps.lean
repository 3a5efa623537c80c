import MathScript.Proofs.Scanning

/-!
Blanks and comments put in between the pieces of a text. They leave all its pieces as they are and
are themselves skipped. So the text still says what it said, but for the product sign between a
number and a factor that now stands apart from it.
-/

namespace MathScript

/-! ### What is skipped -/

/-- Blanks and comments, one behind the other. The last comment need not be ended where it ends the
text. -/
inductive Trivia (last : Bool) : List Char → Prop
  | none : Trivia last []
  | blank {c : Char} {cs : List Char} (blank : isBlank c = true) (rest : Trivia last cs) :
      Trivia last (c :: cs)
  | line {mark body cs : List Char} (marked : mark = ['#'] ∨ mark = ['/', '/'])
      (single : '\n' ∉ body) (rest : Trivia last cs) : Trivia last (mark ++ body ++ '\n' :: cs)
  | final {mark body : List Char} (marked : mark = ['#'] ∨ mark = ['/', '/'])
      (single : '\n' ∉ body) (ends : last = true) : Trivia last (mark ++ body)
  | block {body cs : List Char} (open' : ¬ ['*', '/'] <:+: body) (rest : Trivia last cs) :
      Trivia last ('/' :: '*' :: body ++ '*' :: '/' :: cs)

/-- What keeps two pieces apart: a blank, and behind it more blanks and comments. -/
inductive Gap (last : Bool) : List Char → Prop
  | mk {c : Char} {cs : List Char} (blank : isBlank c = true) (rest : Trivia last cs) :
      Gap last (c :: cs)

namespace Piece

def Skipped (pieces : List Piece) : Prop := ∀ p ∈ pieces, p.content = .skip

theorem Skipped.nil : Skipped [] := List.forall_mem_nil _

theorem Skipped.cons {p : Piece} {pieces : List Piece} (rest : Skipped pieces)
    (first : p.content = .skip) : Skipped (p :: pieces) :=
  List.forall_mem_cons.mpr ⟨first, rest⟩

/-- A piece in front, by the characters it takes. -/
theorem split_scanned {c : Char} {front : List Char} {content : Content} (rest : List Char)
    (scanned : scan c (front ++ rest) = (front.length, content)) :
    split (c :: (front ++ rest)) = ⟨c :: front, content⟩ :: split rest := by
  rw [split_cons, scanned, List.take_left, List.drop_left]

theorem split_isBlank {c : Char} (blank : isBlank c = true) (rest : List Char) :
    split (c :: rest) = ⟨[c], .skip⟩ :: split rest := by
  have scanned : scan c ([] ++ rest) = (([] : List Char).length, .skip) := by
    rw [scan, if_pos blank]
    rfl
  exact split_scanned rest scanned

theorem lineLength_body {body : List Char} (single : '\n' ∉ body) (rest : List Char) :
    lineLength (body ++ '\n' :: rest) = body.length + 1 := by
  have all : ∀ c ∈ body, decide (c ≠ '\n') = true := fun c inside => decide_eq_true (by
    rintro rfl
    exact single inside)
  have stops : ∀ c ∈ ('\n' :: rest).head?, decide (c ≠ '\n') = false := by
    rintro _ ⟨⟩
    rfl
  rw [lineLength, takeWhile_stops all stops]
  simp

theorem lineLength_last {body : List Char} (single : '\n' ∉ body) :
    lineLength body = body.length := by
  have all : ∀ c ∈ body, decide (c ≠ '\n') = true := fun c inside => decide_eq_true (by
    rintro rfl
    exact single inside)
  have whole : (body ++ []).takeWhile (· ≠ '\n') = body := takeWhile_stops all nofun
  rw [List.append_nil] at whole
  rw [lineLength, whole]
  simp

theorem closing?_body {body : List Char} (open' : ¬ ['*', '/'] <:+: body) (rest : List Char) :
    closing? (body ++ '*' :: '/' :: rest) = some (body.length + 2) := by
  induction body with
  | nil => rfl
  | cons c body ih =>
      have other : ∀ tail, c = '*' → body ++ '*' :: '/' :: rest = '/' :: tail → False := by
        rintro tail rfl starts
        cases body with
        | nil => cases starts
        | cons d body =>
            rw [(List.cons.inj starts).1] at open'
            exact open' ⟨[], body, rfl⟩
      rw [List.cons_append, closing?.eq_2 _ _ other,
        ih fun inside => open' (inside.trans (List.suffix_cons c body).isInfix)]
      rfl

theorem scan_line {c : Char} {cs : List Char}
    (marked : c = '#' ∨ c = '/' ∧ startsWith (· == '/') cs = true) :
    scan c cs = (lineLength cs, .skip) := by
  have unblank : isBlank c = false := by
    rcases marked with rfl | ⟨rfl, -⟩ <;> rfl
  rw [scan, unblank, if_neg Bool.false_ne_true, if_pos marked]

theorem scan_block {cs : List Char} {n : Nat} (closed : closing? cs = some n) :
    scan '/' ('*' :: cs) = (n + 1, .skip) := by
  have unblank : isBlank '/' = false := rfl
  simp [scan, unblank, startsWith, closed]

/-- A line comment by its first character. -/
theorem exists_marked {mark body : List Char} (marked : mark = ['#'] ∨ mark = ['/', '/'])
    (single : '\n' ∉ body) : ∃ c front, mark ++ body = c :: front ∧ '\n' ∉ front ∧
      ∀ rest, c = '#' ∨ c = '/' ∧ startsWith (· == '/') (front ++ rest) = true := by
  rcases marked with rfl | rfl
  · exact ⟨'#', body, rfl, single, fun _ => .inl rfl⟩
  · exact ⟨'/', '/' :: body, rfl, by simpa using single, fun _ => .inr ⟨rfl, rfl⟩⟩

section

variable {mark body : List Char} (marked : mark = ['#'] ∨ mark = ['/', '/']) (single : '\n' ∉ body)

include marked single

theorem split_line (rest : List Char) : split (mark ++ body ++ '\n' :: rest) =
    ⟨mark ++ body ++ ['\n'], .skip⟩ :: split rest := by
  obtain ⟨c, front, same, single', starts⟩ := exists_marked marked single
  have scanned : scan c (front ++ ['\n'] ++ rest) = ((front ++ ['\n']).length, .skip) := by
    rw [List.append_assoc, List.singleton_append, scan_line (starts _), lineLength_body single',
      List.length_append, List.length_singleton]
  have cut := split_scanned rest scanned
  rw [List.append_assoc, List.singleton_append] at cut
  rw [same, List.cons_append, List.cons_append, cut]

/-- A comment up to the end of the text. -/
theorem split_final : split (mark ++ body) = [⟨mark ++ body, .skip⟩] := by
  obtain ⟨c, front, same, single', starts⟩ := exists_marked marked single
  have scanned := scan_line (starts [])
  rw [List.append_nil, lineLength_last single'] at scanned
  rw [same, split_cons, scanned, List.take_length, List.drop_length, split]

end

theorem split_block {body : List Char} (open' : ¬ ['*', '/'] <:+: body) (rest : List Char) :
    split ('/' :: '*' :: body ++ '*' :: '/' :: rest) =
      ⟨'/' :: '*' :: body ++ ['*', '/'], .skip⟩ :: split rest := by
  have scanned : scan '/' ('*' :: body ++ ['*', '/'] ++ rest) =
      (('*' :: body ++ ['*', '/']).length, .skip) := by
    simpa using scan_block (closing?_body open' rest)
  simpa using split_scanned rest scanned

/-- What is skipped is cut off in pieces that are skipped. -/
theorem split_trivia {last : Bool} {cs rest : List Char} (trivia : Trivia last cs)
    (ends : last = true → rest = []) :
    ∃ skips, split (cs ++ rest) = skips ++ split rest ∧ Skipped skips := by
  induction trivia with
  | none => exact ⟨[], rfl, .nil⟩
  | @blank c cs blank _ ih =>
      obtain ⟨skips, cut, skipped⟩ := ih
      refine ⟨⟨[c], .skip⟩ :: skips, ?_, skipped.cons rfl⟩
      rw [List.cons_append, split_isBlank blank, cut, List.cons_append]
  | @line mark body cs marked single _ ih =>
      obtain ⟨skips, cut, skipped⟩ := ih
      refine ⟨⟨mark ++ body ++ ['\n'], .skip⟩ :: skips, ?_, skipped.cons rfl⟩
      rw [List.append_assoc, List.cons_append, split_line marked single, cut, List.cons_append]
  | @final mark body marked single last =>
      refine ⟨[⟨mark ++ body, .skip⟩], ?_, Skipped.nil.cons rfl⟩
      rw [ends last, List.append_nil, split_final marked single, split, List.append_nil]
  | @block body cs open' _ ih =>
      obtain ⟨skips, cut, skipped⟩ := ih
      refine ⟨⟨'/' :: '*' :: body ++ ['*', '/'], .skip⟩ :: skips, ?_, skipped.cons rfl⟩
      rw [List.append_assoc]
      refine (split_block open' (cs ++ rest)).trans ?_
      rw [cut]
      rfl

/-- In front of a gap there is no factor. -/
theorem split_gap {last : Bool} {cs rest : List Char} (gap : Gap last cs)
    (ends : last = true → rest = []) :
    ∃ skips, split (cs ++ rest) = skips ++ split rest ∧ Skipped skips ∧
      ∀ pieces, startsFactor (skips ++ pieces) = false := by
  obtain ⟨blank, trivia⟩ := gap
  rename_i c cs
  obtain ⟨skips, cut, skipped⟩ := split_trivia trivia ends
  refine ⟨⟨[c], .skip⟩ :: skips, ?_, skipped.cons rfl, fun pieces => ?_⟩
  · rw [List.cons_append, split_isBlank blank, cut, List.cons_append]
  · have unstarted : Identifier.starts c = false := Bool.eq_false_iff.mpr fun starts => by
      rw [isBlank_starts starts] at blank
      cases blank
    change (Identifier.starts c || c == '(') = false
    rw [unstarted, beq_blank blank rfl]
    rfl

/-! ### Pieces with a gap in between -/

/-- From the start of a piece on a text is cut as before. -/
theorem split_behind {text : List Char} {before after : List Piece}
    (cut : split text = before ++ after) : split (after.flatMap Piece.text) = after := by
  induction before generalizing text with
  | nil =>
      have whole := flatMap_split text
      rw [cut, List.nil_append] at whole
      rw [whole, cut, List.nil_append]
  | cons p before ih =>
      cases text with
      | nil =>
          rw [split] at cut
          cases cut
      | cons c cs =>
          rw [split_cons] at cut
          exact ih (List.cons.inj cut).2

/-- A text cut into pieces is cut into the same pieces up to a place between two of them, whatever
goes on there, as long as it goes on as before up to a blank. -/
theorem split_broken {text ds : List Char} {before after : List Piece}
    (cut : split text = before ++ after) (broken : Broken (after.flatMap Piece.text) ds)
    (ended : after = [] → ∀ p ∈ before.getLast?, ∃ t, p.content = .token t) :
    split (before.flatMap Piece.text ++ ds) = before ++ split ds := by
  induction before generalizing text with
  | nil => rfl
  | cons p before ih =>
      cases text with
      | nil =>
          rw [split] at cut
          cases cut
      | cons c cs =>
          rw [split_cons] at cut
          obtain ⟨rfl, tail⟩ := List.cons.inj cut
          have behind : split (cs.drop (scan c cs).1) = before ++ after := tail
          have rest : cs.drop (scan c cs).1 =
              before.flatMap Piece.text ++ after.flatMap Piece.text := by
            rw [← List.flatMap_append, ← behind, flatMap_split]
          have length : (cs.take (scan c cs).1).length = (scan c cs).1 :=
            List.length_take_of_le (scan_le c cs)
          have scanned : scan c (cs.take (scan c cs).1 ++ cs.drop (scan c cs).1) =
              ((cs.take (scan c cs).1).length, (scan c cs).2) := by
            rw [List.take_append_drop, length]
          have last : (∃ t, (scan c cs).2 = .token t) ∨ cs.drop (scan c cs).1 ≠ [] := by
            by_cases stop : cs.drop (scan c cs).1 = []
            · rw [stop, split] at behind
              obtain ⟨rfl, rfl⟩ := List.append_eq_nil_iff.mp behind.symm
              exact .inl (ended rfl _ rfl)
            · exact .inr stop
          have again := scan_broken (rest ▸ broken.append (before.flatMap Piece.text)) scanned last
          have ended' : after = [] → ∀ p ∈ before.getLast?, ∃ t, p.content = .token t :=
            fun none p inside => ended none p (by simp [List.getLast?_cons, Option.mem_def.mp inside])
          rw [List.flatMap_cons, List.append_assoc, List.cons_append, split_scanned _ again,
            ih behind ended', List.cons_append]

/-! ### What a text says -/

/-- What a piece says, wherever it stands: its token or fault, and a product sign between a number
and a factor behind it. -/
def said (implicit : Bool) (p : Piece) (rest : List Piece) : List (Except Cause Token) :=
  (Lexeme.ofContent 0 p.content).map Lexeme.content ++
    if implicit = true ∧ p.isNumber = true ∧ startsFactor rest = true then
      [.ok (.sym (.op .times))]
    else []

def contents (implicit : Bool) : List Piece → List (Except Cause Token)
  | [] => []
  | p :: rest => said implicit p rest ++ contents implicit rest

theorem content_ofPieces (implicit : Bool) (position : Nat) (pieces : List Piece) :
    (Lexeme.ofPieces implicit position pieces).map Lexeme.content = contents implicit pieces := by
  induction pieces generalizing position with
  | nil => rfl
  | cons p rest ih =>
      have here : (Lexeme.ofContent position p.content).map Lexeme.content =
          (Lexeme.ofContent 0 p.content).map Lexeme.content := by
        cases p.content <;> rfl
      rw [Lexeme.ofPieces, List.map_append, List.map_append, ih, here, contents, said]
      unfold Lexeme.product
      cases implicit <;> cases p.isNumber <;> cases startsFactor rest <;> rfl

/-- What is skipped says nothing. -/
theorem contents_skipped (implicit : Bool) {skips : List Piece} (skipped : Skipped skips)
    (pieces : List Piece) : contents implicit (skips ++ pieces) = contents implicit pieces := by
  induction skips with
  | nil => rfl
  | cons p skips ih =>
      obtain ⟨first, rest⟩ := List.forall_mem_cons.mp skipped
      rw [List.cons_append, contents, ih rest]
      simp [said, first, isNumber, Lexeme.ofContent]

/-- A number and a factor that touch where the pieces `before` end and the pieces `after` start. -/
def Touching (before after : List Piece) : Prop :=
  before.getLast?.any isNumber = true ∧ startsFactor after = true

instance (before after : List Piece) : Decidable (Touching before after) :=
  inferInstanceAs (Decidable (_ ∧ _))

/-- What is put in between pieces takes out nothing but the product sign between those it stands
between. -/
theorem contents_parted (implicit : Bool) {before after skips : List Piece}
    (skipped : Skipped skips) (apart : startsFactor (skips ++ after) = false) :
    ∃ front back, contents implicit (before ++ (skips ++ after)) = front ++ back ∧
      contents implicit (before ++ after) = front ++
        ((if implicit = true ∧ Touching before after then [.ok (.sym (.op .times))] else []) ++
          back) := by
  induction before with
  | nil =>
      refine ⟨[], contents implicit after, contents_skipped implicit skipped after, ?_⟩
      rw [if_neg fun touching => Bool.false_ne_true touching.2.1]
      rfl
  | cons p before ih =>
      cases before with
      | nil =>
          refine ⟨(Lexeme.ofContent 0 p.content).map Lexeme.content, contents implicit after, ?_, ?_⟩
          · rw [List.singleton_append, contents, contents_skipped implicit skipped, said, apart,
              if_neg fun sign => Bool.false_ne_true sign.2.2, List.append_nil]
          · rw [List.singleton_append, contents, said, List.append_assoc]
            rfl
      | cons q before =>
          obtain ⟨front, back, parted, whole⟩ := ih
          refine ⟨said implicit p (q :: before) ++ front, back, ?_, ?_⟩
          · rw [List.cons_append, contents, parted, List.append_assoc]
            rfl
          · rw [List.cons_append, contents, whole, List.append_assoc]
            rfl

end Piece

/-- A gap may stand between any two pieces of a text, in front of its first and behind its last if
that is a token. It leaves what is read as it is, but for the product sign between a number and a
factor that it parts. -/
theorem contents_gap (implicit : Bool) {text gap : List Char} {before after : List Piece}
    (cut : Piece.split text = before ++ after) (between : Gap after.isEmpty gap)
    (ended : after = [] → ∀ p ∈ before.getLast?, ∃ t, p.content = .token t) :
    ∃ front back,
      (Lexeme.read implicit (before.flatMap Piece.text ++ gap ++ after.flatMap Piece.text)).map
          Lexeme.content = front ++ back ∧
      (Lexeme.read implicit text).map Lexeme.content = front ++
        ((if implicit = true ∧ Piece.Touching before after then [.ok (.sym (.op .times))] else []) ++
          back) := by
  have ends : after.isEmpty = true → after.flatMap Piece.text = [] := fun empty => by
    rw [List.isEmpty_iff.mp empty]
    rfl
  obtain ⟨skips, skip, skipped, apart⟩ := Piece.split_gap between ends
  have broken : Broken (after.flatMap Piece.text) (gap ++ after.flatMap Piece.text) := by
    cases between with
    | mk blank _ => exact .here _ blank _
  rw [Lexeme.read, Lexeme.read, Piece.content_ofPieces, Piece.content_ofPieces, List.append_assoc,
    Piece.split_broken cut broken ended, skip, Piece.split_behind cut, cut]
  exact Piece.contents_parted implicit skipped (apart after)

end MathScript
