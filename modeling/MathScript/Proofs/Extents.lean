import MathScript.Lexeme

/-!
Where lexemes stand. The pieces of a text in order make up the text, so the lexemes come in the
order of their positions and none stands behind the end of the text.
-/

namespace MathScript

theorem utf8Length_cons (c : Char) (cs : List Char) :
    utf8Length (c :: cs) = c.utf8Size + utf8Length cs := by
  have shift : ∀ (cs : List Char) (n : Nat),
      cs.foldl (fun n c => n + c.utf8Size) n = n + utf8Length cs := by
    intro cs
    induction cs with
    | nil => exact fun n => rfl
    | cons c cs ih =>
        intro n
        rw [utf8Length, List.foldl_cons, List.foldl_cons, ih, ih]
        omega
  rw [utf8Length, List.foldl_cons, shift]
  omega

theorem utf8Length_append (cs ds : List Char) :
    utf8Length (cs ++ ds) = utf8Length cs + utf8Length ds := by
  induction cs with
  | nil => simp [utf8Length]
  | cons c cs ih =>
      rw [List.cons_append, utf8Length_cons, utf8Length_cons, ih]
      omega

theorem utf8Length_pos (c : Char) (cs : List Char) : 0 < utf8Length (c :: cs) := by
  have size := c.utf8Size_pos
  rw [utf8Length_cons]
  omega

namespace Piece

theorem split_cons (c : Char) (cs : List Char) :
    split (c :: cs) = ⟨c :: cs.take (scan c cs).1, (scan c cs).2⟩ ::
      split (cs.drop (scan c cs).1) := by
  rw [split]

/-- The pieces of a text in order make up the text. -/
theorem flatMap_split (cs : List Char) : (split cs).flatMap text = cs := by
  induction cs using split.induct with
  | case1 => simp [split]
  | case2 c cs n content scanned ih =>
      rw [split_cons, List.flatMap_cons, scanned, ih, List.cons_append, List.take_append_drop]

/-- What cannot be read is a fault of the text, not of what it says. -/
theorem lexical_scan {c : Char} {cs : List Char} {cause : Cause}
    (faulty : (scan c cs).2 = .fault cause) : cause.category = .lexer := by
  unfold scan at faulty
  split at faulty
  · cases faulty
  · split at faulty
    · cases faulty
    · split at faulty
      · split at faulty <;> cases faulty
        rfl
      · split at faulty
        · simp only [numberContent] at faulty
          split at faulty <;> cases faulty
          rfl
        · split at faulty
          · simp only [wordContent] at faulty
            split at faulty <;> cases faulty
          · split at faulty
            · split at faulty <;> cases faulty
              rfl
            · split at faulty <;> cases faulty
              rfl

end Piece

namespace Lexeme

theorem position_ofContent {position : Nat} {content : Content} {l : Lexeme}
    (inside : l ∈ ofContent position content) : l.position = position := by
  cases content with
  | skip => cases inside
  | token t => rw [List.mem_singleton.mp inside]
  | fault cause => rw [List.mem_singleton.mp inside]

theorem position_product {position : Nat} {p : Piece} {rest : List Piece} {l : Lexeme}
    (inside : l ∈ product position p rest) : l.position = position := by
  unfold product at inside
  split at inside
  · rw [List.mem_singleton.mp inside]
  · cases inside

/-- A lexeme of a piece stands where the piece starts, a product sign where it ends. -/
theorem position_ofPieces {implicit : Bool} {position : Nat} {pieces : List Piece} {l : Lexeme}
    (inside : l ∈ ofPieces implicit position pieces) :
    position ≤ l.position ∧ l.position ≤ position + utf8Length (pieces.flatMap Piece.text) := by
  induction pieces generalizing position with
  | nil => cases inside
  | cons p rest ih =>
      rw [List.flatMap_cons, utf8Length_append]
      simp only [ofPieces, List.mem_append] at inside
      rcases inside with (here | sign) | later
      · rw [position_ofContent here]
        omega
      · split at sign
        · rw [position_product sign]
          omega
        · cases sign
      · have bounds := ih later
        omega

theorem ordered_ofPieces (implicit : Bool) (position : Nat) (pieces : List Piece) :
    (ofPieces implicit position pieces).Pairwise fun l l' => l.position ≤ l'.position := by
  induction pieces generalizing position with
  | nil => exact .nil
  | cons p rest ih =>
      have single : (ofContent position p.content).Pairwise
          fun l l' => l.position ≤ l'.position := by
        cases p.content <;> simp [ofContent]
      have sign : (if implicit then product (position + utf8Length p.text) p rest else []).Pairwise
          fun l l' => l.position ≤ l'.position := by
        unfold product
        split
        · split <;> simp
        · exact .nil
      rw [ofPieces]
      refine List.pairwise_append.mpr ⟨List.pairwise_append.mpr ⟨single, sign, ?_⟩, ih _, ?_⟩
      · intro l here l' signed
        split at signed
        · rw [position_ofContent here, position_product signed]
          omega
        · cases signed
      · intro l before l' later
        have behind := (position_ofPieces later).1
        rcases List.mem_append.mp before with here | signed
        · rw [position_ofContent here]
          omega
        · split at signed
          · rw [position_product signed]
            exact behind
          · cases signed

/-- Lexemes come in the order of their positions. -/
theorem ordered_read (implicit : Bool) (source : List Char) :
    (read implicit source).Pairwise fun l l' => l.position ≤ l'.position :=
  ordered_ofPieces implicit 0 _

/-- Every fault among the lexemes is one of the text. -/
theorem lexical_read {implicit : Bool} {source : List Char} {l : Lexeme} {cause : Cause}
    (inside : l ∈ read implicit source) (faulty : l.content = .error cause) :
    cause.category = .lexer := by
  unfold read at inside
  generalize 0 = position at inside
  induction source using Piece.split.induct generalizing position with
  | case1 => simp [Piece.split, ofPieces] at inside
  | case2 c cs n content scanned ih =>
      rw [Piece.split_cons, ofPieces, scanned] at inside
      rcases List.mem_append.mp inside with front | later
      · rcases List.mem_append.mp front with here | sign
        · cases content with
          | skip => cases here
          | token t =>
              rw [List.mem_singleton.mp here] at faulty
              cases faulty
          | fault cause' =>
              rw [List.mem_singleton.mp here] at faulty
              cases faulty
              exact Piece.lexical_scan (congrArg Prod.snd scanned)
        · -- A sign that is put in is a token.
          unfold product at sign
          split at sign
          · split at sign
            · rw [List.mem_singleton.mp sign] at faulty
              cases faulty
            · cases sign
          · cases sign
      · exact ih _ later

/-- No lexeme stands behind the end of the text. -/
theorem position_read {implicit : Bool} {source : List Char} {l : Lexeme}
    (inside : l ∈ read implicit source) : l.position ≤ utf8Length source := by
  have bounds := (position_ofPieces inside).2
  rwa [Piece.flatMap_split, Nat.zero_add] at bounds

end Lexeme

end MathScript
