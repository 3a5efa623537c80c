import MathScript.Proofs.Gaps
import MathScript.Proofs.Outcomes

/-!
Only what a text says counts. Two texts whose lexemes differ in nothing but where they stand compile
to the same program, or are refused for the same causes; and a gap between two pieces of a text
moves lexemes, but changes none.
-/

namespace MathScript

namespace Compile

variable {table : Table} {settings : Settings} {params : List String} {text text' : String}

/-- Texts that say the same stand beside each other, wherever the lexemes are. -/
theorem resembles_of_contents
    (same : (lexemes settings text).map Lexeme.content =
      (lexemes settings text').map Lexeme.content) :
    Resembles settings settings text text' fun _ _ => True where
  asked := rfl
  errors := Nat.le_refl _
  lexemes := by
    have contents := List.forall₂_eq_eq_eq ▸ same
    rw [List.forall₂_map_left_iff, List.forall₂_map_right_iff] at contents
    exact contents.imp fun _ _ same => ⟨trivial, same⟩
  origin := trivial
  ending := trivial
  toward := fun here => ⟨here, trivial⟩
  back := fun there => ⟨there, trivial⟩

theorem causes_of_contents (kept : 0 < settings.maxErrors)
    (same : (lexemes settings text).map Lexeme.content =
      (lexemes settings text').map Lexeme.content) :
    (errors table settings params text).map Diagnostic.cause =
        (errors table settings params text').map Diagnostic.cause ∧
      (errors table settings params text = [] →
        compile table settings params text = compile table settings params text') := by
  obtain ⟨causes, accepted⟩ := (resembles_of_contents same).outcomes kept
    (fun d d' => d.cause = d'.cause) fun _ _ _ _ => rfl
  rw [List.take_of_length_le (length_errors_le kept)] at causes
  refine ⟨?_, accepted⟩
  rw [← List.forall₂_eq_eq_eq, List.forall₂_map_left_iff, List.forall₂_map_right_iff]
  exact causes

/-- Two texts that say the same are accepted as the same program or refused for the same causes. -/
theorem same_outcome (kept : 0 < settings.maxErrors)
    (same : (lexemes settings text).map Lexeme.content =
      (lexemes settings text').map Lexeme.content) :
    (∃ p, compile table settings params text = .ok p ∧
      compile table settings params text' = .ok p) ∨
    ∃ ds ds', compile table settings params text = .error ds ∧
      compile table settings params text' = .error ds' ∧
      ds.map Diagnostic.cause = ds'.map Diagnostic.cause := by
  obtain ⟨causes, accepted⟩ : (errors table settings params text).map Diagnostic.cause =
        (errors table settings params text').map Diagnostic.cause ∧
      (errors table settings params text = [] →
        compile table settings params text = compile table settings params text') :=
    causes_of_contents kept same
  cases compiled : compile table settings params text with
  | ok p =>
      have none := (errors_eq_nil kept).mpr ⟨p, compiled⟩
      exact .inl ⟨p, rfl, (accepted none).symm.trans compiled⟩
  | error ds =>
      cases compiled' : compile table settings params text' with
      | ok p =>
          have none := (errors_eq_nil kept).mpr ⟨p, compiled'⟩
          rw [none, List.map_nil, List.map_eq_nil_iff] at causes
          exact absurd (accepted causes) (by rw [compiled, compiled']; nofun)
      | error ds' =>
          rw [errors, errors, compiled, compiled'] at causes
          exact .inr ⟨ds, ds', rfl, rfl, causes⟩

/-- Only the tokens count, not where they stand. Two texts with the same tokens and faults are both
accepted, and then as one program, or both refused with diagnostics of the same categories and
messages. And blanks and comments in between two pieces of a text leave its tokens as they are. Only
a product sign between a number and a factor that they part is gone then. -/
theorem layout_does_not_count (table : Table) (settings : Settings) (params : List String)
    (kept : 0 < settings.maxErrors) :
    (∀ text text' : String,
      (lexemes settings text).map Lexeme.content = (lexemes settings text').map Lexeme.content →
      (∃ p, compile table settings params text = .ok p ∧
        compile table settings params text' = .ok p) ∨
      ∃ ds ds', compile table settings params text = .error ds ∧
        compile table settings params text' = .error ds' ∧
        ds.map (fun d => (d.category, d.message)) = ds'.map fun d => (d.category, d.message)) ∧
    ∀ (text : String) (gap : List Char) (before after : List Piece),
      Piece.split text.toList = before ++ after → Gap after.isEmpty gap →
      (after = [] → ∀ p ∈ before.getLast?, ∃ t, p.content = .token t) →
      let moved := String.ofList
        (before.flatMap Piece.text ++ gap ++ after.flatMap Piece.text)
      if settings.implicitMultiplication = true ∧ Piece.Touching before after then
        ∃ front back,
          (lexemes settings text).map Lexeme.content =
            front ++ .ok (.sym (.op .times)) :: back ∧
          (lexemes settings moved).map Lexeme.content = front ++ back
      else
        (lexemes settings moved).map Lexeme.content = (lexemes settings text).map Lexeme.content := by
  constructor
  · intro text text' same
    refine (same_outcome kept same).imp_right ?_
    rintro ⟨ds, ds', refused, refused', causes⟩
    refine ⟨ds, ds', refused, refused', ?_⟩
    have described := congrArg (List.map fun cause => (cause.category, cause.message)) causes
    rwa [List.map_map, List.map_map] at described
  · intro text gap before after cut between ended
    obtain ⟨front, back, parted, whole⟩ :=
      contents_gap settings.implicitMultiplication cut between ended
    simp only [lexemes, String.toList_ofList]
    split
    next touching =>
      rw [if_pos touching] at whole
      exact ⟨front, back, whole, parted⟩
    next apart =>
      rw [if_neg apart] at whole
      exact parted.trans whole.symm

/-- A name that is declared and read, with and without blanks, and two gaps: one between a name and
a symbol, one between a number and a name, which takes the product sign out. -/
theorem layout_does_not_count_of_gaps :
    let table := World.empty.table "t"
    let contents := fun text => (lexemes {} text).map Lexeme.content
    0 < ({} : Settings).maxErrors ∧
    (contents "var x:=true;x" = contents "var x := true; # given\n x" ∧
      ∃ p, compile table {} [] "var x:=true;x" = .ok p ∧
        compile table {} [] "var x := true; # given\n x" = .ok p) ∧
    contents "2x /*or*/ <=y" = contents "2x<=y" ∧
    ∃ front back, contents "2x<=y" = front ++ .ok (.sym (.op .times)) :: back ∧
      contents "2\nx<=y" = front ++ back := by
  have kept : 0 < ({} : Settings).maxErrors := by decide
  obtain ⟨same, moved⟩ := layout_does_not_count (World.empty.table "t") {} [] kept
  have contents : (lexemes {} "var x:=true;x").map Lexeme.content =
      (lexemes {} "var x := true; # given\n x").map Lexeme.content := by decide +kernel
  have comment : Gap false " /*or*/ ".toList :=
    .mk rfl (.block (show ¬ ['*', '/'] <:+: ['o', 'r'] by decide) (.blank rfl .none))
  have line : Gap false ['\n'] := .mk rfl .none
  refine ⟨kept, ⟨contents, ?_⟩, ?_, ?_⟩
  · refine (same _ _ contents).resolve_right ?_
    rintro ⟨ds, -, refused, -⟩
    have accepted : (compile (World.empty.table "t") {} [] "var x:=true;x").isOk = true := by
      decide +kernel
    rw [refused] at accepted
    cases accepted
  · have cut : Piece.split "2x<=y".toList =
        [⟨['2'], Piece.numberContent ['2']⟩, ⟨['x'], .token (.word "x")⟩] ++
          [⟨['<', '='], .token (.sym (.op .le))⟩, ⟨['y'], .token (.word "y")⟩] := by
      decide +kernel
    have apart := moved "2x<=y" _ _ _ cut comment nofun
    rw [if_neg (by decide +kernel)] at apart
    exact apart
  · have cut : Piece.split "2x<=y".toList = [⟨['2'], Piece.numberContent ['2']⟩] ++
        [⟨['x'], .token (.word "x")⟩, ⟨['<', '='], .token (.sym (.op .le))⟩,
          ⟨['y'], .token (.word "y")⟩] := by
      decide +kernel
    have parted := moved "2x<=y" _ _ _ cut line nofun
    rw [if_pos (by decide +kernel)] at parted
    exact parted

end Compile

end MathScript
