import MathScript.Proofs.Climbing
import MathScript.Proofs.Hosting
import MathScript.Proofs.Products

/-!
Names as tables and as texts have them. A text is read as one word, that text itself, exactly if it
is an identifier and none of the operators that are written in letters. All names of a table are
such texts, and none is a keyword or the name of a built-in function, so a text that is the name of
a variable or a constant is a program that reads it.
-/

namespace MathScript

/-- The operators that are written in letters. -/
def wordOperators : List String :=
  ["and", "or", "xor", "nand", "nor", "xnor", "in", "like", "ilike"]

theorem mem_wordOperators_iff {name : String} :
    name ∈ wordOperators ↔ isIdentifier name = true ∧ ∃ op : Op, op.symbol = name := by
  constructor
  · intro inside
    simp only [wordOperators, List.mem_cons, List.not_mem_nil, or_false] at inside
    rcases inside with rfl | rfl | rfl | rfl | rfl | rfl | rfl | rfl | rfl
    · exact ⟨by decide, .and, rfl⟩
    · exact ⟨by decide, .or, rfl⟩
    · exact ⟨by decide, .xor, rfl⟩
    · exact ⟨by decide, .nand, rfl⟩
    · exact ⟨by decide, .nor, rfl⟩
    · exact ⟨by decide, .xnor, rfl⟩
    · exact ⟨by decide, .member, rfl⟩
    · exact ⟨by decide, .like, rfl⟩
    · exact ⟨by decide, .ilike, rfl⟩
  · rintro ⟨letters, op, rfl⟩
    revert letters
    cases op <;> decide

/-! ### Texts of one word -/

namespace Piece

theorem wordContent_word_iff {name other : String} :
    wordContent name = .token (.word other) ↔ name ∉ wordOperators ∧ other = name := by
  unfold wordContent
  split
  case h_10 =>
    have outside : name ∉ wordOperators := by
      simp only [wordOperators, List.mem_cons, List.not_mem_nil, or_false, not_or]
      refine ⟨?_, ?_, ?_, ?_, ?_, ?_, ?_, ?_, ?_⟩ <;> assumption
    simp [outside, eq_comm]
  all_goals simp [wordOperators]

/-- A name is one piece. -/
theorem split_name {c : Char} {cs : List Char} (starts : Identifier.starts c = true)
    (continues : cs.all Identifier.continues = true) :
    split (c :: cs) = [⟨c :: cs, wordContent (String.ofList (c :: cs))⟩] := by
  have whole : cs.takeWhile Identifier.continues = cs := by
    have run := takeWhile_stops (List.all_eq_true.mp continues) (show ∀ c ∈ [].head?, _ from nofun)
    rwa [List.append_nil] at run
  rw [split_cons, Stretch.scan_word cs starts, whole, List.take_length, List.drop_length, split]

end Piece

/-- A word is a name, and as much of the text as one can be. -/
theorem scan_word_iff {c : Char} {cs : List Char} {name : String} :
    (Piece.scan c cs).2 = .token (.word name) ↔ Identifier.starts c = true ∧
      name = String.ofList (c :: cs.takeWhile Identifier.continues) ∧ name ∉ wordOperators := by
  by_cases starts : Identifier.starts c = true
  · rw [Stretch.scan_word cs starts, Piece.wordContent_word_iff]
    constructor
    · rintro ⟨outside, rfl⟩
      exact ⟨starts, rfl, outside⟩
    · rintro ⟨-, rfl, outside⟩
      exact ⟨outside, rfl⟩
  · refine iff_of_false (fun word => ?_) fun word => starts word.1
    rw [Bool.not_eq_true] at starts
    by_cases parenthesis : c = '('
    · subst parenthesis
      cases word
    · obtain ⟨s, same, -⟩ | ⟨x, same⟩ | ⟨value, same⟩ :=
        Stretch.scan_other cs starts parenthesis word <;> cases same

/-- A word among the lexemes of a text is no longer than what is left of the text where it
stands. -/
theorem extent_word {implicit : Bool} {position p : Nat} {cs : List Char} {name : String}
    (inside : ⟨p, .ok (.word name)⟩ ∈ Lexeme.ofPieces implicit position (Piece.split cs)) :
    p + utf8Length name.toList ≤ position + utf8Length cs := by
  induction cs using Piece.split.induct generalizing position with
  | case1 =>
      rw [Piece.split] at inside
      cases inside
  | case2 c cs n content scanned ih =>
      have length : utf8Length (c :: cs) =
          utf8Length (c :: cs.take n) + utf8Length (cs.drop n) := by
        rw [← utf8Length_append, List.cons_append, List.take_append_drop]
      rw [Piece.split_cons, scanned, Lexeme.ofPieces] at inside
      rcases List.mem_append.mp inside with front | later
      · rcases List.mem_append.mp front with here | sign
        · have place : p = position := Lexeme.position_ofContent here
          cases content with
          | skip => cases here
          | fault cause => cases List.mem_singleton.mp here
          | token t =>
              cases List.mem_singleton.mp here
              obtain ⟨starts, rfl, -⟩ := scan_word_iff.mp (congrArg Prod.snd scanned)
              have count : (cs.takeWhile Identifier.continues).length = n := by
                rw [Stretch.scan_word cs starts] at scanned
                exact congrArg Prod.fst scanned
              rw [String.toList_ofList, ← Stretch.take_takeWhile, count]
              omega
        · split at sign
          · unfold Lexeme.product at sign
            split at sign
            · cases List.mem_singleton.mp sign
            · cases sign
          · cases sign
      · have shorter := ih later
        change p + _ ≤ position + utf8Length (c :: cs.take n) + utf8Length (cs.drop n) at shorter
        omega

/-- A word at the start is that of the first piece: what comes behind a piece stands further on. -/
theorem scan_of_read_word {implicit : Bool} {c : Char} {cs : List Char} {name : String}
    (read : Lexeme.read implicit (c :: cs) = [⟨0, .ok (.word name)⟩]) :
    (Piece.scan c cs).2 = .token (.word name) := by
  rw [Lexeme.read, Piece.split_cons, Lexeme.ofPieces] at read
  cases content : (Piece.scan c cs).2 with
  | token t =>
      rw [content, Lexeme.ofContent, List.append_assoc, List.singleton_append] at read
      cases (List.cons.inj read).1
      rfl
  | fault cause =>
      rw [content, Lexeme.ofContent, List.append_assoc, List.singleton_append] at read
      cases (List.cons.inj read).1
  | skip =>
      have length := utf8Length_pos c (cs.take (Piece.scan c cs).1)
      have later : ⟨0, .ok (.word name)⟩ ∈ Lexeme.ofPieces implicit
          (0 + utf8Length (c :: cs.take (Piece.scan c cs).1))
          (Piece.split (cs.drop (Piece.scan c cs).1)) := by
        have unsigned : Lexeme.product (0 + utf8Length (c :: cs.take (Piece.scan c cs).1))
            ⟨c :: cs.take (Piece.scan c cs).1, .skip⟩
            (Piece.split (cs.drop (Piece.scan c cs).1)) = [] := rfl
        rw [content] at read
        simp only [unsigned, Lexeme.ofContent, ite_self, List.nil_append] at read
        rw [read]
        exact List.mem_singleton_self _
      have behind : 0 + utf8Length (c :: cs.take (Piece.scan c cs).1) ≤ 0 :=
        (Lexeme.position_ofPieces later).1
      omega

/-- A text is read as itself, one word, just if it is a name and no operator. -/
theorem read_word_iff (implicit : Bool) (name : String) :
    Lexeme.read implicit name.toList = [⟨0, .ok (.word name)⟩] ↔
      isIdentifier name = true ∧ name ∉ wordOperators := by
  rw [isIdentifier]
  cases chars : name.toList with
  | nil =>
      refine iff_of_false (fun read => ?_) fun valid => Bool.false_ne_true valid.1
      rw [Lexeme.read, Piece.split] at read
      cases read
  | cons c cs =>
      rw [Identifier.valid, Bool.and_eq_true]
      constructor
      · intro read
        obtain ⟨starts, same, outside⟩ := scan_word_iff.mp (scan_of_read_word read)
        have letters := congrArg String.toList same
        rw [String.toList_ofList, chars] at letters
        refine ⟨⟨starts, ?_⟩, outside⟩
        rw [(List.cons.inj letters).2]
        exact List.all_takeWhile
      · rintro ⟨⟨starts, continues⟩, outside⟩
        have same : String.ofList (c :: cs) = name := by rw [← chars, String.ofList_toList]
        rw [Lexeme.read, Piece.split_name starts continues, same,
          Piece.wordContent_word_iff.mpr ⟨outside, rfl⟩]
        cases implicit <;> rfl

/-- A text that has itself as its only lexeme has nothing in front of it. -/
theorem content_read_word_iff (implicit : Bool) (name : String) :
    (Lexeme.read implicit name.toList).map Lexeme.content = [.ok (.word name)] ↔
      Lexeme.read implicit name.toList = [⟨0, .ok (.word name)⟩] := by
  constructor
  · intro contents
    obtain ⟨⟨p, content⟩, ls, read, rfl, none⟩ := List.map_eq_cons_iff.mp contents
    rw [List.map_eq_nil_iff] at none
    subst none
    have inside : ⟨p, .ok (.word name)⟩ ∈ Lexeme.read implicit name.toList := by
      rw [read]
      exact List.mem_singleton_self _
    have shorter := extent_word inside
    have start : p = 0 := by omega
    rw [read, start]
  · intro read
    rw [read]
    rfl

/-! ### Programs of one name -/

/-- The binding that a program has of a symbol; none of a function, which is called. -/
def Table.reference? (t : Table) (name : String) (s : Symbol) : Option Binding :=
  (Parse.place? s).map fun place => ⟨name, place, s.isVariable && !t.immutable⟩

/-- A program that reads a symbol. Constants can be folded. -/
def Table.reading? (t : Table) (folding : Bool) (name : String) : Symbol → Option Tree
  | .scalar c => some (.load ⟨name, .scalar c, !t.immutable⟩)
  | .vector c => some (.load ⟨name, .vector c, !t.immutable⟩)
  | .string c => some (.load ⟨name, .string c, !t.immutable⟩)
  | .constant x => some (if folding then .number x else .load ⟨name, .constant x, false⟩)
  | .function _ => none

/-- What a symbol holds. -/
def Store.holding? (store : Store) : Symbol → Option Value
  | .scalar c => some (.scalar (store.scalar c))
  | .vector c => some (.vector (store.vector c))
  | .string c => some (.string (store.string c))
  | .constant x => some (.scalar x)
  | .function _ => none

namespace Parse

variable {source : Source} {expression : Parse Typed} {name : String} {s : Symbol} {b : Binding}
  {ts : List Token}

/-- The name of what can be read is read. -/
theorem turns_reference (nameable : Nameable name) (bound : source.table.find? name = some s)
    (referred : source.table.reference? name s = some b)
    (closed : ts.head? ≠ some (.sym .lbracket)) :
    Turns [] (primary source expression) (.word name :: ts) ⟨.load b, b.kind⟩ ts := by
  refine turns_position source fun here => ?_
  refine (turns_check source .semicolon).bind ?_
  refine (turns_advance source).bind ?_
  change Turns [] (word source expression name here) ts _ _
  rw [word_nameable source nameable]
  refine turns_get fun state stands => ?_
  have unknown : findLocal name state.scopes = none := by
    rw [stands.scopes]
    rfl
  rw [unknown, bound]
  have accessed : Turns [] (access source expression b here) ts ⟨.load b, b.kind⟩ ts :=
    turns_access closed here
  cases s with
  | function f => cases referred
  | scalar c | vector c | string c | constant x =>
      cases referred
      exact accessed state stands

/-- A text that is such a name is a program. -/
theorem turns_name (nameable : Nameable name) (bound : source.table.find? name = some s)
    (referred : source.table.reference? name s = some b) (nested : 1 ≤ source.limits.nesting)
    (allowed : 2 ≤ source.allowance) :
    Turns [] (program source) [.word name] [⟨.load b, b.kind⟩] [] := by
  have plain := nameable.spelled.2.1
  have other : ∀ keyword ∈ keywords, Token.word name ≠ .word keyword := by
    rintro keyword inside ⟨⟩
    exact plain inside
  obtain ⟨levels, depth⟩ := Nat.exists_eq_add_of_le' nested
  obtain ⟨rounds, allowance⟩ := Nat.exists_eq_add_of_le' allowed
  have loose : headPrecedence [] < 1 := Nat.one_pos
  have operand : Turns [] (operand source source.limits.nesting) [.word name]
      ⟨.load b, b.kind⟩ [] := by
    rw [depth]
    refine turns_prefixed ⟨by simp, by simp, by simp, other _ (by decide)⟩ ?_
    exact turns_reference nameable bound referred (by simp)
  have chained : Turns [] (chain source (Parse.operand source source.limits.nesting) 1)
      [.word name] ⟨.load b, b.kind⟩ [] := by
    rw [chain, allowance]
    exact operand.bind (turns_climb_none loose _ (Nat.le_add_left 1 rounds))
  refine turns_statements (List.cons_ne_nil _ _)
    ⟨by simp, by simpa using other _ (by decide), by simpa using other _ (by decide)⟩ ?_
    (by omega) allowed
  rw [Parse.expression, allowance]
  refine turns_expressions (.inl rfl) ?_
  refine turns_position source fun here => ?_
  exact chained.bind ((turns_eat_other source (by simp)).bind (turns_pure _))

end Parse

section

variable {t : Table} {name : String} {s : Symbol} {settings : Settings}

/-- A name that can be given to a symbol is read as one word. -/
theorem Nameable.read (nameable : Nameable name) (implicit : Bool) :
    Lexeme.read implicit name.toList = [⟨0, .ok (.word name)⟩] := by
  have keyword : ∀ op ∈ wordOperators, op ∈ keywords := by decide
  exact (read_word_iff implicit name).mpr
    ⟨nameable.identifier, fun operator => nameable.spelled.2.1 (keyword name operator)⟩

/-- The name of a symbol, for a text, is parsed as what reads it. -/
theorem parse_name (nameable : Nameable name) (bound : t.find? name = some s) {b : Binding}
    (referred : t.reference? name s = some b) (nested : 0 < settings.maxNestingDepth) :
    parse t settings [] name = .ok ⟨.load b, 0⟩ := by
  have read := nameable.read settings.implicitMultiplication
  have stands : Parse.Stands [] [.word name] (Compile.start settings [] name.toList) := by
    refine ⟨?_, rfl, rfl, rfl⟩
    change (Lexeme.read _ _).map Lexeme.content = _
    rw [read]
    rfl
  let source : Parse.Source := ⟨name.toList, t, settings.limits,
    (Compile.start settings [] name.toList).rest.length + settings.maxErrors + 2⟩
  have turns : Parse.Turns [] (Parse.program source) [.word name] [⟨.load b, b.kind⟩] [] :=
    Parse.turns_name nameable bound referred nested (Nat.le_add_left 2 _)
  have ended := turns _ stands
  unfold parse
  dsimp only
  split
  · next stopped => exact (ended.of_error stopped).elim
  · next completed =>
      obtain ⟨rfl, stands'⟩ := ended.of_ok completed
      rw [stands'.diagnostics, stands'.frameSize]
      rfl

theorem compile_name (nameable : Nameable name) (bound : t.find? name = some s) {tree : Tree}
    (reading : t.reading? settings.constantFolding name s = some tree)
    (nested : 0 < settings.maxNestingDepth) :
    compile t settings [] name = .ok ⟨tree, 0⟩ := by
  obtain ⟨b, referred, same⟩ : ∃ b, t.reference? name s = some b ∧
      (if settings.constantFolding then (Tree.load b).fold else .load b) = tree := by
    cases s with
    | function f => cases reading
    | scalar c | vector c | string c =>
        cases reading
        exact ⟨_, rfl, ite_self _⟩
    | constant x =>
        cases reading
        exact ⟨_, rfl, rfl⟩
  rw [compile, parse_name nameable bound referred nested, Except.map, ← same]
  cases settings.constantFolding <;> rfl

theorem run_reading {folding : Bool} {tree : Tree} (reading : t.reading? folding name s = some tree)
    (host : Host) (store : Store) : ∃ v, store.holding? s = some v ∧
      host.run ⟨tree, 0⟩ store = ⟨.finished v none, store, []⟩ := by
  cases s with
  | function f => cases reading
  | scalar c | vector c | string c =>
      cases reading
      exact ⟨_, rfl, rfl⟩
  | constant x =>
      cases reading
      refine ⟨_, rfl, ?_⟩
      cases folding <;> rfl

end

/-- Names are read back. A text is an identifier, and none of the operators that are written in
letters, exactly if the one thing read from it is that word. Each name in a table of a world is
read so, is no keyword and no built-in function; where it names a variable or a constant the text
of the name is a program, which reads just that: a run gives what the symbol holds and changes
nothing. -/
theorem names_read_back :
    (∀ implicit name, isIdentifier name = true ∧ name ∉ wordOperators ↔
      (Lexeme.read implicit name.toList).map Lexeme.content = [.ok (.word name)]) ∧
    ∀ w : World, w.Reached → ∀ table name s, (w.table table).find? name = some s →
      (∀ implicit, Lexeme.read implicit name.toList = [⟨0, .ok (.word name)⟩]) ∧
      name ∉ keywords ∧ isBuiltin name = false ∧
      ∀ settings : Settings, 0 < settings.maxNestingDepth → (∀ f, s ≠ .function f) →
        ∃ tree, (w.table table).reading? settings.constantFolding name s = some tree ∧
          compile (w.table table) settings [] name = .ok ⟨tree, 0⟩ ∧
          ∀ (host : Host) (store : Store), ∃ v, store.holding? s = some v ∧
            host.run ⟨tree, 0⟩ store = ⟨.finished v none, store, []⟩ := by
  refine ⟨fun implicit name => ?_, fun w reached table name s bound => ?_⟩
  · rw [content_read_word_iff, read_word_iff]
  · have nameable : Nameable name := reached.nameable table _ (Named.mem_of_lookup_eq_some bound)
    refine ⟨nameable.read, nameable.spelled.2.1, nameable.spelled.2.2,
      fun settings nested plain => ?_⟩
    obtain ⟨tree, reading⟩ : ∃ tree,
        (w.table table).reading? settings.constantFolding name s = some tree := by
      cases s with
      | function f => exact absurd rfl (plain f)
      | scalar c | vector c | string c | constant x => exact ⟨_, rfl⟩
    exact ⟨tree, reading, compile_name nameable bound reading nested, run_reading reading⟩

/-- The text that is the name of a vector is read as one word and gives its elements. -/
theorem names_read_back_of_vector :
    let w := World.empty.run [.addConstant "t" "k" 3, .addVector "t" "v.x" #[1, 2]]
    w.Reached ∧ ∃ cell, (w.table "t").find? "v.x" = some (.vector cell) ∧
      0 < ({} : Settings).maxNestingDepth ∧ (∀ f, Symbol.vector cell ≠ .function f) ∧
      Lexeme.read true "v.x".toList = [⟨0, .ok (.word "v.x")⟩] ∧
      compile (w.table "t") {} [] "v.x" = .ok ⟨.load ⟨"v.x", .vector cell, true⟩, 0⟩ ∧
      ∀ host : Host, host.run ⟨.load ⟨"v.x", .vector cell, true⟩, 0⟩ w.store =
        ⟨.finished (.vector #[1, 2]) none, w.store, []⟩ := by
  intro w
  have reached : w.Reached := ⟨_, rfl⟩
  have nested : 0 < ({} : Settings).maxNestingDepth := by decide
  obtain ⟨cell, bound, held⟩ : ∃ cell, (w.table "t").find? "v.x" = some (.vector cell) ∧
      w.store.vector cell = #[1, 2] := ⟨_, rfl, by decide +kernel⟩
  have plain : ∀ f, Symbol.vector cell ≠ .function f := nofun
  obtain ⟨read, -, -, programs⟩ := names_read_back.2 w reached "t" "v.x" _ bound
  obtain ⟨tree, reading, compiled, runs⟩ := programs {} nested plain
  cases reading
  refine ⟨reached, cell, bound, nested, plain, read true, compiled, fun host => ?_⟩
  obtain ⟨v, holding, run⟩ := runs host w.store
  cases holding
  rw [← held]
  exact run

end MathScript
