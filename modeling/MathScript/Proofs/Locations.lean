import Mathlib.Data.List.Induction
import Mathlib.Data.Prod.Lex
import MathScript.Proofs.Acceptance
import MathScript.Proofs.Outcomes
import MathScript.Proofs.Spelling

/-!
Where diagnostics stand. Each is put down for a lexeme or for the end of the text, so a character
starts at its position or the text ends there, and its line and column are those of that place.
Places that follow one another in a text do so by line and column, so these tell the position.
-/

namespace MathScript

/-! ### Cutting a text -/

theorem cutAt?_append (front rest : List Char) :
    cutAt? (front ++ rest) (utf8Length front) = some (front, rest) := by
  induction front with
  | nil => simp [utf8Length, cutAt?]
  | cons c front ih =>
      obtain ⟨n, size⟩ := Nat.exists_eq_add_one.mpr c.utf8Size_pos
      have length : utf8Length (c :: front) = n + utf8Length front + 1 := by
        rw [utf8Length_cons]
        omega
      have behind : n + utf8Length front + 1 - c.utf8Size = utf8Length front := by omega
      rw [length, List.cons_append, cutAt?, if_neg (by omega), behind, ih]
      rfl

/-- A text can be cut at a position. -/
def Boundary (source : List Char) (position : Nat) : Prop :=
  ∃ front rest, source = front ++ rest ∧ utf8Length front = position

theorem utf8ByteSize_ofList (cs : List Char) :
    (String.ofList cs).utf8ByteSize = utf8Length cs := by
  induction cs with
  | nil => rfl
  | cons c cs ih =>
      rw [String.ofList_cons, String.utf8ByteSize_append, String.utf8ByteSize_singleton, ih,
        utf8Length_cons]

theorem isValid_iff_boundary {text : String} {position : Nat} :
    String.Pos.Raw.IsValid text ⟨position⟩ ↔ Boundary text.toList position := by
  rw [String.Pos.Raw.isValid_iff_exists_append]
  constructor
  · rintro ⟨front, rest, rfl, same⟩
    refine ⟨front.toList, rest.toList, String.toList_append, ?_⟩
    rw [← utf8ByteSize_ofList, String.ofList_toList]
    exact (congrArg String.Pos.Raw.byteIdx same).symm
  · rintro ⟨front, rest, whole, rfl⟩
    refine ⟨String.ofList front, String.ofList rest, ?_, ?_⟩
    · rw [← String.ofList_append, ← whole, String.ofList_toList]
    · rw [← utf8ByteSize_ofList]
      rfl

/-! ### Lines and columns -/

/-- A position with its line and column. Of what stands in front of it `last` is the line that it is
on, and `earlier` the lines before that. -/
def Locates (source : List Char) (position line column : Nat) : Prop :=
  ∃ earlier last rest, source = earlier ++ last ++ rest ∧
    utf8Length (earlier ++ last) = position ∧
    (∀ c ∈ earlier.getLast?, c = '\n') ∧ '\n' ∉ last ∧
    line = 1 + earlier.count '\n' ∧ column = 1 + last.length

namespace Location

variable {source front rest earlier last : List Char} {position : Nat}

theorem before_boundary (whole : source = front ++ rest) (length : utf8Length front = position) :
    before source position = front := by
  subst whole length
  rw [before, cutAt?_append]
  rfl

/-- The last line of a text, and the lines before it. -/
theorem exists_last (front : List Char) : ∃ earlier last, front = earlier ++ last ∧
    (∀ c ∈ earlier.getLast?, c = '\n') ∧ '\n' ∉ last := by
  induction front using List.reverseRecOn with
  | nil => exact ⟨[], [], rfl, nofun, List.not_mem_nil⟩
  | append_singleton front c ih =>
      obtain ⟨earlier, last, rfl, ended, single⟩ := ih
      by_cases newline : c = '\n'
      · refine ⟨earlier ++ last ++ [c], [], by simp, ?_, List.not_mem_nil⟩
        simpa using newline
      · refine ⟨earlier, last ++ [c], by simp, ended, ?_⟩
        simpa [single] using Ne.symm newline

section

variable (ended : ∀ c ∈ earlier.getLast?, c = '\n') (single : '\n' ∉ last)

include single

theorem line_append : line (earlier ++ last) = 1 + earlier.count '\n' := by
  rw [line, List.count_append, List.count_eq_zero_of_not_mem single]
  omega

include ended

theorem column_append : column (earlier ++ last) = 1 + last.length := by
  have all : ∀ c ∈ last.reverse, decide (c ≠ '\n') = true := fun c inside => decide_eq_true (by
    rintro rfl
    exact single (List.mem_reverse.mp inside))
  have stops : ∀ c ∈ earlier.reverse.head?, decide (c ≠ '\n') = false := fun c first => by
    simpa using ended c (List.head?_reverse ▸ first)
  rw [column, List.reverse_append, takeWhile_stops all stops, List.length_reverse, Nat.add_comm]

end

end Location

namespace Locates

open Location

variable {source front rest : List Char} {p q line column line' column' : Nat}

theorem of_front (front rest : List Char) : Locates (front ++ rest) (utf8Length front)
    (Location.line front) (Location.column front) := by
  obtain ⟨earlier, last, rfl, ended, single⟩ := exists_last front
  exact ⟨earlier, last, rest, rfl, rfl, ended, single, line_append single,
    column_append ended single⟩

theorem front_eq (located : Locates source p line column) : ∃ front rest, source = front ++ rest ∧
    utf8Length front = p ∧ line = Location.line front ∧ column = Location.column front := by
  obtain ⟨earlier, last, rest, whole, length, ended, single, lines, columns⟩ := located
  exact ⟨earlier ++ last, rest, whole, length, lines.trans (line_append single).symm,
    columns.trans (column_append ended single).symm⟩

theorem boundary (located : Locates source p line column) : Boundary source p := by
  obtain ⟨front, rest, whole, length, -, -⟩ := located.front_eq
  exact ⟨front, rest, whole, length⟩

/-- More text in front is on a later line, or further on in the same one. -/
theorem front_lt {more : List Char} (some : more ≠ []) :
    toLex (Location.line front, Location.column front) <
      toLex (Location.line (front ++ more), Location.column (front ++ more)) := by
  rw [Prod.Lex.toLex_lt_toLex]
  by_cases newline : '\n' ∈ more
  · have counted := List.count_pos_iff.mpr newline
    refine .inl ?_
    simp only [Location.line, List.count_append]
    omega
  · have all : ∀ c ∈ more.reverse, decide (c ≠ '\n') = true := fun c inside => decide_eq_true (by
      rintro rfl
      exact newline (List.mem_reverse.mp inside))
    have longer := List.length_pos_iff.mpr some
    refine .inr ⟨?_, ?_⟩
    · simp only [Location.line, List.count_append, List.count_eq_zero_of_not_mem newline,
        Nat.add_zero]
    · simp only [Location.column, List.reverse_append, List.takeWhile_append_of_pos all,
        List.length_append, List.length_reverse]
      omega

/-- Of two positions the one behind has the greater line and column. -/
theorem lt (located : Locates source p line column) (located' : Locates source q line' column')
    (less : p < q) : toLex (line, column) < toLex (line', column') := by
  obtain ⟨front, rest, whole, rfl, rfl, rfl⟩ := located.front_eq
  obtain ⟨front', rest', whole', rfl, rfl, rfl⟩ := located'.front_eq
  rcases List.append_eq_append_iff.mp (whole.symm.trans whole') with ⟨more, rfl, -⟩ | ⟨more, rfl, -⟩
  · refine front_lt ?_
    rintro rfl
    simp at less
  · rw [utf8Length_append] at less
    omega

theorem unique (located : Locates source p line column)
    (located' : Locates source p line' column') : line = line' ∧ column = column' := by
  obtain ⟨front, rest, whole, length, rfl, rfl⟩ := located.front_eq
  obtain ⟨front', rest', whole', length', rfl, rfl⟩ := located'.front_eq
  obtain rfl : front = front' :=
    (before_boundary whole length).symm.trans (before_boundary whole' length')
  exact ⟨rfl, rfl⟩

end Locates

theorem Diagnostic.locates_locate {source : List Char} {position : Nat}
    (boundary : Boundary source position) (cause : Cause) :
    let d := Diagnostic.locate source position cause
    Locates source d.position d.line d.column := by
  obtain ⟨front, rest, rfl, rfl⟩ := boundary
  have within : min (utf8Length front) (utf8Length (front ++ rest)) = utf8Length front := by
    rw [utf8Length_append]
    omega
  simp only [Diagnostic.locate, within, Location.before_boundary rfl rfl]
  exact Locates.of_front front rest

/-! ### What diagnostics are put down for -/

theorem Lexeme.boundary_ofPieces {implicit : Bool} {position : Nat} {pieces : List Piece}
    {l : Lexeme} (inside : l ∈ ofPieces implicit position pieces) :
    ∃ front rest, pieces.flatMap Piece.text = front ++ rest ∧
      l.position = position + utf8Length front := by
  induction pieces generalizing position with
  | nil => cases inside
  | cons p pieces ih =>
      rw [List.flatMap_cons]
      simp only [ofPieces, List.mem_append] at inside
      rcases inside with (here | sign) | later
      · exact ⟨[], _, rfl, position_ofContent here⟩
      · split at sign
        · exact ⟨p.text, _, rfl, position_product sign⟩
        · cases sign
      · obtain ⟨front, rest, same, placed⟩ := ih later
        refine ⟨p.text ++ front, rest, by rw [same, List.append_assoc], ?_⟩
        rw [placed, utf8Length_append, Nat.add_assoc]

/-- Every lexeme stands where the text can be cut. -/
theorem Lexeme.boundary_read {implicit : Bool} {source : List Char} {l : Lexeme}
    (inside : l ∈ read implicit source) : Boundary source l.position := by
  obtain ⟨front, rest, same, placed⟩ := boundary_ofPieces inside
  rw [Piece.flatMap_split] at same
  exact ⟨front, rest, same, by rw [placed, Nat.zero_add]⟩

namespace Parse

variable {source : Source} {given : List Lexeme}
variable {list took : Bool} {b s : State} {es : List Entry}

/-- A diagnostic is put down for a lexeme or for the end of the text. -/
def Pinned (source : Source) (given : List Lexeme) (d : Diagnostic) : Prop :=
  ∃ position cause, d = Diagnostic.locate source.text position cause ∧
    (position = utf8Length source.text ∨ ∃ l ∈ given, l.position = position)

theorem pinned_front (ready : Ready source given s) (cause : Cause) :
    Pinned source given (Diagnostic.locate source.text (s.front source) cause) := by
  refine ⟨_, cause, rfl, ?_⟩
  cases next : s.left with
  | nil => exact .inl (by rw [State.front, next, startOf])
  | cons l rest =>
      exact .inr ⟨l, ready.left.subset (next ▸ List.mem_cons_self),
        by rw [State.front, next, startOf]⟩

theorem Act.pinned (act : Act source b took es s) (ready : Ready source given b) :
    ∀ d ∈ notes es, Pinned source given d := by
  cases act with
  | @fault position cause rest next =>
      have there : ⟨position, .error cause⟩ ∈ given :=
        ready.left.subset (b.rest_sublist.subset (next ▸ List.mem_cons_self))
      simp only [notes_noted, notes_nil, List.forall_mem_singleton]
      exact ⟨position, cause, rfl, .inr ⟨_, there, rfl⟩⟩
  | look => simp
  | take => simp
  | turn => simp

theorem Acts.pinned (acts : Acts source b took es s) (ready : Ready source given b) :
    ∀ d ∈ notes es, Pinned source given d := by
  induction acts with
  | refl => simp
  | step before act ih =>
      rw [notes_append, List.forall_mem_append]
      exact ⟨ih ready, act.pinned (before.moved ready).ready⟩

theorem Passage.pinned (passage : Passage source list b took es s) (ready : Ready source given b) :
    ∀ d ∈ notes es, Pinned source given d := by
  induction passage with
  | refl => simp
  | act before act ih =>
      rw [notes_append, List.forall_mem_append]
      exact ⟨ih ready, act.pinned (before.moved ready).ready⟩
  | nest before next opens inner ih ihInner =>
      have readyS := (before.moved ready).ready
      have readyT := ((Act.take next).moved readyS).ready
      rw [notes_append, notes_taken, List.forall_mem_append]
      exact ⟨ih ready, ihInner readyT⟩
  | failed before first second proper open' skipped progress ih ihFirst ihSecond =>
      have readyB := (before.moved ready).ready
      have readyM := (first.moved readyB).ready
      have readyS := (second.moved readyM).ready
      have skipping := skipped.pinned (Moved.record readyS open').ready
      simp only [notes_append, notes_noted, List.forall_mem_append, List.forall_mem_cons]
      exact ⟨⟨⟨ih ready, ihFirst readyB⟩, ihSecond readyM⟩, pinned_front readyM _, skipping⟩
  | stuck before next ends deep open' size diagnostics none ih =>
      subst deep
      have readyS := (before.moved ready).ready
      rw [notes_append, notes_replicate, List.forall_mem_append]
      refine ⟨ih ready, fun d inside => ?_⟩
      obtain rfl := List.eq_of_mem_replicate inside
      exact State.front_ahead next ▸ pinned_front readyS _

end Parse

open Parse

namespace Compile

variable {table : Table} {settings : Settings} {params : List String} {text : String}

/-- The diagnostics of a refused text are put down for its lexemes and its end. -/
theorem pinned_of_refused {ds : List Diagnostic} (kept : 0 < settings.maxErrors)
    (refused : compile table settings params text = .error ds) :
    ∀ d ∈ ds, Pinned (source table settings text) (lexemes settings text) d := by
  obtain ⟨es, final, reading⟩ := reading_exists table params text kept
  obtain ⟨took, passage⟩ := reading.passage
  obtain ⟨p, compiled⟩ := reading.compile_eq kept
  rw [compiled] at refused
  split at refused
  · cases refused
  · cases refused
    exact passage.pinned (ready kept)

end Compile

/-- Locations tell positions. A diagnostic of a refused text stands at a position where a character
starts or the text ends, on the line and in the column of that position: one more than the line ends
before it, and one more than the characters behind the last of these. Every such position has a line
and a column, and of two of them the one behind has the greater line, or the same and the greater
column. -/
theorem locations_tell_positions (text : String) :
    (∀ (table : Table) (settings : Settings) (params : List String) (ds : List Diagnostic),
      0 < settings.maxErrors → compile table settings params text = .error ds →
      ∀ d ∈ ds, String.Pos.Raw.IsValid text ⟨d.position⟩ ∧ d.position ≤ text.utf8ByteSize ∧
        Locates text.toList d.position d.line d.column) ∧
    (∀ p, String.Pos.Raw.IsValid text ⟨p⟩ ↔ ∃ line column, Locates text.toList p line column) ∧
    ∀ p line column q line' column', Locates text.toList p line column →
      Locates text.toList q line' column' →
      (p < q ↔ toLex (line, column) < toLex (line', column')) ∧
        (p = q ↔ line = line' ∧ column = column') := by
  refine ⟨fun table settings params ds kept refused d inside => ?_, fun p => ?_,
    fun p line column q line' column' located located' => ?_⟩
  · obtain ⟨position, cause, rfl, place⟩ := Compile.pinned_of_refused kept refused d inside
    have boundary : Boundary text.toList position := by
      rcases place with rfl | ⟨l, there, rfl⟩
      · exact ⟨text.toList, [], (List.append_nil _).symm, rfl⟩
      · exact Lexeme.boundary_read there
    have located := Diagnostic.locates_locate boundary cause
    have valid := isValid_iff_boundary.mpr located.boundary
    exact ⟨valid, valid.le_rawEndPos, located⟩
  · rw [isValid_iff_boundary]
    constructor
    · rintro ⟨front, rest, whole, rfl⟩
      exact ⟨_, _, whole ▸ Locates.of_front front rest⟩
    · rintro ⟨line, column, located⟩
      exact located.boundary
  · rcases Nat.lt_trichotomy p q with less | rfl | more
    · have before := located.lt located' less
      refine ⟨iff_of_true less before, iff_of_false (Nat.ne_of_lt less) ?_⟩
      rintro ⟨rfl, rfl⟩
      exact lt_irrefl _ before
    · obtain ⟨rfl, rfl⟩ := located.unique located'
      simp
    · have behind := located'.lt located more
      refine ⟨iff_of_false (Nat.lt_asymm more) (lt_asymm behind),
        iff_of_false (Nat.ne_of_gt more) ?_⟩
      rintro ⟨rfl, rfl⟩
      exact lt_irrefl _ behind

/-- A fault on the second line, behind a letter of two bytes. -/
theorem locations_tell_positions_of_fault :
    0 < ({} : Settings).maxErrors ∧
    ∃ d, compile (World.empty.table "t") {} [] "# é\n @" = .error [d] ∧
      d.position = 6 ∧ Locates "# é\n @".toList d.position 2 2 ∧
      ∀ p line column, Locates "# é\n @".toList p line column →
        (p < 6 ↔ toLex (line, column) < toLex (2, 2)) := by
  have kept : 0 < ({} : Settings).maxErrors := by decide
  obtain ⟨refusals, -, order⟩ := locations_tell_positions "# é\n @"
  obtain ⟨d, compiled, place⟩ : ∃ d, compile (World.empty.table "t") {} [] "# é\n @" = .error [d] ∧
      (d.position, d.line, d.column) = (6, 2, 2) := by
    have seen : (Compile.errors (World.empty.table "t") {} [] "# é\n @").map
        (fun d => (d.position, d.line, d.column)) = [(6, 2, 2)] := by
      decide +kernel
    unfold Compile.errors at seen
    cases compiled : compile (World.empty.table "t") {} [] "# é\n @" with
    | ok p =>
        rw [compiled] at seen
        cases seen
    | error ds =>
        rw [compiled] at seen
        obtain ⟨d, ds, rfl, place, rest⟩ := List.map_eq_cons_iff.mp seen
        rw [List.map_eq_nil_iff] at rest
        exact ⟨d, rest ▸ rfl, place⟩
  obtain ⟨position, line, column⟩ : d.position = 6 ∧ d.line = 2 ∧ d.column = 2 := by
    simpa using place
  have located := (refusals _ {} [] [d] kept compiled d List.mem_cons_self).2.2
  rw [line, column] at located
  exact ⟨kept, d, compiled, position, located, fun p line column other =>
    (order p line column 6 2 2 other (position ▸ located)).1⟩

end MathScript
