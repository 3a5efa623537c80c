import MathScript.Proofs.Adjoining
import MathScript.Proofs.Outcomes
import MathScript.Proofs.Reading

/-!
Statements in a row, separated by `;`, without brackets and without lists or declarations in them.
However one of them ends, what is left of it is passed, together with the `;` behind it, and no more;
so the next one starts as it would alone. Each statement puts down at most one diagnostic, of the
category that it puts down alone.
-/

namespace MathScript

namespace Parse

variable {source : Source} {base s m : State} {front tail : List Lexeme}

/-! ### What is passed -/

theorem Sentence.of_contents (sentence : Sentence tail)
    (same : front.map Lexeme.content = tail.map Lexeme.content) : Sentence front :=
  fun l inside => by
    have listed : l.content ∈ tail.map Lexeme.content := same ▸ List.mem_map_of_mem inside
    obtain ⟨l', inside', content⟩ := List.mem_map.mp listed
    obtain ⟨t, content', plain⟩ := sentence l' inside'
    exact ⟨t, content.symm.trans content', plain⟩

theorem skipped_sentential {t : Token} (plain : sentential t = true) :
    t ≠ .sym .semicolon ∧ t ≠ .sym .rbrace ∧ t ≠ .word "until" ∧ depthAfter 0 t = 0 := by
  refine ⟨?_, ?_, ?_, ?_⟩
  · rintro rfl
    cases plain
  · rintro rfl
    cases plain
  · rintro rfl
    cases plain
  · cases t with
    | sym sym => cases sym <;> first | rfl | cases plain
    | _ => rfl

theorem Tail.drop (behind : Tail tail) : ∀ l ∈ tail.drop 1, ∃ t, l.content = .ok t :=
  fun l inside => behind.1 l (List.mem_of_mem_drop inside)

/-- Looking at the rest of a statement only looks. -/
theorem scanned_rest (sentence : Sentence front) (behind : Tail tail) (left : s.left = front ++ tail)
    (source : Source) (count : Nat) : Scanned s (s.look source count) := by
  refine scanned_look (fun l inside => ?_) source count
  have there := s.rest_sublist.subset inside
  rw [left] at there
  rcases List.mem_append.mp there with there | there
  · obtain ⟨t, content, -⟩ := sentence l there
    exact ⟨t, content⟩
  · exact behind.1 l there

/-- What is left of a statement is skipped, together with the `;` behind it. -/
theorem synchronize_rest (behind : Tail tail) {fuel : Nat} (sentence : Sentence front)
    (within : front.length < fuel) (left : s.left = front ++ tail) (settled : base.Settled s) :
    ∃ s', synchronize source fuel 0 s = .ok () s' ∧ s'.left = tail.drop 1 ∧ base.Settled s' := by
  induction front generalizing fuel s with
  | nil =>
      obtain ⟨fuel, rfl⟩ := Nat.exists_eq_succ_of_ne_zero (Nat.ne_of_gt within)
      have scanned := scanned_rest sentence behind left source 1
      have settled' := settled.scanned scanned
      have left' := scanned.left.trans left
      rw [synchronize, bind_completed (peek_eq source s)]
      cases tail with
      | nil =>
          rw [s.poised_look.none.mp left']
          exact ⟨_, rfl, left', settled'⟩
      | cons l ls =>
          obtain ⟨t, ahead, content, next, rest⟩ := s.poised_look.next left'
          rw [behind.2 l rfl] at content
          cases content
          have looked : (s.look source 1).look source 1 = s.look source 1 := s.look_look
          rw [next]
          refine ⟨_, bind_completed (advance_some source (looked.symm ▸ next)), ?_, ?_⟩
          · rw [looked]
            exact rest
          · rw [looked]
            exact { settled' with afterBrace := rfl }
  | cons l front ih =>
      obtain ⟨fuel, rfl⟩ := Nat.exists_eq_succ_of_ne_zero (Nat.ne_of_gt (Nat.zero_lt_of_lt within))
      have scanned := scanned_rest sentence behind left source 1
      have settled' := settled.scanned scanned
      obtain ⟨t, ahead, content, next, rest⟩ := s.poised_look.next (scanned.left.trans left)
      obtain ⟨t₁, content₁, plain⟩ := sentence l List.mem_cons_self
      obtain rfl : t = t₁ := Except.ok.inj (content.symm.trans content₁)
      obtain ⟨semicolon, brace, word, depth⟩ := skipped_sentential plain
      have looked : (s.look source 1).look source 1 = s.look source 1 := s.look_look
      rw [synchronize, bind_completed (peek_eq source s), next]
      simp only [List.head?_cons, Option.map_some, semicolon, brace, word, and_false, or_self,
        if_false, depth]
      rw [bind_completed (advance_some source (looked.symm ▸ next)), looked]
      exact ih (fun l inside => sentence l (List.mem_cons_of_mem _ inside))
        (Nat.lt_of_succ_lt_succ within) rest
        { settled' with afterBrace := beq_eq_false_iff_ne.mpr brace }

/-- A list stands in front of statements, with diagnostics of these categories put down. Where no
more are kept, it is at its end. -/
structure InFront (source : Source) (base : State) (found : List Category) (ls : List Lexeme)
    (s : State) : Prop where
  noted : s.diagnostics.toList.map Diagnostic.category = found.take source.limits.errors
  left : s.left = if found.length < source.limits.errors then ls else []
  scopes : s.scopes = base.scopes
  loopDepth : s.loopDepth = base.loopDepth
  afterBrace : s.afterBrace = false

namespace InFront

variable {found : List Category} {ls : List Lexeme}

theorem settled (stands : InFront source base found ls s) : s.Settled s :=
  ⟨rfl, rfl, rfl, rfl, stands.afterBrace⟩

/-- Inside of a statement nothing is put down. -/
theorem on (stands : InFront source base found ls s) (settled : s.Settled m)
    (more : found.length < source.limits.errors) : InFront source base found m.left m where
  noted := by rw [settled.diagnostics, stands.noted]
  left := (if_pos more).symm
  scopes := settled.scopes.trans stands.scopes
  loopDepth := settled.loopDepth.trans stands.loopDepth
  afterBrace := settled.afterBrace

/-- Behind a diagnostic a list goes on behind the `;`, unless that was the last one. -/
theorem recover (stands : InFront source base found (front ++ tail) s) (sentence : Sentence front)
    (behind : Tail tail) (within : front.length < source.allowance)
    (more : found.length < source.limits.errors) (d : Diagnostic) :
    ∃ s', Parse.recover source d s = .ok () s' ∧
      InFront source base (found ++ [d.category]) (tail.drop 1) s' := by
  have noted := stands.noted
  rw [List.take_of_length_le (Nat.le_of_lt more)] at noted
  have size : s.diagnostics.size = found.length := by
    rw [← noted, List.length_map, Array.length_toList]
  have open' : s.full source.limits.errors = false := by
    simpa only [State.full, size, decide_eq_false_iff_not, Nat.not_le] using more
  have length : (found ++ [d.category]).length = found.length + 1 := List.length_append
  have all : (found ++ [d.category]).take source.limits.errors = found ++ [d.category] :=
    List.take_of_length_le (length ▸ more)
  obtain ⟨pushed, last⟩ := State.record_open open' d
  have noted' : (s.record source.limits.errors d).diagnostics.toList.map Diagnostic.category =
      (found ++ [d.category]).take source.limits.errors := by
    rw [pushed, Array.toList_push, List.map_append, noted, all]
    rfl
  have kept : (s.record source.limits.errors d).diagnostics.size = found.length + 1 := by
    rw [pushed, Array.size_push, size]
  have unmoved := s.unmoved_record source.limits.errors d
  have brace := (s.record_ahead source.limits.errors d).2.trans stands.afterBrace
  rcases last with ⟨full, ahead, rest⟩ | ⟨open'', same⟩
  · have spent : ¬ (found ++ [d.category]).length < source.limits.errors := by
      simp only [State.full, kept, decide_eq_true_eq] at full
      omega
    have allowed : 0 < source.allowance := Nat.zero_lt_of_lt within
    refine ⟨_, (bind_completed rfl).trans (synchronize_nothing allowed ahead rest), noted', ?_,
      unmoved.scopes.trans stands.scopes, unmoved.loopDepth.trans stands.loopDepth, brace⟩
    rw [if_neg spent, State.left, ahead, rest]
    rfl
  · have more' : (found ++ [d.category]).length < source.limits.errors := by
      simp only [State.full, kept, decide_eq_false_iff_not] at open''
      omega
    have left : (s.record source.limits.errors d).left = front ++ tail := by
      rw [same]
      exact stands.left.trans (if_pos more)
    obtain ⟨s', skipped, left', settled'⟩ := synchronize_rest behind sentence within left
      (⟨rfl, rfl, rfl, rfl, brace⟩ : State.Settled _ _)
    refine ⟨s', (bind_completed rfl).trans skipped, ?_, ?_, ?_, ?_, settled'.afterBrace⟩
    · rw [settled'.diagnostics, noted']
    · rw [if_pos more', left']
    · exact settled'.scopes.trans (unmoved.scopes.trans stands.scopes)
    · exact settled'.loopDepth.trans (unmoved.loopDepth.trans stands.loopDepth)

end InFront

/-! ### One round -/

/-- A statement of which nothing is left is separated from what stands behind it. -/
theorem separated_rest (sentence : Sentence front) (behind : Tail tail)
    (left : s.left = front ++ tail) (settled : base.Settled s) :
    ∃ s', separated source .input s = .ok front.isEmpty s' ∧ base.Settled s' ∧
      s'.left = if front.isEmpty then tail.drop 1 else front ++ tail := by
  have scanned := scanned_rest sentence behind left source 1
  have settled' := settled.scanned scanned
  have left' := scanned.left.trans left
  have same : separated source .input s = (do
      if ← eat source .semicolon then return true
      else atStop source .input) s := by
    change (if s.afterBrace then _ else _ : Parse Bool) s = _
    rw [settled.afterBrace]
    rfl
  obtain ⟨taken, m, eaten, ended⟩ := (ends_eaten source .semicolon s).completes
  have asked := atStop_eq source .input (s.look source 1)
  rw [State.look_look] at asked
  rw [same, bind_completed eaten]
  cases front with
  | cons l front =>
      obtain ⟨t, ahead, content, next, rest⟩ := s.poised_look.next left'
      obtain ⟨t₁, content₁, plain⟩ := sentence l List.mem_cons_self
      obtain rfl : t = t₁ := Except.ok.inj (content.symm.trans content₁)
      rw [next] at asked
      cases taken with
      | true =>
          obtain ⟨_, _, next', -⟩ := ended
          rw [next] at next'
          cases next'
          cases plain
      | false =>
          obtain ⟨rfl, -⟩ := ended
          exact ⟨_, asked, settled', left'⟩
  | nil =>
      cases tail with
      | cons l ls =>
          obtain ⟨t, ahead, content, next, rest⟩ := s.poised_look.next left'
          rw [behind.2 l rfl] at content
          cases content
          cases taken with
          | true =>
              obtain ⟨_, _, next', rfl⟩ := ended
              rw [next] at next'
              cases next'
              exact ⟨_, rfl, { settled' with afterBrace := rfl }, rest⟩
          | false => exact absurd (by rw [ended.1, next]; rfl) ended.2
      | nil =>
          have none := s.poised_look.none.mp left'
          rw [none] at asked
          cases taken with
          | true =>
              obtain ⟨_, _, next', -⟩ := ended
              rw [none] at next'
              cases next'
          | false =>
              obtain ⟨rfl, -⟩ := ended
              exact ⟨_, asked, settled', left'⟩

/-- What is wrong with a statement that ends like this: nothing, what it fails with, or that
something is left of it. -/
def wrongs : EStateM.Result Diagnostic State Typed → List Category
  | .ok _ s => if s.left.isEmpty then [] else [.syntactic]
  | .error d _ => [d.category]

theorem length_wrongs_le (r : EStateM.Result Diagnostic State Typed) : (wrongs r).length ≤ 1 := by
  unfold wrongs
  split
  · split
    · exact Nat.zero_le 1
    · exact Nat.le_refl 1
  · exact Nat.le_refl 1

/-- Where a list stands in front of a token of a statement, the statement is what it reads next. -/
theorem statements_at {expression : Parse Typed} (allowed : 0 < source.allowance)
    (sentence : Sentence front) (some : front ≠ []) (behind : Tail tail)
    (left : s.left = front ++ tail) (fuel : Nat) (items : List Typed) :
    statements source expression .input (fuel + 1) items s =
      (attempt (statement source expression) >>=
        resumed source .input (statements source expression .input fuel) items)
        (s.look source 1) := by
  obtain ⟨l, front, rfl⟩ := List.exists_cons_of_ne_nil some
  have scanned := scanned_rest sentence behind left source 1
  obtain ⟨t, ahead, content, next, rest⟩ := s.poised_look.next (scanned.left.trans left)
  obtain ⟨t₁, content₁, plain⟩ := sentence l List.mem_cons_self
  obtain rfl : t = t₁ := Except.ok.inj (content.symm.trans content₁)
  have other : (s.look source 1).ahead.head?.map Prod.snd ≠ .some (.sym .semicolon) := by
    rw [next]
    rintro ⟨⟩
    cases plain
  have eaten : eatAll source .semicolon source.allowance s = .ok () (s.look source 1) := by
    obtain ⟨taken, m, eaten, ended⟩ := (ends_eaten source .semicolon s).completes
    obtain ⟨fuel, same⟩ := Nat.exists_eq_succ_of_ne_zero (Nat.ne_of_gt allowed)
    cases taken with
    | true =>
        obtain ⟨_, _, next', -⟩ := ended
        exact absurd (by rw [next']; rfl) other
    | false =>
        obtain ⟨rfl, -⟩ := ended
        rw [same, eatAll, bind_completed eaten]
        rfl
  have asked := atStop_eq source .input (s.look source 1)
  rw [State.look_look, next] at asked
  rw [statements_succ, bind_completed eaten, bind_completed asked]
  rfl

/-- The statement at the start of a text never runs out of rounds. -/
theorem first_going {given : List Lexeme} (text : Given source given) (ready : Ready source given s)
    {r : EStateM.Result Diagnostic State Typed}
    (done : statement source (expression source (operand source source.limits.nesting)) s = r) :
    (lastState r).left.length ≤ given.length ∧ ∀ d m, r = .error d m → d.cause ≠ .stalled := by
  have allowed : 0 < source.allowance := Nat.zero_lt_of_lt text.allowed
  have begins := statement_begins source (expression_begins source
    (operand_begins allowed source.limits.nesting)) given s text ready (ready.budget_lt text)
  rw [Ends, done] at begins
  cases r with
  | ok item m => exact ⟨(begins.ready ready).left.length_le, fun _ _ same => by cases same⟩
  | error d m =>
      rcases begins with ⟨place, cause, ⟨b, _, _, before, behind, -⟩, proper, rfl⟩ |
        ⟨went, ⟨cause, proper, rfl⟩, -⟩
      · refine ⟨(behind.ready (before.ready ready)).left.length_le, fun _ _ same => ?_⟩
        cases same
        exact Cause.ne_stalled proper
      · refine ⟨(went.ready ((went_look source s).ready ready)).left.length_le, fun _ _ same => ?_⟩
        cases same
        exact Cause.ne_stalled proper

/-- One round of a list, by how the statement ends alone. -/
theorem InFront.round {expression : Parse Typed} {alone : State} {found : List Category}
    {r : EStateM.Result Diagnostic State Typed}
    (stands : InFront source base found (front ++ tail) s) (sentence : Sentence front)
    (some : front ≠ []) (behind : Tail tail) (more : found.length < source.limits.errors)
    (apace : Apace tail alone (s.look source 1) r (statement source expression (s.look source 1)))
    (going : ∀ d m, r = .error d m → d.cause ≠ .stalled)
    (within : (lastState r).left.length < source.allowance) (fuel : Nat) (items : List Typed) :
    ∃ items' s', statements source expression .input (fuel + 1) items s =
        statements source expression .input fuel items' s' ∧
      InFront source base (found ++ wrongs r) (tail.drop 1) s' := by
  have allowed : 0 < source.allowance := Nat.zero_lt_of_lt within
  have left : s.left = front ++ tail := stands.left.trans (if_pos more)
  have looked := stands.on (stands.settled.scanned (scanned_rest sentence behind left source 1)) more
  rw [statements_at allowed sentence some behind left]
  generalize s.look source 1 = b at apace looked
  cases result : statement source expression b with
  | ok item m =>
      rw [bind_completed (attempt_ok result)]
      rw [result] at apace
      cases apace with
      | stalled cause => exact absurd cause (going _ _ rfl)
      | @ok m₀ _ _ adjoins =>
          obtain ⟨rear, left, same⟩ := adjoins.left
          have sentence' := adjoins.sentence.of_contents same
          have stands' := looked.on adjoins.settled' more
          rw [left] at stands'
          have empty : m₀.left.isEmpty = rear.isEmpty := by
            rw [← List.isEmpty_map (f := Lexeme.content), ← same, List.isEmpty_map]
          obtain ⟨m', separated', settled, left'⟩ : ∃ m', separated source .input m = _ ∧ _ :=
            separated_rest sentence' behind left stands'.settled
          have stands'' := stands'.on settled more
          have length : rear.length < source.allowance := by
            rw [← List.length_map, same, List.length_map]
            exact within
          rw [resumed, bind_completed separated', wrongs, empty]
          rw [left'] at stands''
          cases rear with
          | nil => exact ⟨_, m', rfl, by simpa using stands''⟩
          | cons l ls =>
              -- The state is looked at twice for the diagnostic, which does not change what is left.
              have scanned := scanned_rest sentence' behind left' source 1
              have looked := stands''.on (stands''.settled.scanned scanned) more
              rw [scanned.left.trans left'] at looked
              obtain ⟨s', recovered, stands₃⟩ := looked.recover sentence' behind length more
                (.locate source.text ((m'.look source 1).front source)
                  (.missingSeparator ((m'.look source 1).ahead.head?.map Prod.snd)))
              refine ⟨item :: items, s', ?_, stands₃⟩
              rw [List.isEmpty_cons, if_neg Bool.false_ne_true,
                bind_completed (position_eq source m'), bind_completed (peek_eq source _),
                State.look_look, bind_completed recovered]
  | error d m =>
      rw [bind_completed (attempt_error result)]
      rw [result] at apace
      cases apace with
      | error same adjoins =>
          obtain ⟨rear, left, contents⟩ := adjoins.left
          have stands' := looked.on adjoins.settled' more
          rw [left] at stands'
          have length : rear.length < source.allowance := by
            rw [← List.length_map, contents, List.length_map]
            exact within
          obtain ⟨s', recovered, stands''⟩ :=
            stands'.recover (adjoins.sentence.of_contents contents) behind length more d
          rw [resumed, bind_completed recovered, wrongs, same]
          exact ⟨_, s', rfl, stands''⟩
      | stalled cause => exact absurd cause (going _ _ rfl)

end Parse

namespace Compile

open Parse

variable {table : Table} {settings : Settings} {params : List String} {part text : String}

/-- The statement at the start of a text. -/
def first (table : Table) (settings : Settings) (params : List String) (text : String) :
    EStateM.Result Diagnostic State Typed :=
  statement (source table settings text)
    (expression (source table settings text)
      (operand (source table settings text) settings.maxNestingDepth))
    (start settings params text.toList)

theorem allowance_le_of_shorter (table : Table) (settings : Settings)
    (shorter : (lexemes settings part).length ≤ (lexemes settings text).length) :
    (source table settings part).allowance ≤ (source table settings text).allowance := by
  simp only [source]
  omega

/-- A part of a text alone, and the text. -/
def partSides (table : Table) (settings : Settings)
    (shorter : (lexemes settings part).length ≤ (lexemes settings text).length) : Sides Unit where
  source := source table settings part
  others := fun _ => source table settings text
  naming := fun _ _ => none
  unknown := fun _ => none
  near := fun _ _ _ => True
  lax := fun _ => False
  patient := True
  rounds := (source table settings text).allowance
  table := fun _ => rfl
  nesting := fun _ => Nat.le_refl _
  vectorSize := fun _ => Nat.le_refl _
  strict := fun _ _ => ⟨rfl, rfl⟩
  allowance := fun _ => rfl
  allowed := .inr ⟨trivial, allowance_le_of_shorter table settings shorter⟩
  origin := fun _ => trivial
  toward := fun _ => ⟨fun _ => 0, fun _ => trivial⟩
  back := fun _ place => ⟨0, fun _ => place, fun _ => trivial, rfl⟩

section

variable (shorter : (lexemes settings part).length ≤ (lexemes settings text).length)
variable (sentence : Sentence (lexemes settings part))

include shorter sentence

/-- A statement in front of others ends as it does alone. -/
theorem first_apace {front tail : List Lexeme} (behind : Tail tail) {s : State}
    (scopes : s.scopes = [parameterScope 0 params]) (depth : s.loopDepth = 0)
    (brace : s.afterBrace = false) (left : s.left = front ++ tail)
    (same : front.map Lexeme.content = (lexemes settings part).map Lexeme.content) :
    Apace tail (start settings params part.toList) s (first table settings params part)
      (statement (source table settings text)
        (expression (source table settings text)
          (operand (source table settings text) settings.maxNestingDepth)) s) := by
  have operands : Twins (partSides table settings shorter) false
      (operand (source table settings part) settings.maxNestingDepth) fun _ =>
        blindOperand (source table settings text) none settings.maxNestingDepth :=
    Twins.operands (fun _ => Nat.le_refl _) fun _ _ => rfl
  have plain : (partSides table settings shorter).Plain () := rfl
  have beneath : Beneath tail (start settings params part.toList) s _ _ :=
    (Twins.statement <| Twins.expression operands).beneath plain rfl id (fun _ _ => trivial) behind
      scopes depth rfl
  have apace := beneath (start settings params part.toList) s
    ⟨sentence, ⟨rfl, rfl, rfl, rfl, rfl⟩, ⟨rfl, rfl, rfl, rfl, brace⟩, front, left, same⟩
  change Apace tail _ s (first table settings params part)
    (statement (source table settings text)
      (expression (source table settings text)
        (blindOperand (source table settings text) none settings.maxNestingDepth)) s) at apace
  rwa [blindOperand_none] at apace

end

/-- The tokens of texts in a row, with a `;` between two. -/
def inSeries (settings : Settings) (parts : List String) : List (Except Cause Token) :=
  [.ok (.sym .semicolon)].intercalate
    (parts.map fun part => (lexemes settings part).map Lexeme.content)

theorem inSeries_cons (parts : List String) : inSeries settings (part :: parts) =
    (lexemes settings part).map Lexeme.content ++
      if parts = [] then [] else .ok (.sym .semicolon) :: inSeries settings parts := by
  cases parts with
  | nil => simp [inSeries, List.intercalate]
  | cons next parts => simp [inSeries, List.intercalate]

theorem exists_token_of_mem_inSeries {parts : List String} {content : Except Cause Token}
    (sentences : ∀ part ∈ parts, Sentence (lexemes settings part))
    (inside : content ∈ inSeries settings parts) : ∃ t, content = .ok t := by
  induction parts with
  | nil => simp [inSeries, List.intercalate] at inside
  | cons part parts ih =>
      rw [inSeries_cons, List.mem_append] at inside
      rcases inside with inside | inside
      · obtain ⟨l, listed, rfl⟩ := List.mem_map.mp inside
        obtain ⟨t, content, -⟩ := sentences part List.mem_cons_self l listed
        exact ⟨t, content⟩
      · split at inside
        · cases inside
        · rcases List.mem_cons.mp inside with rfl | inside
          · exact ⟨_, rfl⟩
          · exact ih (fun part inside => sentences part (List.mem_cons_of_mem _ inside)) inside

/-- What holds texts in a row starts with the first of them. Behind it, once a `;` is gone, are the
others. -/
theorem exists_front_of_inSeries {part : String} {parts : List String} {ls : List Lexeme}
    (sentences : ∀ p ∈ part :: parts, Sentence (lexemes settings p))
    (joined : ls.map Lexeme.content = inSeries settings (part :: parts)) :
    ∃ front tail, ls = front ++ tail ∧
      front.map Lexeme.content = (lexemes settings part).map Lexeme.content ∧ Tail tail ∧
      (tail.drop 1).map Lexeme.content = inSeries settings parts := by
  have all : ∀ l ∈ ls, ∃ t, l.content = .ok t := fun l inside =>
    exists_token_of_mem_inSeries sentences (joined ▸ List.mem_map_of_mem inside)
  rw [inSeries_cons] at joined
  obtain ⟨front, tail, rfl, same, rest⟩ := List.map_eq_append_iff.mp joined
  refine ⟨front, tail, rfl, same, ⟨fun l inside => all l (List.mem_append_right _ inside),
    fun l first => ?_⟩, ?_⟩
  · obtain ⟨ls, rfl⟩ := List.head?_eq_some_iff.mp first
    split at rest
    · cases rest
    · exact (List.cons.inj rest).1
  · rw [List.map_drop, rest]
    split
    next none => rw [none]; simp [inSeries]
    · rfl

/-- Where nothing is left, a list of statements is at its end. -/
theorem statements_left_nil (kept : 0 < settings.maxErrors) {s : State} {fuel : Nat}
    (some : 0 < fuel) (left : s.left = []) (items : List Typed) :
    statements (source table settings text)
      (expression (source table settings text)
        (operand (source table settings text) settings.maxNestingDepth)) .input fuel items s =
      .ok items.reverse s := by
  obtain ⟨fuel, rfl⟩ := Nat.exists_eq_succ_of_ne_zero (Nat.ne_of_gt some)
  simp only [State.left, List.append_eq_nil_iff, List.map_eq_nil_iff] at left
  exact statements_nothing (given kept) .input fuel items left.1 left.2

/-- What is wrong with the statement at the start of a text. -/
def wrongsOf (table : Table) (settings : Settings) (params : List String) (text : String) :
    List Category :=
  wrongs (first table settings params text)

/-- A list of statements in a row puts down what is wrong with each, as long as that is kept. -/
theorem statements_series (kept : 0 < settings.maxErrors) {parts : List String}
    (sentences : ∀ part ∈ parts, Sentence (lexemes settings part))
    (some : ∀ part ∈ parts, lexemes settings part ≠ []) {found : List Category}
    {ls : List Lexeme} {s : State} {fuel : Nat} {items : List Typed}
    (stands : InFront (source table settings text) (start settings params text.toList) found ls s)
    (joined : ls.map Lexeme.content = inSeries settings parts)
    (short : ls.length ≤ (lexemes settings text).length) (within : ls.length < fuel) :
    ∃ items' s', statements (source table settings text)
        (expression (source table settings text)
          (operand (source table settings text) settings.maxNestingDepth)) .input fuel items s =
        .ok items' s' ∧
      s'.diagnostics.toList.map Diagnostic.category =
        (found ++ parts.flatMap (wrongsOf table settings params)).take settings.maxErrors := by
  have limit : (source table settings text).limits.errors = settings.maxErrors := rfl
  induction parts generalizing found ls s fuel items with
  | nil =>
      obtain rfl : ls = [] := List.map_eq_nil_iff.mp (joined.trans (by simp [inSeries]))
      refine ⟨_, s, statements_left_nil kept within (stands.left.trans (ite_self _)) items, ?_⟩
      rw [stands.noted, List.flatMap_nil, List.append_nil, limit]
  | cons part parts ih =>
      by_cases more : found.length < settings.maxErrors
      · have sentence := sentences part List.mem_cons_self
        have some' := some part List.mem_cons_self
        obtain ⟨front, tail, rfl, same, behind, rest⟩ := exists_front_of_inSeries sentences joined
        have length : front.length = (lexemes settings part).length := by
          simpa using congrArg List.length same
        have positive := List.length_pos_iff.mpr some'
        rw [List.length_append] at short within
        have shorter : (lexemes settings part).length ≤ (lexemes settings text).length := by omega
        obtain ⟨fuel, rfl⟩ :=
          Nat.exists_eq_succ_of_ne_zero (Nat.ne_of_gt (Nat.zero_lt_of_lt within))
        have left : s.left = front ++ tail := stands.left.trans (if_pos more)
        have sentence' := sentence.of_contents same
        have scanned := scanned_rest sentence' behind left (source table settings text) 1
        have looked := stands.on (stands.settled.scanned scanned) more
        have apace : Apace tail _ _ (first table settings params part) _ :=
          first_apace shorter sentence behind looked.scopes looked.loopDepth looked.afterBrace
            (scanned.left.trans left) same
        have going : (lastState (first table settings params part)).left.length ≤
              (lexemes settings part).length ∧
            ∀ d m, first table settings params part = .error d m → d.cause ≠ .stalled :=
          first_going (given kept) (ready kept) rfl
        have allowed := (given kept : Given (source table settings text) _).allowed
        obtain ⟨items', s', goes, stands'⟩ := stands.round sentence'
          (List.length_pos_iff.mp (length ▸ positive)) behind more apace going.2 (by omega)
            fuel items
        rw [goes, List.flatMap_cons, ← List.append_assoc]
        refine ih (fun part inside => sentences part (List.mem_cons_of_mem _ inside))
          (fun part inside => some part (List.mem_cons_of_mem _ inside)) stands' rest ?_ ?_
        · rw [List.length_drop]
          omega
        · rw [List.length_drop]
          omega
      · refine ⟨_, s, statements_left_nil kept (Nat.zero_lt_of_lt within)
          (stands.left.trans (if_neg more)) items, ?_⟩
        rw [stands.noted, limit, List.take_append_of_le_length (Nat.not_lt.mp more)]

theorem categories_series (kept : 0 < settings.maxErrors) {parts : List String}
    (sentences : ∀ part ∈ parts, Sentence (lexemes settings part))
    (some : ∀ part ∈ parts, lexemes settings part ≠ [])
    (joined : (lexemes settings text).map Lexeme.content = inSeries settings parts) :
    (errors table settings params text).map Diagnostic.category =
      (parts.flatMap (wrongsOf table settings params)).take settings.maxErrors := by
  obtain ⟨es, final, reading⟩ := reading_exists table params text kept
  have allowed := (given kept : Given (source table settings text) _).allowed
  have stands : InFront (source table settings text) (start settings params text.toList) []
      (lexemes settings text) (start settings params text.toList) :=
    ⟨List.take_nil.symm, (if_pos kept).symm, rfl, rfl, rfl⟩
  obtain ⟨items, s', done, noted⟩ := statements_series kept sentences some stands joined
    (Nat.le_refl _) (Nat.lt_of_le_of_lt (Nat.le_add_right _ _) allowed)
  obtain ⟨items', done'⟩ := reading.done
  cases done.symm.trans done'
  rw [reading.errors_eq kept, ← reading.diagnostics kept, noted, List.nil_append]

/-- Of lists with at most one item each, those count that have one. -/
theorem length_flatMap_of_le_one {α β : Type} {f : α → List β} {as : List α}
    (single : ∀ a ∈ as, (f a).length ≤ 1) :
    (as.flatMap f).length = as.countP fun a => !(f a).isEmpty := by
  induction as with
  | nil => rfl
  | cons a as ih =>
      have one := single a List.mem_cons_self
      rw [List.flatMap_cons, List.length_append, ih fun a inside => single a (.tail _ inside),
        List.countP_cons]
      generalize f a = bs at one
      cases bs with
      | nil => simp
      | cons b bs =>
          obtain rfl : bs = [] := List.length_eq_zero_iff.mp (by simpa using one)
          simp [Nat.add_comm]

/-- A text of one statement puts down what is wrong with that. -/
theorem categories_single (kept : 0 < settings.maxErrors)
    (sentence : Sentence (lexemes settings part)) (some : lexemes settings part ≠ []) :
    (errors table settings params part).map Diagnostic.category =
      wrongsOf table settings params part := by
  have one : (lexemes settings part).map Lexeme.content = inSeries settings [part] := by
    simp [inSeries_cons]
  rw [categories_series kept (by simpa using sentence) (by simpa using some) one,
    List.flatMap_singleton, List.take_of_length_le]
  exact Nat.le_trans (length_wrongs_le _) kept

/-- One faulty statement hides no other. In a text of statements in a row, of which each has tokens,
but no brackets, no `;` in it and none of the words that start or end a list of statements or that
declare a name, the diagnostics are those of the statements alone, as far as they are kept: in the
order of the statements, and of the same categories. A statement alone has at most one. So there are
as many as there are statements that are refused alone, or as many as are kept if these are fewer. -/
theorem errors_in_series (table : Table) (settings : Settings) (params : List String)
    (kept : 0 < settings.maxErrors) (parts : List String) (text : String)
    (sentences : ∀ part ∈ parts, Sentence (lexemes settings part))
    (some : ∀ part ∈ parts, lexemes settings part ≠ [])
    (joined : (lexemes settings text).map Lexeme.content = inSeries settings parts) :
    (errors table settings params text).map Diagnostic.category =
        (parts.flatMap fun part =>
          (errors table settings params part).map Diagnostic.category).take settings.maxErrors ∧
      (∀ part ∈ parts, (errors table settings params part).length ≤ 1) ∧
      (errors table settings params text).length = min settings.maxErrors
        (parts.countP fun part => !(compile table settings params part).isOk) := by
  have alone : ∀ part ∈ parts, (errors table settings params part).map Diagnostic.category =
      wrongsOf table settings params part :=
    fun part inside => categories_single kept (sentences part inside) (some part inside)
  have all : (errors table settings params text).map Diagnostic.category = (parts.flatMap fun part =>
      (errors table settings params part).map Diagnostic.category).take settings.maxErrors := by
    rw [categories_series kept sentences some joined, List.flatMap_congr alone]
  have single : ∀ part ∈ parts, (errors table settings params part).length ≤ 1 := fun part inside => by
    rw [← List.length_map, alone part inside]
    exact length_wrongs_le _
  refine ⟨all, single, ?_⟩
  rw [← List.length_map, all, List.length_take, length_flatMap_of_le_one
    fun part inside => by rw [List.length_map]; exact single part inside]
  simp only [isOk_compile kept, List.isEmpty_map]

/-- Of three statements the first and the last are refused, for an operand that is missing and for
kinds that do not fit. -/
theorem errors_in_series_of_three :
    0 < ({} : Settings).maxErrors ∧
    (∀ part ∈ ["1 +", "true", "'a' - 1"], Sentence (lexemes {} part)) ∧
    (∀ part ∈ ["1 +", "true", "'a' - 1"], lexemes {} part ≠ []) ∧
    (lexemes {} "1 +; true; 'a' - 1").map Lexeme.content =
      inSeries {} ["1 +", "true", "'a' - 1"] ∧
    (errors (World.empty.table "t") {} [] "1 +; true; 'a' - 1").map Diagnostic.category =
      [.syntactic, .type] ∧
    (errors (World.empty.table "t") {} [] "1 +; true; 'a' - 1").length = min 16 2 := by
  have kept : 0 < ({} : Settings).maxErrors := by decide
  have sentences : ∀ part ∈ ["1 +", "true", "'a' - 1"], Sentence (lexemes {} part) := by
    decide +kernel
  have some : ∀ part ∈ ["1 +", "true", "'a' - 1"], lexemes {} part ≠ [] := by decide +kernel
  have joined : (lexemes {} "1 +; true; 'a' - 1").map Lexeme.content =
      inSeries {} ["1 +", "true", "'a' - 1"] := by decide +kernel
  obtain ⟨categories, -, length⟩ := errors_in_series (World.empty.table "t") {} [] kept
    ["1 +", "true", "'a' - 1"] "1 +; true; 'a' - 1" sentences some joined
  refine ⟨kept, sentences, some, joined, categories.trans ?_, length.trans ?_⟩
  · decide +kernel
  · decide +kernel

end Compile

end MathScript
