import MathScript.Proofs.Formula
import MathScript.Proofs.Tokens

/-!
Operator precedence. Where only the tokens of a formula are left, parsing takes them one by one.
Taking the operators behind an operand as long as they are tight enough makes the tree of the
formula: the operators behind a proper formula are looked at where the formula as a whole stands to
their left, since none of its parts ends behind an operator that it could be taken from.
-/

namespace MathScript.Parse

/-! ### Taking tokens -/

/-- Only tokens are left, nothing was declared but the parameters, and nothing is faulty. -/
structure Stands (params : List String) (ts : List Token) (s : State) : Prop where
  tokens : (s.ahead.map fun e => Except.ok e.2) ++ s.rest.map Lexeme.content = ts.map .ok
  scopes : s.scopes = [Compile.parameterScope 0 params]
  frameSize : s.frameSize = params.length
  diagnostics : s.diagnostics = #[]

/-- Where the tokens `before` stand the part makes `a`, and `after` stand behind it. -/
def Turns {α : Type} (params : List String) (x : Parse α) (before : List Token) (a : α)
    (after : List Token) : Prop :=
  ∀ s, Stands params before s →
    Ends x s (fun result s' => result = a ∧ Stands params after s') fun _ _ => False

section

variable {α β : Type} {params : List String} {ts before mid after : List Token}

theorem turns_pure (a : α) : Turns params (pure a) ts a ts :=
  fun _ stands => ends_pure ⟨rfl, stands⟩

theorem Turns.bind {x : Parse α} {f : α → Parse β} {a : α} {b : β}
    (first : Turns params x before a mid) (rest : Turns params (f a) mid b after) :
    Turns params (x >>= f) before b after := by
  intro s stands
  refine ends_bind ((first s stands).mono (fun result s' ended => ?_) fun _ _ => False.elim)
  obtain ⟨rfl, stands'⟩ := ended
  exact rest s' stands'

theorem turns_get {f : State → Parse α} {a : α}
    (rest : ∀ s, Stands params ts s →
      Ends (f s) s (fun result s' => result = a ∧ Stands params after s') fun _ _ => False) :
    Turns params (get >>= f) ts a after :=
  fun s stands => ends_bind (show Ends get s _ _ from rest s stands)

end

section

variable (source : Source) {params : List String} {ts : List Token}

/-- Looking ahead leaves the tokens where they are. -/
theorem Stands.look {s : State} (stands : Stands params ts s) :
    Stands params ts (s.look source 1) ∧ (s.look source 1).ahead.head?.map Prod.snd = ts.head? := by
  have tokens := stands.tokens
  have look_eq : s.look source 1 =
      if s.ahead.length ≤ 0 then s.pull source s.rest else s := rfl
  rw [look_eq]
  cases ahead : s.ahead with
  | cons e es =>
      rw [if_neg (by simp)]
      refine ⟨stands, ?_⟩
      cases ts with
      | nil => simp [ahead] at tokens
      | cons t ts =>
          rw [ahead] at tokens
          have head : Except.ok e.2 = Except.ok t := (List.cons.inj tokens).1
          rw [ahead, List.head?_cons, List.head?_cons, Option.map_some, Except.ok.inj head]
  | nil =>
      rw [if_pos (by simp)]
      rw [ahead, List.map_nil, List.nil_append] at tokens
      cases rest : s.rest with
      | nil =>
          rw [rest] at tokens
          obtain rfl : ts = [] := by simpa using tokens.symm
          exact ⟨⟨by simp [State.pull, ahead], stands.scopes, stands.frameSize,
            stands.diagnostics⟩, by simp [State.pull, ahead]⟩
      | cons l rest' =>
          rw [rest] at tokens
          cases ts with
          | nil => simp at tokens
          | cons t ts =>
              rw [List.map_cons, List.map_cons] at tokens
              obtain ⟨head, others⟩ := List.cons.inj tokens
              simp only [State.pull, head, ahead]
              exact ⟨⟨by simp [others], stands.scopes, stands.frameSize, stands.diagnostics⟩, rfl⟩

theorem turns_peek : Turns params (peek source) ts ts.head? ts := by
  intro s stands
  obtain ⟨looked, head⟩ := stands.look source
  exact ⟨head, looked⟩

theorem turns_advance : Turns params (advance source) ts ts.head? ts.tail := by
  intro s stands
  obtain ⟨looked, head⟩ := stands.look source
  have tokens := looked.tokens
  unfold Ends advance
  cases ahead : (s.look source 1).ahead with
  | nil =>
      rw [ahead] at head tokens
      obtain rfl : ts = [] := List.head?_eq_none_iff.mp head.symm
      simp only [ahead]
      exact ⟨rfl, tokens, looked.scopes, looked.frameSize, looked.diagnostics⟩
  | cons e es =>
      rw [ahead] at head tokens
      cases ts with
      | nil => cases head
      | cons t ts =>
          obtain rfl : e.2 = t := by simpa using head
          have others := (List.cons.inj tokens).2
          simp only [ahead]
          exact ⟨rfl, others, looked.scopes, looked.frameSize, looked.diagnostics⟩

/-- The position that is told is of no account here. -/
theorem turns_position {α : Type} {f : Nat → Parse α} {a : α} {after : List Token}
    (rest : ∀ here, Turns params (f here) ts a after) :
    Turns params (position source >>= f) ts a after := by
  intro s stands
  have ends : Ends (position source) s (fun _ s' => Stands params ts s') fun _ _ => False := by
    have looked : Ends (next? source) s (fun _ s' => Stands params ts s') fun _ _ => False :=
      (stands.look source).1
    refine ends_bind (looked.mono (fun next s' stands' => ?_) fun _ _ => id)
    cases next with
    | none => exact ends_pure stands'
    | some e => exact ends_pure stands'
  exact ends_bind (ends.mono (fun here s' stands' => rest here s' stands') fun _ _ => False.elim)

theorem turns_check (sym : Sym) :
    Turns params (check source sym) ts (ts.head? == some (.sym sym)) ts :=
  (turns_peek source).bind (turns_pure _)

theorem turns_eat (sym : Sym) : Turns params (eat source sym) (.sym sym :: ts) true ts := by
  refine (turns_check source sym).bind ?_
  rw [List.head?_cons, beq_self_eq_true]
  exact (turns_advance source).bind (turns_pure true)

theorem turns_eat_other {sym : Sym} (other : ts.head? ≠ some (.sym sym)) :
    Turns params (eat source sym) ts false ts := by
  refine (turns_check source sym).bind ?_
  rw [beq_eq_false_iff_ne.mpr other]
  exact turns_pure false

theorem turns_expect (sym : Sym) (context : String) :
    Turns params (expect source sym context) (.sym sym :: ts) () ts :=
  (turns_eat source sym).bind (turns_pure ())

theorem turns_checkWord (word : String) :
    Turns params (checkWord source word) ts (ts.head? == some (.word word)) ts :=
  (turns_peek source).bind (turns_pure _)

theorem turns_eatWord_other {word : String} (other : ts.head? ≠ some (.word word)) :
    Turns params (eatWord source word) ts false ts := by
  refine (turns_checkWord source word).bind ?_
  rw [beq_eq_false_iff_ne.mpr other]
  exact turns_pure false

end

/-! ### Operators -/

/-- The precedence of the operator at the head, less than every other if there is none. -/
def headPrecedence : List Token → Nat
  | .sym (.op op) :: _ => op.precedence
  | _ => 0

theorem headPrecedence_ne (ts : List Token) : headPrecedence ts ≠ unaryPrecedence := by
  unfold headPrecedence
  split
  · exact Op.precedence_ne _
  · decide

section

variable {source : Source} {operand : Parse Typed} {params : List String} {ts : List Token}
  {least : Nat}

theorem turns_operatorAhead {op : Op} (tight : least ≤ op.precedence) :
    Turns params (operatorAhead source least) (.sym (.op op) :: ts) (some op)
      (.sym (.op op) :: ts) := by
  refine (turns_peek source).bind ?_
  simp only [List.head?_cons, tight, if_true]
  exact turns_pure _

theorem turns_operatorAhead_none (loose : headPrecedence ts < least) :
    Turns params (operatorAhead source least) ts none ts := by
  refine (turns_peek source).bind ?_
  cases ts with
  | nil => exact turns_pure _
  | cons t ts =>
      rw [List.head?_cons]
      split
      · next op head =>
          obtain rfl := Option.some.inj head
          have below : ¬ least ≤ op.precedence := Nat.not_le.mpr loose
          simp only [below, if_false]
          exact turns_pure _
      · exact turns_pure _

/-- Climbing ends in front of a looser operator. -/
theorem turns_climb_none (loose : headPrecedence ts < least) (left : Typed) {fuel : Nat}
    (enough : 1 ≤ fuel) : Turns params (climb source operand fuel least left) ts left ts := by
  obtain ⟨fuel, rfl⟩ := Nat.exists_eq_add_of_le' enough
  exact (turns_operatorAhead_none loose).bind (turns_pure left)

theorem turns_combine (op : NumberOp) (left right : Tree) (here : Nat) :
    Turns params (combine source op (scalarNode left) (scalarNode right) here) ts
      (scalarNode (op.1.node left right)) ts := by
  rw [combine, combined?_scalars]
  exact turns_pure _

end

/-! ### Words -/

section

variable (source : Source) {operand expression : Parse Typed} {params : List String}
  {ts : List Token}

/-- A name that may be given to a symbol is none of the words that steer a program. -/
theorem word_nameable {name : String} (nameable : Nameable name) (here : Nat) :
    word source expression name here = identifier source expression name here := by
  have plain := nameable.spelled.2.1
  unfold word
  split
  case h_14 => rfl
  all_goals exact absurd (by decide) plain

theorem parameter_scalar {slot : Nat} {name : String} {l : Local}
    (found : (Compile.parameterScope slot params).lookup name = some l) : l.kind = .scalar := by
  induction params generalizing slot with
  | nil => cases found
  | cons param params ih =>
      rw [Compile.parameterScope, List.lookup_cons] at found
      split at found
      · obtain rfl := Option.some.inj found
        rfl
      · exact ih found

variable {source}

theorem turns_access {b : Binding} (closed : ts.head? ≠ some (.sym .lbracket)) (here : Nat) :
    Turns params (access source expression b here) ts ⟨.load b, b.kind⟩ ts := by
  refine (turns_check source .lbracket).bind ?_
  rw [beq_eq_false_iff_ne.mpr closed]
  exact turns_pure _

theorem turns_word {b : Binding} (nameable : Nameable b.name)
    (bound : source.table.scalar? params b.name = some b)
    (closed : ts.head? ≠ some (.sym .lbracket)) (here : Nat) :
    Turns params (word source expression b.name here) ts (scalarNode (.load b)) ts := by
  rw [word_nameable source nameable]
  have accessed : ∀ b' : Binding, b' = b → b'.kind = .scalar →
      Turns params (access source expression b' here) ts (scalarNode (.load b)) ts := by
    rintro b' rfl scalar
    have turns : Turns params (access source expression b' here) ts ⟨.load b', b'.kind⟩ ts :=
      turns_access closed here
    rwa [scalar] at turns
  refine turns_get fun s stands => ?_
  have located : findLocal b.name s.scopes =
      (Compile.parameterScope 0 params).lookup b.name := by
    rw [stands.scopes, findLocal, findLocal, Option.or_none]
  rw [located]
  unfold Table.scalar? at bound
  cases found : (Compile.parameterScope 0 params).lookup b.name with
  | some l =>
      rw [found] at bound
      exact accessed _ (Option.some.inj bound) (parameter_scalar found) s stands
  | none =>
      rw [found] at bound
      cases held : source.table.find? b.name with
      | none =>
          rw [held] at bound
          cases bound
      | some symbol =>
          rw [held] at bound
          cases symbol with
          | scalar c => exact accessed _ (Option.some.inj bound) rfl s stands
          | constant x => exact accessed _ (Option.some.inj bound) rfl s stands
          | vector | string | function => cases bound

end

/-! ### Operands -/

section

variable {source : Source} {inner expression : Parse Typed} {params : List String}
  {ts after : List Token} {n : Typed}

theorem turns_primary_number (x : Float) :
    Turns params (primary source expression) (.number x :: ts) (scalarNode (.number x)) ts := by
  refine turns_position source fun here => ?_
  refine (turns_check source .semicolon).bind ?_
  exact (turns_advance source).bind (turns_pure _)

theorem turns_primary_load {b : Binding} (nameable : Nameable b.name)
    (bound : source.table.scalar? params b.name = some b)
    (closed : ts.head? ≠ some (.sym .lbracket)) :
    Turns params (primary source expression) (.word b.name :: ts) (scalarNode (.load b)) ts := by
  refine turns_position source fun here => ?_
  refine (turns_check source .semicolon).bind ?_
  exact (turns_advance source).bind (turns_word nameable bound closed here)

theorem turns_primary_group
    (turns : Turns params expression ts n (.sym .rparen :: after)) :
    Turns params (primary source expression) (.sym .lparen :: ts) n after := by
  refine turns_position source fun here => ?_
  refine (turns_check source .semicolon).bind ?_
  refine (turns_advance source).bind ?_
  exact turns.bind ((turns_expect source .rparen _).bind (turns_pure n))

/-- What no sign stands in front of is a primary expression. -/
theorem turns_prefixed {t : Token}
    (plain : t ≠ .sym (.op .minus) ∧ t ≠ .sym (.op .plus) ∧ t ≠ .sym .bang ∧ t ≠ .word "not")
    (turns : Turns params (primary source (Parse.expression source inner)) (t :: ts) n after) :
    Turns params (prefixed source inner) (t :: ts) n after := by
  refine turns_position source fun here => ?_
  refine (turns_peek source).bind ?_
  split
  · next head => exact absurd (Option.some.inj head) plain.1
  · next head => exact absurd (Option.some.inj head) plain.2.1
  · next head => exact absurd (Option.some.inj head) plain.2.2.1
  · next head => exact absurd (Option.some.inj head) plain.2.2.2
  · exact turns

theorem turns_negate {t : Tree}
    (turns : Turns params (chain source inner unaryPrecedence) ts (scalarNode t) after) :
    Turns params (prefixed source inner) (.sym (.op .minus) :: ts)
      (scalarNode (.apply .negate [t])) after := by
  refine turns_position source fun here => ?_
  refine (turns_peek source).bind ?_
  refine (turns_advance source).bind ?_
  exact turns.bind (turns_pure _)

theorem turns_not {t : Tree} (sign : Bool)
    (turns : Turns params (chain source inner unaryPrecedence) ts (scalarNode t) after) :
    Turns params (prefixed source inner) (Formula.notToken sign :: ts)
      (scalarNode (.apply .not [t])) after := by
  refine turns_position source fun here => ?_
  refine (turns_peek source).bind ?_
  cases sign
  · refine (turns_advance source).bind ?_
    exact turns.bind ((turns_pure t).bind (turns_pure _))
  · refine (turns_advance source).bind ?_
    exact turns.bind ((turns_pure t).bind (turns_pure _))

end

/-! ### Formulas -/

/-- Nothing behind a formula as a whole belongs to it. -/
def Closed (rest : List Token) : Prop :=
  rest.head? = none ∨ rest.head? = some (.sym .rparen) ∨ rest.head? = some (.sym .colon)

/-- Nothing behind an operand belongs to its last part. -/
structure Parted (f : Formula) (rest : List Token) : Prop where
  loose : headPrecedence rest < f.tail
  plain : rest.head? ≠ some (.sym .lbracket)

/-- A formula is taken as a row of operands. Taking operators from in front of it is taking them
from behind it, with the formula to their left. -/
def Leads (source : Source) (params : List String) (f : Formula) : Prop :=
  ∀ ⦃levels least : Nat⦄ (spare : Nat) ⦃rest after : List Token⦄ ⦃n : Typed⦄,
    f.depth ≤ levels → 1 ≤ least → least ≤ f.level → Parted f rest → 1 ≤ spare →
    (∀ fuel, spare ≤ fuel →
      Turns params (climb source (operand source levels) fuel least (scalarNode f.tree)) rest n
        after) →
    ∀ fuel, f.tokens.length + spare ≤ fuel →
      Turns params (binary source (operand source levels) fuel least) (f.tokens ++ rest) n after

/-- A formula is taken as an expression. -/
def Taken (source : Source) (params : List String) (f : Formula) : Prop :=
  ∀ ⦃levels fuel : Nat⦄ ⦃rest : List Token⦄,
    f.depth ≤ levels → f.tokens.length < fuel → Closed rest →
      Turns params (expressions source (operand source levels) fuel) (f.tokens ++ rest)
        (scalarNode f.tree) rest

section

variable {source : Source} {params : List String} {f : Formula} {levels least : Nat}
  {rest : List Token}

/-- In front of a looser operator the formula is all of the row. -/
theorem Leads.all (leads : Leads source params f) (nested : f.depth ≤ levels)
    (some : 1 ≤ least) (tight : least ≤ f.level) (loose : headPrecedence rest < least)
    (plain : rest.head? ≠ .some (.sym .lbracket)) {fuel : Nat} (enough : f.tokens.length < fuel) :
    Turns params (binary source (operand source levels) fuel least) (f.tokens ++ rest)
      (scalarNode f.tree) rest := by
  have parted : Parted f rest :=
    ⟨Nat.lt_of_lt_of_le loose (Nat.le_trans tight f.level_le_tail), plain⟩
  exact leads 1 nested some tight parted (Nat.le_refl 1)
    (fun fuel spare => turns_climb_none loose _ spare) fuel enough

theorem leads_of_operand
    (turns : ∀ {levels : Nat} {rest : List Token}, f.depth ≤ levels + 1 → Parted f rest →
      Turns params (prefixed source (operand source levels)) (f.tokens ++ rest)
        (scalarNode f.tree) rest) : Leads source params f := by
  intro levels least spare rest after n nested _ _ parted _ further fuel enough
  obtain ⟨levels, rfl⟩ := Nat.exists_eq_add_of_le' (Nat.le_trans f.depth_pos nested)
  have present : 1 ≤ f.tokens.length := List.length_pos_iff.mpr f.tokens_ne_nil
  obtain ⟨fuel, rfl⟩ : ∃ m, fuel = m + 1 := ⟨fuel - 1, by omega⟩
  exact (turns nested parted).bind (further fuel (by omega))

theorem leads_number (l : Literal) : Leads source params (.number l) :=
  leads_of_operand fun _ _ => turns_prefixed (by simp) (turns_primary_number l.value)

theorem leads_load {b : Binding} (nameable : Nameable b.name)
    (bound : source.table.scalar? params b.name = some b) : Leads source params (.load b) := by
  refine leads_of_operand fun _ parted => ?_
  refine turns_prefixed ?_ (turns_primary_load nameable bound parted.plain)
  have plain := nameable.spelled.2.1
  have other : b.name ≠ "not" := fun same => plain (same ▸ by decide)
  simpa using other

theorem leads_group (taken : Taken source params f)
    (allowed : f.tokens.length < source.allowance) : Leads source params (.group f) := by
  refine leads_of_operand fun {levels rest} nested _ => ?_
  rw [Formula.tokens_group, List.cons_append, List.append_assoc, List.singleton_append]
  refine turns_prefixed (by simp) (turns_primary_group ?_)
  exact taken (Nat.le_of_succ_le_succ nested) allowed (.inr (.inl rfl))

/-- What a unary operator applies to is taken up to the next operator but a power. -/
theorem turns_unary (leads : Leads source params f) (tight : unaryPrecedence ≤ f.level)
    (allowed : f.tokens.length < source.allowance) (nested : f.depth ≤ levels)
    (loose : headPrecedence rest < 8) (plain : rest.head? ≠ some (.sym .lbracket)) :
    Turns params (chain source (operand source levels) unaryPrecedence) (f.tokens ++ rest)
      (scalarNode f.tree) rest := by
  have other := headPrecedence_ne rest
  have below : headPrecedence rest < unaryPrecedence := by
    unfold unaryPrecedence at other ⊢
    omega
  exact leads.all nested (by decide) tight below plain allowed

theorem leads_negate (leads : Leads source params f) (tight : unaryPrecedence ≤ f.level)
    (allowed : f.tokens.length < source.allowance) : Leads source params (.negate f) := by
  refine leads_of_operand fun nested parted => turns_negate ?_
  exact turns_unary leads tight allowed (Nat.le_of_succ_le_succ nested) parted.loose parted.plain

theorem leads_not (sign : Bool) (leads : Leads source params f)
    (tight : unaryPrecedence ≤ f.level) (allowed : f.tokens.length < source.allowance) :
    Leads source params (.not sign f) := by
  refine leads_of_operand fun {levels rest} nested parted => ?_
  rw [Formula.tokens_not, List.cons_append]
  refine turns_not sign ?_
  exact turns_unary leads tight allowed (Nat.le_of_succ_le_succ nested) parted.loose parted.plain

theorem leads_binary {op : NumberOp} {left right : Formula}
    (lefts : Leads source params left) (rights : Leads source params right)
    (wide : op.1.leftPrecedence ≤ left.level) (narrow : op.1.rightPrecedence ≤ right.level) :
    Leads source params (.binary op left right) := by
  intro levels least spare rest after n nested some tight parted any further fuel enough
  obtain ⟨nestedLeft, nestedRight⟩ := Nat.max_le.mp nested
  have within : least ≤ left.level :=
    Nat.le_trans tight (Nat.le_trans op.1.precedence_le_left wide)
  have present : 1 ≤ op.1.rightPrecedence :=
    Nat.le_trans op.1.precedence_pos op.1.precedence_le_right
  rw [Formula.tokens_binary, List.length_append, List.length_cons] at enough
  rw [Formula.tokens_binary, List.append_assoc, List.cons_append]
  -- Behind the left side the operator and the right side are still to be taken.
  have parted' : Parted left (.sym (.op op.1) :: (right.tokens ++ rest)) :=
    ⟨Formula.lt_tail wide, by simp⟩
  refine lefts (right.tokens.length + 1 + spare) nestedLeft some within parted'
    (by omega) (fun fuel enough => ?_) fuel (by omega)
  obtain ⟨fuel, rfl⟩ : ∃ m, fuel = m + 1 := ⟨fuel - 1, by omega⟩
  refine (turns_operatorAhead tight).bind ?_
  refine turns_position source fun here => ?_
  refine (turns_advance source).bind ?_
  refine (rights.all nestedRight present narrow parted.loose parted.plain (by omega)).bind ?_
  exact (turns_combine op left.tree right.tree here).bind (further fuel (by omega))

/-- Behind what is closed nothing is assigned or swapped. -/
theorem turns_expressions {n : Typed} {ts : List Token} {fuel : Nat} {operand : Parse Typed}
    (closed : Closed rest)
    (turns : Turns params (ternary source operand (expressions source operand fuel)) ts n rest) :
    Turns params (expressions source operand (fuel + 1)) ts n rest := by
  refine turns_position source fun here => ?_
  refine turns.bind ((turns_peek source).bind ?_)
  rcases closed with none | paren | colon
  · rw [none]
    exact turns_pure n
  · rw [paren]
    exact turns_pure n
  · rw [colon]
    exact turns_pure n

theorem Closed.headPrecedence {rest : List Token} (closed : Closed rest) :
    headPrecedence rest = 0 := by
  cases rest with
  | nil => rfl
  | cons t rest => rcases closed with none | paren | colon <;> simp_all [Parse.headPrecedence]

theorem Closed.plain (closed : Closed rest) {s : Sym} (other : s ≠ .rparen ∧ s ≠ .colon) :
    rest.head? ≠ some (.sym s) := by
  rcases closed with none | paren | colon
  · simp [none]
  · simp [paren, other.1.symm]
  · simp [colon, other.2.symm]

theorem Leads.taken (leads : Leads source params f) (tight : 1 ≤ f.level)
    (allowed : f.tokens.length < source.allowance) : Taken source params f := by
  intro levels fuel rest nested enough closed
  obtain ⟨fuel, rfl⟩ := Nat.exists_eq_add_of_le' (Nat.one_le_of_lt enough)
  refine turns_expressions closed ?_
  refine turns_position source fun here => ?_
  have loose : headPrecedence rest < 1 := by rw [closed.headPrecedence]; exact Nat.one_pos
  have plain : rest.head? ≠ some (.sym .lbracket) := closed.plain (by decide)
  refine (leads.all nested (Nat.le_refl 1) tight loose plain allowed).bind ?_
  exact (turns_eat_other source (closed.plain (by decide))).bind (turns_pure _)

theorem taken_conditional {test yes no : Formula} (tests : Leads source params test)
    (tight : 1 ≤ test.level) (yess : Taken source params yes) (nos : Taken source params no)
    (allowed : test.tokens.length < source.allowance) :
    Taken source params (.conditional test yes no) := by
  intro levels fuel rest nested enough closed
  obtain ⟨nestedTest, nestedBranches⟩ := Nat.max_le.mp nested
  obtain ⟨nestedYes, nestedNo⟩ := Nat.max_le.mp nestedBranches
  rw [Formula.tokens_conditional, List.length_append, List.length_cons, List.length_append,
    List.length_cons] at enough
  rw [Formula.tokens_conditional, List.append_assoc, List.cons_append, List.append_assoc,
    List.cons_append]
  obtain ⟨fuel, rfl⟩ : ∃ m, fuel = m + 1 := ⟨fuel - 1, by omega⟩
  refine turns_expressions closed ?_
  refine turns_position source fun here => ?_
  have loose : headPrecedence (.sym .question :: (yes.tokens ++ .sym .colon ::
      (no.tokens ++ rest))) < 1 := Nat.one_pos
  refine (tests.all nestedTest (Nat.le_refl 1) tight loose (by simp) allowed).bind ?_
  refine (turns_eat source .question).bind ?_
  refine (turns_pure test.tree).bind ?_
  refine (yess nestedYes (by omega) (.inr (.inr rfl))).bind ?_
  refine (turns_expect source .colon _).bind ?_
  exact (nos nestedNo (by omega) closed).bind (turns_pure _)

/-- Every part of a proper formula is taken for what it stands for. -/
theorem taken_formula (f : Formula) (proper : f.Proper) (known : f.Known source.table params)
    (allowed : f.tokens.length < source.allowance) :
    Leads source params f ∧ Taken source params f := by
  induction f with
  | number l =>
      have leads : Leads source params (.number l) := leads_number l
      exact ⟨leads, leads.taken (by simp [Formula.level]) allowed⟩
  | load b =>
      have leads : Leads source params (.load b) :=
        leads_load (known.named b List.mem_cons_self) (known.bound b List.mem_cons_self)
      exact ⟨leads, leads.taken (by simp [Formula.level]) allowed⟩
  | group inner ih =>
      have shorter : inner.tokens.length < source.allowance := by simp at allowed; omega
      have taken := (ih proper (known.mono (List.Subset.refl _)) shorter).2
      have leads := leads_group taken shorter
      exact ⟨leads, leads.taken (by simp [Formula.level]) allowed⟩
  | negate part ih =>
      have shorter : part.tokens.length < source.allowance := by simp at allowed; omega
      have parts := (ih proper.2 (known.mono (List.Subset.refl _)) shorter).1
      have leads := leads_negate parts proper.1 shorter
      exact ⟨leads, leads.taken (by simp [Formula.level]) allowed⟩
  | not sign part ih =>
      have shorter : part.tokens.length < source.allowance := by simp at allowed; omega
      have parts := (ih proper.2 (known.mono (List.Subset.refl _)) shorter).1
      have leads := leads_not sign parts proper.1 shorter
      exact ⟨leads, leads.taken (by simp [Formula.level]) allowed⟩
  | binary op left right ihl ihr =>
      obtain ⟨⟨wide, properLeft⟩, narrow, properRight⟩ := proper
      rw [Formula.tokens_binary, List.length_append, List.length_cons] at allowed
      have lefts := (ihl properLeft (known.mono (List.subset_append_left _ _)) (by omega)).1
      have rights := (ihr properRight (known.mono (List.subset_append_right _ _)) (by omega)).1
      have leads := leads_binary lefts rights wide narrow
      refine ⟨leads, leads.taken op.1.precedence_pos ?_⟩
      simpa using allowed
  | conditional test yes no iht ihy ihn =>
      obtain ⟨⟨tight, properTest⟩, properYes, properNo⟩ := proper
      rw [Formula.tokens_conditional, List.length_append, List.length_cons, List.length_append,
        List.length_cons] at allowed
      have within : ∀ part : Formula, part.bindings ⊆ test.bindings ++ yes.bindings →
          part.Known source.table params := fun part fewer =>
        known.mono (List.subset_append_of_subset_left _ fewer)
      have tests := (iht properTest (within test (List.subset_append_left ..)) (by omega)).1
      have yess := (ihy properYes (within yes (List.subset_append_right ..)) (by omega)).2
      have nos := (ihn properNo (known.mono (List.subset_append_right _ _)) (by omega)).2
      refine ⟨?_, taken_conditional tests tight yess nos (by omega)⟩
      -- No operator takes a conditional for its operand.
      intro _ _ _ _ _ _ _ some loose
      exact absurd (Nat.le_trans some loose) (Nat.not_succ_le_zero 0)

end

/-! ### Programs -/

section

variable {source : Source} {expression : Parse Typed} {params : List String}
  {ts after : List Token}

theorem head?_front (present : ts ≠ []) (rest : List Token) : (ts ++ rest).head? = ts.head? := by
  cases ts with
  | nil => exact absurd rfl present
  | cons t ts => rfl

/-- A formula opens neither a declaration nor an empty statement. -/
theorem head_tokens {f : Formula} (named : ∀ b ∈ f.bindings, Nameable b.name) :
    f.tokens.head? ≠ some (.sym .semicolon) ∧ f.tokens.head? ≠ some (.word "var") ∧
      f.tokens.head? ≠ some (.word "const") := by
  induction f with
  | number l => simp
  | load b =>
      have plain := (named b List.mem_cons_self).spelled.2.1
      have other : b.name ≠ "var" ∧ b.name ≠ "const" :=
        ⟨fun same => plain (same ▸ by decide), fun same => plain (same ▸ by decide)⟩
      simpa using other
  | group inner ih => simp
  | negate part ih => simp
  | not sign part ih => cases sign <;> simp [Formula.notToken]
  | binary op left right ihl ihr =>
      have heads := ihl fun b inside => named b (List.mem_append_left _ inside)
      rwa [Formula.tokens_binary, head?_front left.tokens_ne_nil]
  | conditional test yes no iht ihy ihn =>
      have heads := iht fun b inside =>
        named b (List.mem_append_left _ (List.mem_append_left _ inside))
      rwa [Formula.tokens_conditional, head?_front test.tokens_ne_nil]

theorem turns_eatAll {sym : Sym} (other : ts.head? ≠ some (.sym sym)) {fuel : Nat}
    (enough : 1 ≤ fuel) : Turns params (eatAll source sym fuel) ts () ts := by
  obtain ⟨fuel, rfl⟩ := Nat.exists_eq_add_of_le' enough
  exact (turns_eat_other source other).bind (turns_pure ())

theorem turns_atStop : Turns params (atStop source .input) ts ts.isEmpty ts := by
  refine (turns_peek source).bind ?_
  cases ts with
  | nil => exact turns_pure true
  | cons t ts => exact turns_pure false

theorem turns_attempt {α : Type} {x : Parse α} {a : α} (turns : Turns params x ts a after) :
    Turns params (attempt x) ts (.ok a) after := by
  intro s stands
  have ended := turns s stands
  unfold Ends attempt at *
  cases done : x s with
  | ok b s' =>
      rw [done] at ended
      exact ⟨congrArg Except.ok ended.1, ended.2⟩
  | error d s' =>
      rw [done] at ended
      exact ended.elim

/-- Nothing has to follow the last statement. -/
theorem turns_separated : Turns params (separated source .input) [] true [] := by
  intro s stands
  change Ends (if s.afterBrace then _ else _) s _ _
  split
  · exact ends_pure ⟨rfl, stands⟩
  · exact ((turns_eat_other source (by simp)).bind turns_atStop) s stands

/-- The only statement is the expression there is. -/
theorem turns_statements {n : Typed} {fuel : Nat} (present : ts ≠ [])
    (opens : ts.head? ≠ some (.sym .semicolon) ∧ ts.head? ≠ some (.word "var") ∧
      ts.head? ≠ some (.word "const"))
    (turns : Turns params expression ts n []) (rounds : 1 ≤ source.allowance)
    (enough : 2 ≤ fuel) :
    Turns params (statements source expression .input fuel []) ts [n] [] := by
  obtain ⟨fuel, rfl⟩ := Nat.exists_eq_add_of_le' enough
  obtain ⟨noEmpty, noVar, noConst⟩ := opens
  have statement : Turns params (statement source expression) ts n [] := by
    refine (turns_checkWord source "var").bind ?_
    rw [beq_eq_false_iff_ne.mpr noVar]
    exact (turns_eatWord_other source noConst).bind turns
  have last : Turns params (statements source expression .input (fuel + 1) [n]) [] [n] [] := by
    refine (turns_eatAll (by simp) rounds).bind ?_
    exact turns_atStop.bind (turns_pure [n])
  refine (turns_eatAll noEmpty rounds).bind ?_
  refine turns_atStop.bind ?_
  rw [List.isEmpty_eq_false_iff.mpr present]
  refine (turns_attempt statement).bind ?_
  exact turns_separated.bind last

theorem turns_program {f : Formula} (proper : f.Proper) (known : f.Known source.table params)
    (nested : f.depth ≤ source.limits.nesting) (allowed : f.tokens.length < source.allowance) :
    Turns params (program source) f.tokens [scalarNode f.tree] [] := by
  have closed : Closed [] := .inl rfl
  have taken := (taken_formula f proper known allowed).2 nested allowed closed
  rw [List.append_nil] at taken
  have present : 1 ≤ f.tokens.length := List.length_pos_iff.mpr f.tokens_ne_nil
  exact turns_statements f.tokens_ne_nil (head_tokens known.named) taken (by omega) (by omega)

end

end MathScript.Parse

namespace MathScript

variable {table : Table} {settings : Settings} {params : List String} {f : Formula}

/-- A text that has the tokens of a proper formula is parsed as the tree of the formula. -/
theorem parse_formula (proper : f.Proper) (known : f.Known table params)
    (nested : f.depth ≤ settings.maxNestingDepth) {text : String}
    (reads : (Lexeme.read settings.implicitMultiplication text.toList).map Lexeme.content =
      f.tokens.map .ok) :
    parse table settings params text = .ok ⟨f.tree, params.length⟩ := by
  have count := congrArg List.length reads
  rw [List.length_map, List.length_map] at count
  have stands : Parse.Stands params f.tokens (Compile.start settings params text.toList) :=
    ⟨reads, rfl, rfl, rfl⟩
  let source : Parse.Source := ⟨text.toList, table, settings.limits,
    (Compile.start settings params text.toList).rest.length + settings.maxErrors + 2⟩
  have allowed : f.tokens.length < source.allowance := by
    change f.tokens.length < (Lexeme.read _ _).length + settings.maxErrors + 2
    omega
  have turns : Parse.Turns params (Parse.program source) f.tokens [Parse.scalarNode f.tree] [] :=
    Parse.turns_program proper known nested allowed
  have ended := turns _ stands
  unfold parse
  dsimp only
  split
  · next stopped => exact (ended.of_error stopped).elim
  · next completed =>
      obtain ⟨rfl, stands'⟩ := ended.of_ok completed
      rw [stands'.diagnostics, stands'.frameSize]
      rfl

/-- Operators are taken back as they were written. With its parentheses put where precedence and
grouping ask for them, and wherever else it has some, a formula is compiled to its tree, from its
own text and from every other that has its tokens. -/
theorem compile_formula (known : f.Known table params)
    (unfolded : settings.constantFolding = false)
    (nested : f.grouped.depth ≤ settings.maxNestingDepth) :
    compile table settings params f.grouped.text = .ok ⟨f.tree, params.length⟩ ∧
      ∀ text : String,
        (Lexeme.read settings.implicitMultiplication text.toList).map Lexeme.content =
          f.grouped.tokens.map .ok →
        compile table settings params text = .ok ⟨f.tree, params.length⟩ := by
  have known' : f.grouped.Known table params := by
    refine known.mono ?_
    rw [f.bindings_grouped]
    exact List.Subset.refl _
  have read : ∀ text : String,
      (Lexeme.read settings.implicitMultiplication text.toList).map Lexeme.content =
        f.grouped.tokens.map .ok →
      compile table settings params text = .ok ⟨f.tree, params.length⟩ := by
    intro text reads
    have parsed := parse_formula f.proper_grouped known' nested reads
    rw [compile, parsed, f.tree_grouped, unfolded]
    rfl
  exact ⟨read _ (Formula.contents_text known'.named _), read⟩

/-- A power of a negative number under a minus, beside a difference that needs parentheses. -/
theorem compile_formula_of_signs :
    ∃ two : Float, compile ⟨[("a", .scalar ⟨0⟩)], false⟩ { constantFolding := false } ["b"]
        "- a ^ - 2 * ( b - 2 ) or not b ? a : b" =
      .ok ⟨.branch (.logic .or
          (.apply (.scalars .times) [
            .apply .negate [.apply (.scalars .power)
              [.load ⟨"a", .scalar ⟨0⟩, true⟩, .apply .negate [.number two]]],
            .apply (.scalars .minus) [.load ⟨"b", .slot 0 .scalar, true⟩, .number two]])
          (.apply .not [.load ⟨"b", .slot 0 .scalar, true⟩]))
        (.load ⟨"a", .scalar ⟨0⟩, true⟩) (some (.load ⟨"b", .slot 0 .scalar, true⟩)), 1⟩ := by
  have digits : Digits ['2'] := by simp [Digits]
  have numeral : Numeral ['2'] := .mk digits .none .none (.inl (by simp))
  obtain ⟨two, reads⟩ := numeral.read
  let literal : Formula := .number ⟨_, two, numeral, reads⟩
  let a : Formula := .load ⟨"a", .scalar ⟨0⟩, true⟩
  let b : Formula := .load ⟨"b", .slot 0 .scalar, true⟩
  let f : Formula := .conditional
    (.binary ⟨.or, by decide⟩
      (.binary ⟨.times, by decide⟩
        (.negate (.binary ⟨.power, by decide⟩ a (.negate literal)))
        (.binary ⟨.minus, by decide⟩ b literal))
      (.not false b)) a b
  have known : f.Known ⟨[("a", .scalar ⟨0⟩)], false⟩ ["b"] := by
    have known : ∀ v ∈ f.bindings,
        v = ⟨"a", .scalar ⟨0⟩, true⟩ ∨ v = ⟨"b", .slot 0 .scalar, true⟩ := by
      simp [f, a, b, literal, Formula.bindings]
    constructor
    · intro v inside
      rcases known v inside with rfl | rfl
      · exact ⟨by decide +kernel, by decide +kernel⟩
      · exact ⟨by decide +kernel, by decide +kernel⟩
    · intro v inside
      rcases known v inside with rfl | rfl
      · decide +kernel
      · decide +kernel
  have nested : f.grouped.depth ≤ 256 := Nat.le_add_left 3 253
  have text : f.grouped.text = "- a ^ - 2 * ( b - 2 ) or not b ? a : b" := by
    have words : f.grouped.items.map Prod.fst = [['-'], ['a'], ['^'], ['-'], ['2'], ['*'], ['('],
        ['b'], ['-'], ['2'], [')'], ['o', 'r'], ['n', 'o', 't'], ['b'], ['?'], ['a'], [':'],
        ['b']] := rfl
    rw [Formula.text, words]
    decide +kernel
  rw [← text]
  exact ⟨two, (compile_formula known rfl nested).1⟩

end MathScript
