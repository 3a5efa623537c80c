import MathScript.Proofs.Programs
import MathScript.Proofs.Sizes

/-!
What the height of a tree is paid with. A level that is no link is part of the nesting of operands,
which is limited. A link is paid with its sign, which is taken from the text. So what is read is as
high as the parts below the operands are, and higher by the signs that were taken meanwhile.
-/

namespace MathScript

/-- The signs that make links. -/
def Token.links : Token → Bool
  | .sym (.op _) | .sym (.assign _) | .sym .question => true
  | _ => false

namespace Parse

open MathScript.Tree

/-! ### Signs that are left -/

/-- How many signs of links are not taken yet, if links are counted. -/
def State.slack (counted : Bool) (s : State) : Nat := counted.toNat * s.tokens.countP Token.links

theorem slack_le {s s' : State} (suffix : s'.tokens <:+ s.tokens) (counted : Bool) :
    s'.slack counted ≤ s.slack counted :=
  Nat.mul_le_mul_left _ suffix.sublist.countP_le

theorem Same.slack_le {s s' : State} (same : Same s s') (counted : Bool) :
    s'.slack counted ≤ s.slack counted :=
  Parse.slack_le same.tokens counted

theorem Looked.slack_le {s s' : State} (looked : Looked s s') (counted : Bool) :
    s'.slack counted ≤ s.slack counted :=
  Parse.slack_le looked.suffix counted

theorem Looked.head {s s' : State} {t : Token} (looked : Looked s s')
    (head : s'.tokens.head? = some t) : s.tokens.head? = some t := by
  rcases looked.tokens with same | none
  · exact same ▸ head
  · simp [none] at head

theorem Took.slack_le {s s' : State} {t : Token} (took : Took s t s')
    (head : s.tokens.head? = some t) (link : t.links = true) (counted : Bool) :
    s'.slack counted + counted.toNat ≤ s.slack counted := by
  obtain ⟨ts, split⟩ : ∃ ts, s.tokens = t :: ts := by
    cases tokens : s.tokens with
    | nil => simp [tokens] at head
    | cons u ts =>
        obtain rfl : u = t := by simpa [tokens] using head
        exact ⟨ts, rfl⟩
  have fewer : s'.tokens.countP Token.links ≤ ts.countP Token.links := by
    rcases took.tokens with taken | none
    · rw [split] at taken
      rw [(List.cons.inj taken).2]
    · rw [none]
      exact Nat.zero_le _
  rw [State.slack, State.slack, split, List.countP_cons_of_pos link, Nat.mul_succ]
  exact Nat.add_le_add_right (Nat.mul_le_mul_left _ fewer) _

/-- What was seen at the head is taken, though more was looked at since. -/
theorem ends_taking_behind (source : Source) {s s₁ : State} {t : Token} (looked : Looked s s₁)
    (head : s.tokens.head? = some t) :
    Ends (advance source) s₁ (fun _ => Took s t) fun _ _ => False := by
  rcases looked.tokens with same | none
  · exact (ends_taking source (same ▸ head)).mono (fun _ _ took => .of_looked looked took)
      fun _ _ => id
  · refine (ends_advance source s₁).mono (fun found s' advanced => ?_) fun _ _ => id
    cases found with
    | none => exact .of_looked looked (advanced t)
    | some u =>
        rw [none] at advanced
        cases advanced.1

/-! ### Parts that are paid for -/

/-- From a state on, a part takes signs, and what is told of its result goes by how many. -/
def Spends {α : Type} (counted : Bool) (s : State) (x : Parse α) (told : Nat → α → Prop) : Prop :=
  Ends x s (fun a s' => ∃ spent, s'.slack counted + spent ≤ s.slack counted ∧ told spent a)
    fun _ s' => s'.slack counted ≤ s.slack counted

/-- The same from wherever the part is read. -/
def Pays {α : Type} (counted : Bool) (x : Parse α) (told : Nat → α → Prop) : Prop :=
  ∀ s, Spends counted s x told

section

variable {α β : Type} {counted : Bool} {s : State} {told told' : Nat → α → Prop}

/-- What is told of signs taken here is told of as many taken since before. -/
theorem Spends.later {s' : State} {x : Parse α} (spends : Spends counted s' x told)
    (less : s'.slack counted ≤ s.slack counted) :
    Ends x s' (fun a s'' => ∃ spent, s''.slack counted + spent ≤ s.slack counted ∧ told spent a)
      fun _ s'' => s''.slack counted ≤ s.slack counted := by
  refine spends.mono ?_ fun _ _ less' => less'.trans less
  rintro a s'' ⟨spent, paid, known⟩
  exact ⟨spent, paid.trans less, known⟩

theorem spends_bind {x : Parse β} {f : β → Parse α} {known : β → State → Prop}
    (first : Ends x s known fun _ s' => s'.slack counted ≤ s.slack counted)
    (rest : ∀ b s', known b s' → ∃ spent, s'.slack counted + spent ≤ s.slack counted ∧
      Spends counted s' (f b) fun more => told (spent + more)) :
    Spends counted s (x >>= f) told := by
  refine ends_bind (first.mono (fun b s' after => ?_) fun _ _ => id)
  obtain ⟨spent, paid, further⟩ := rest b s' after
  refine further.mono ?_ fun _ _ less => by omega
  rintro a s'' ⟨more, paid', known⟩
  exact ⟨spent + more, by omega, known⟩

theorem pays_pure {a : α} (known : told 0 a) : Pays counted (pure a) told :=
  fun _ => ends_pure ⟨0, Nat.le_refl _, known⟩

theorem pays_throw {d : Diagnostic} : Pays counted (throw d) told :=
  fun _ => ends_throw (Nat.le_refl _)

theorem Pays.bind {x : Parse β} {f : β → Parse α} {known : Nat → β → Prop}
    (first : Pays counted x known)
    (rest : ∀ spent b, known spent b → Pays counted (f b) fun more => told (spent + more)) :
    Pays counted (x >>= f) told := by
  refine fun s => spends_bind (first s) ?_
  rintro b s' ⟨spent, paid, after⟩
  exact ⟨spent, paid, rest spent b after s'⟩

theorem Pays.mono {x : Parse α} (pays : Pays counted x told)
    (weaker : ∀ spent a, told spent a → told' spent a) : Pays counted x told' := by
  refine fun s => (pays s).mono ?_ fun _ _ => id
  rintro a s' ⟨spent, paid, known⟩
  exact ⟨spent, paid, weaker spent a known⟩

theorem pays_ite {c : Prop} [Decidable c] {x y : Parse α} (yes : Pays counted x told)
    (no : Pays counted y told) : Pays counted (if c then x else y) told := by
  split
  · exact yes
  · exact no

theorem Gives.pays {x : Parse α} {known : α → Prop} (gives : Gives x known) :
    Pays counted x fun _ => known :=
  fun s => (gives s).mono (fun _ _ after => ⟨0, after.1.slack_le counted, after.2⟩)
    fun _ _ same => same.slack_le counted

theorem Gives.before {x : Parse β} {f : β → Parse α} {known : β → Prop} (gives : Gives x known)
    (rest : ∀ b, known b → Pays counted (f b) told) : Pays counted (x >>= f) told := by
  refine fun s => spends_bind
    ((gives s).mono (fun _ _ => id) fun _ _ same => same.slack_le counted) ?_
  rintro b s' ⟨same, after⟩
  exact ⟨0, same.slack_le counted, by simpa using rest b after s'⟩

theorem Quiet.paid {x : Parse β} {f : β → Parse α} (quiet : Quiet x)
    (rest : ∀ b, Pays counted (f b) told) : Pays counted (x >>= f) told :=
  quiet.gives.before fun b _ => rest b

theorem pays_inScope {x : Parse α} (inner : Pays counted x told) :
    Pays counted (inScope x) told := by
  intro s
  have ends := inner { s with scopes := [] :: s.scopes }
  unfold Spends Ends inScope at *
  cases end_eq : x { s with scopes := [] :: s.scopes } with
  | ok a s' =>
      rw [end_eq] at ends
      exact ends
  | error d s' =>
      rw [end_eq] at ends
      exact ends

theorem pays_inLoop {x : Parse α} (inner : Pays counted x told) : Pays counted (inLoop x) told := by
  intro s
  have ends := inner { s with loopDepth := s.loopDepth + 1 }
  unfold Spends Ends inLoop at *
  cases end_eq : x { s with loopDepth := s.loopDepth + 1 } with
  | ok a s' =>
      rw [end_eq] at ends
      exact ends
  | error d s' =>
      rw [end_eq] at ends
      exact ends

theorem pays_attempt {x : Parse α} (inner : Pays counted x told) :
    Pays counted (attempt x) fun spent end_ => ∀ a, end_ = .ok a → told spent a := by
  intro s
  refine ends_attempt (inner s) ?_ ?_
  · rintro a s' ⟨spent, paid, known⟩
    refine ⟨spent, paid, ?_⟩
    rintro _ ⟨⟩
    exact known
  · intro d s' less
    exact ⟨0, less, by simp⟩

end

/-! ### Nodes -/

/-- A node with its own kind and what is told of the trees it stands for. -/
structure Fits (limit : Nat) (counted : Bool) (bound : Nat) (n : Typed) : Prop where
  right : Right n
  within : n.tree.Within (HasSize limit) counted bound

/-- A part that reads a node. It is no higher than `bound` and the signs that were taken for it. -/
def Reaches (limit : Nat) (counted : Bool) (bound : Nat) (x : Parse Typed) : Prop :=
  Pays counted x fun spent => Fits limit counted (bound + spent)

variable {limit : Nat} {counted : Bool} {bound bound' cost : Nat}

theorem Fits.mono {n : Typed} (fits : Fits limit counted bound n) (more : bound ≤ bound') :
    Fits limit counted bound' n :=
  ⟨fits.right, fits.within.mono more⟩

theorem Reaches.mono {x : Parse Typed} (reaches : Reaches limit counted bound x)
    (more : bound ≤ bound') : Reaches limit counted bound' x :=
  Pays.mono reaches fun spent _ fits => fits.mono (Nat.add_le_add_right more spent)

/-- The same, as high as is enough wherever the part stands. -/
theorem Reaches.upto {x : Parse Typed} {total : Nat → Nat} (reaches : Reaches limit counted bound x)
    (enough : ∀ spent, bound + spent ≤ total spent) :
    Pays counted x fun spent => Fits limit counted (total spent) :=
  Pays.mono reaches fun spent _ fits => fits.mono (enough spent)

theorem fits_node {n : Typed} (right : Right n) (undeclared : n.tree.declares = [])
    (children : ∀ child ∈ n.tree.children, child.Within (HasSize limit) counted bound)
    (room : bound + n.tree.rise counted ≤ bound') : Fits limit counted bound' n :=
  ⟨right, .node (hasSize_of_undeclared undeclared) children room⟩

theorem fits_leaf {n : Typed} (right : Right n) (undeclared : n.tree.declares = [])
    (childless : n.tree.children = []) (room : 1 ≤ bound) : Fits limit counted bound n :=
  fits_node right undeclared (by simp [childless])
    (Nat.le_trans (Nat.add_le_add_left (rise_le counted _) 0) room)

theorem fits_above {n : Typed} (right : Right n) (undeclared : n.tree.declares = [])
    (children : ∀ child ∈ n.tree.children, child.Within (HasSize limit) counted bound)
    (room : bound + 1 ≤ bound') : Fits limit counted bound' n :=
  fits_node right undeclared children
    (Nat.le_trans (Nat.add_le_add_left (rise_le counted _) bound) room)

/-- What is put together from pieces costs what the node adds to them. -/
theorem gives_fitting {x : Parse Typed} {pieces : List Tree}
    (gives : Gives x fun n => Right n ∧ Made (fun _ => True) [] pieces n.tree)
    (gains : Gives x fun n => n.tree.gain counted ≤ cost)
    (within : ∀ p ∈ pieces, p.Within (HasSize limit) counted bound) :
    Gives x (Fits limit counted (bound + cost)) := by
  refine fun s => ((gives s).and (gains s)).mono ?_ fun _ _ after => after.1
  rintro n s' ⟨⟨same, right, made⟩, -, gained⟩
  exact ⟨same, right, (made.within (hasSize_of_undeclared made.undeclared) within).mono
    (Nat.add_le_add_left gained bound)⟩

theorem gives_raised {x : Parse Typed} {pieces : List Tree}
    (gives : Gives x fun n => Right n ∧ Made (fun _ => True) [] pieces n.tree)
    (within : ∀ p ∈ pieces, p.Within (HasSize limit) counted bound) :
    Gives x (Fits limit counted (bound + 1)) :=
  gives_fitting gives (fun s => (gives s).mono
    (fun n _ after => ⟨after.1, (gain_le counted n.tree).trans (rise_le counted n.tree)⟩)
    fun _ _ => id) within

theorem within_trees {ns : List Typed} (fits : ∀ n ∈ ns, Fits limit counted bound n) :
    ∀ t ∈ ns.map Typed.tree, t.Within (HasSize limit) counted bound := by
  intro t inside
  obtain ⟨n, member, rfl⟩ := List.mem_map.mp inside
  exact (fits n member).within

theorem rights_of_fits {ns : List Typed} (fits : ∀ n ∈ ns, Fits limit counted bound n) :
    ∀ n ∈ ns, Right n :=
  fun n member => (fits n member).right

theorem sequence_fits {items : List Typed} (fits : ∀ n ∈ items, Fits limit counted bound n)
    (room : bound + 1 ≤ bound') : Fits limit counted bound' (sequence items) := by
  match items with
  | [] => exact fits_leaf rfl rfl rfl (by omega)
  | [single] => exact (fits single (by simp)).mono (by omega)
  | first :: second :: rest =>
      exact fits_above (sequence_right (rights_of_fits fits)) rfl (within_trees fits) room

/-! ### Links -/

variable (source : Source)

theorem gives_link {x : Parse Typed} (gives : Gives x fun n => n.tree.links = true) :
    Gives x fun n => n.tree.gain counted ≤ counted.toNat :=
  fun s => (gives s).mono (fun n _ after =>
    ⟨after.1, (gain_le counted n.tree).trans (Nat.le_of_eq (rise_link after.2))⟩) fun _ _ => id

theorem links_combined {op : Op} {left right n : Typed}
    (combined : combined? op left right = some n) : n.tree.links = true := by
  unfold combined? at combined
  dsimp only at combined
  repeat' split at combined
  all_goals first | cases combined; rfl | cases combined

theorem links_combine (op : Op) (left right : Typed) (position : Nat) :
    Gives (combine source op left right position) fun n => n.tree.links = true := by
  unfold combine
  split
  · next n combined => exact gives_pure (links_combined combined)
  · exact gives_fail source _ _

theorem links_conditional (test : Tree) (yes : Typed) (no : Option Typed) (position : Nat) :
    Gives (conditional source test yes no position) fun n => n.tree.links = true := by
  unfold conditional
  cases no with
  | none => exact gives_pure rfl
  | some n =>
      dsimp only
      split
      · exact gives_pure rfl
      · exact gives_fail source _ _

theorem links_assignment (left : Typed) (op : AssignOp) (value : Typed) (position : Nat) :
    Gives (assignment source left op value position) fun n => n.tree.links = true := by
  apply (gives_target source left position).bind
  intro t _
  split
  · exact gives_pure rfl
  · exact gives_fail source _ _

theorem gain_exchange (left right : Typed) (position : Nat) :
    Gives (exchange source left right position) fun n => n.tree.gain counted ≤ 0 := by
  apply (gives_target source left position).bind
  intro l _
  apply (gives_target source right position).bind
  intro r _
  split
  · exact gives_pure (Nat.le_refl 0)
  · exact gives_fail source _ _

/-! ### Operators -/

theorem ends_operatorAhead (least : Nat) (s : State) :
    Ends (operatorAhead source least) s (fun found s' => Looked s s' ∧
      ∀ op, found = some op → s.tokens.head? = some (.sym (.op op))) fun _ _ => False := by
  refine ends_bind ((ends_peek source s).mono (fun found s' peeked => ?_) fun _ _ => id)
  obtain ⟨looked, head⟩ := peeked
  split
  · next op =>
      refine ends_pure ⟨looked, fun op' found => ?_⟩
      split at found
      · rw [looked.head head, Option.some.inj found]
      · cases found
  · exact ends_pure ⟨looked, by simp⟩

/-- Behind a sign that was seen, the rest is read with the sign taken. -/
theorem spends_sign {s s₁ : State} {α : Type} {t : Token} {f : Option Token → Parse α}
    {told : Nat → α → Prop} (looked : Looked s s₁) (head : s.tokens.head? = some t)
    (link : t.links = true)
    (rest : ∀ found, Pays counted (f found) fun more => told (counted.toNat + more)) :
    Ends (advance source >>= f) s₁
      (fun a s' => ∃ spent, s'.slack counted + spent ≤ s.slack counted ∧ told spent a)
      fun _ s' => s'.slack counted ≤ s.slack counted := by
  refine ends_bind ((ends_taking_behind source looked head).mono (fun found s₂ took => ?_)
    fun _ _ => False.elim)
  have paid := took.slack_le head link counted
  refine (rest found s₂).mono ?_ fun _ _ less => by omega
  rintro a s' ⟨more, further, known⟩
  exact ⟨counted.toNat + more, by omega, known⟩

/-- A sign that may be there is paid if it is. -/
theorem pays_eat {sym : Sym} (link : (Token.sym sym).links = true) :
    Pays counted (eat source sym) fun spent taken =>
      spent = if taken then counted.toNat else 0 := by
  refine fun s => ends_bind ((ends_checking source (.sym sym) s).mono (fun there s₁ checked => ?_)
    fun _ _ => False.elim)
  obtain ⟨looked, head⟩ := checked
  split
  · next seen =>
      have ends := ends_taking_behind source looked (looked.head (head seen))
      refine ends_bind (ends.mono (fun _ s' took => ?_) fun _ _ => False.elim)
      exact ends_pure ⟨_, took.slack_le (looked.head (head seen)) link counted, rfl⟩
  · exact ends_pure ⟨0, looked.slack_le counted, rfl⟩

section

variable {operand : Parse Typed} (operands : Reaches limit counted bound operand)

include operands

/-- One operator after another makes the tree higher by one link each. -/
theorem reaches_binary (fuel : Nat) :
    (∀ least, Reaches limit counted bound (binary source operand fuel least)) ∧
      ∀ least left high, bound ≤ high → Fits limit counted high left →
        Reaches limit counted high (climb source operand fuel least left) := by
  induction fuel with
  | zero =>
      constructor
      · intro least
        rw [binary]
        exact pays_throw
      · intro least left high _ _
        rw [climb]
        exact pays_throw
  | succ fuel ih =>
      obtain ⟨binaries, climbs⟩ := ih
      constructor
      · intro least
        rw [binary]
        exact operands.bind fun spent left fits =>
          (climbs least left _ (Nat.le_add_right bound spent) fits).upto fun _ => by omega
      · intro least left high above fits
        rw [climb]
        refine fun s => ends_bind ((ends_operatorAhead source least s).mono
          (fun found s₁ seen => ?_) fun _ _ => False.elim)
        obtain ⟨looked, head⟩ := seen
        cases found with
        | none => exact ends_pure ⟨0, looked.slack_le counted, fits⟩
        | some op =>
            refine ends_bind ((idle_position source s₁).mono (fun here s₂ further => ?_)
              fun _ _ further => (looked.trans further).slack_le counted)
            refine spends_sign source (looked.trans further) (head op rfl) rfl fun _ => ?_
            refine (binaries op.rightPrecedence).bind fun spent right rightFits => ?_
            have sides : ∀ p ∈ [left.tree, right.tree],
                p.Within (HasSize limit) counted (high + spent) := by
              simpa using ⟨fits.within.mono (by omega), rightFits.within.mono (by omega)⟩
            have combined := gives_fitting (gives_combine source op left right here)
              (gives_link (links_combine source op left right here)) sides
            refine combined.before fun n nFits => ?_
            exact (climbs least n _ (by omega) nFits).upto fun _ => by omega

theorem reaches_chain (least : Nat) :
    Reaches limit counted bound (chain source operand least) :=
  (reaches_binary source operands source.allowance).1 least

theorem reaches_ternary {again : Parse Typed} (agains : Reaches limit counted bound again) :
    Reaches limit counted bound (ternary source operand again) := by
  apply (quiet_position source).paid
  intro here
  refine (reaches_chain source operands 1).bind fun spent condition fits => ?_
  refine (pays_eat source rfl).bind fun sign taken paid => ?_
  subst paid
  cases taken with
  | false => exact pays_pure fits
  | true =>
      refine (gives_requireScalar source condition here "condition").before ?_
      rintro _ rfl
      refine agains.bind fun used yes yesFits => (quiet_expect source .colon _).paid fun _ => ?_
      refine agains.bind fun last no noFits => ?_
      have sides : ∀ p ∈ [condition.tree, yes.tree, no.tree],
          p.Within (HasSize limit) counted (bound + spent + used + last) := by
        simpa using ⟨fits.within.mono (by omega), yesFits.within.mono (by omega),
          noFits.within.mono (by omega)⟩
      have node := gives_fitting (gives_conditional source condition.tree yes (some no) here
        yesFits.right (by simpa using noFits.right))
        (gives_link (links_conditional source condition.tree yes (some no) here)) sides
      exact node.pays.mono fun _ n nFits => nFits.mono (by simp only [if_true]; omega)

theorem reaches_expressions (fuel : Nat) :
    Reaches limit counted bound (expressions source operand fuel) := by
  induction fuel with
  | zero => exact pays_throw
  | succ fuel ih =>
      rw [expressions]
      apply (quiet_position source).paid
      intro here
      refine (reaches_ternary source operands ih).bind fun spent left fits => ?_
      refine fun s => ends_bind ((ends_peek source s).mono (fun found s' peeked => ?_)
        fun _ _ => False.elim)
      obtain ⟨looked, head⟩ := peeked
      split
      · next op =>
          refine spends_sign source looked (looked.head head) rfl fun _ => ?_
          refine ih.bind fun used value valueFits => ?_
          have sides : ∀ p ∈ [left.tree, value.tree],
              p.Within (HasSize limit) counted (bound + spent + used) := by
            simpa using ⟨fits.within.mono (by omega), valueFits.within.mono (by omega)⟩
          have node := gives_fitting (gives_assignment source left op value here)
            (gives_link (links_assignment source left op value here)) sides
          exact node.pays.mono fun _ n nFits => nFits.mono (by omega)
      · refine Spends.later ?_ (looked.slack_le counted)
        refine (quiet_advance source).paid (fun _ => ?_) s'
        refine (reaches_ternary source operands ih).bind fun used right rightFits => ?_
        have sides : ∀ p ∈ [left.tree, right.tree],
            p.Within (HasSize limit) counted (bound + spent + used) := by
          simpa using ⟨fits.within.mono (by omega), rightFits.within.mono (by omega)⟩
        have node := gives_fitting (gives_exchange source left right here)
          (gain_exchange source left right here) sides
        exact node.pays.mono fun _ n nFits => nFits.mono (by omega)
      · exact ends_pure ⟨0, looked.slack_le counted, fits⟩

theorem reaches_expression : Reaches limit counted bound (expression source operand) :=
  reaches_expressions source operands source.allowance

end

end Parse

end MathScript
