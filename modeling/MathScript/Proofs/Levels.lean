import MathScript.Proofs.Spending

/-!
How high the nodes of statements are. Between an operand and the operands inside of it stand at most
three levels that are no links: a declaration, the block it is in, and the loop of the block.
-/

namespace MathScript.Parse

open MathScript.Tree

variable {limit bound : Nat} {counted : Bool} (source : Source)

/-! ### Lists and declarations -/

/-- A part that reads a tree. -/
def Raises (limit : Nat) (counted : Bool) (bound : Nat) (x : Parse Tree) : Prop :=
  Pays counted x fun spent t => t.Within (HasSize limit) counted (bound + spent)

section

variable {expression : Parse Typed}

theorem pays_commaList {α : Type} {item : Parse α} {told : Nat → α → Prop} (close : Sym)
    (context : String) (fuel : Nat) {items : List α} (before : Nat)
    (inner : Pays counted item told)
    (mono : ∀ {spent spent' a}, told spent a → spent ≤ spent' → told spent' a)
    (items_told : ∀ a ∈ items, told before a) :
    Pays counted (commaList source item close context fuel items) fun spent all =>
      ∀ a ∈ all, told (before + spent) a := by
  induction fuel generalizing items before with
  | zero => exact pays_throw
  | succ fuel ih =>
      rw [commaList]
      refine inner.bind fun spent a known => ?_
      have longer : ∀ b ∈ a :: items, told (before + spent) b :=
        List.forall_mem_cons.mpr ⟨mono known (by omega), fun b member =>
          mono (items_told b member) (by omega)⟩
      apply (quiet_eat source .comma).paid
      intro _
      apply pays_ite
      · exact (ih _ longer).mono fun more all known b member =>
          mono (known b member) (by omega)
      · apply (quiet_expect source close context).paid
        intro _
        exact pays_pure fun b member => longer b (List.mem_reverse.mp member)

variable (reaches : Reaches limit counted bound expression)

include reaches

theorem pays_trees (close : Sym) (context : String) :
    Pays counted (commaList source expression close context source.allowance []) fun spent all =>
      ∀ n ∈ all, Fits limit counted (bound + spent) n :=
  (pays_commaList source close context source.allowance 0 reaches
    (fun fits more => fits.mono (by omega)) (by simp)).mono fun spent all fits n member =>
      (fits n member).mono (by omega)

theorem raises_scalarExpression (what : String) :
    Raises limit counted bound (scalarExpression source expression what) := by
  apply (quiet_position source).paid
  intro here
  refine reaches.bind fun spent n fits => ?_
  exact (gives_requireScalar source n here what).pays.mono fun more t same =>
    same ▸ fits.within.mono (by omega)

theorem pays_scalarList (close : Sym) :
    Pays counted (scalarList source expression close) fun spent ts =>
      ∀ t ∈ ts, t.Within (HasSize limit) counted (bound + spent) := by
  apply (quiet_eat source close).paid
  intro _
  apply pays_ite (pays_pure (by simp))
  exact (pays_commaList source close _ _ 0
    (raises_scalarExpression source reaches _) (fun within more => within.mono (by omega))
    (by simp)).mono fun spent ts within t member => (within t member).mono (by omega)

end

/-! ### Declarations -/

/-- What a declaration declares, with the trees of its initial value. -/
structure Declares (limit : Nat) (counted : Bool) (bound : Nat) (declared : Shape × List Tree) :
    Prop where
  sized : ∀ length fill, declared.1 = .vector length fill →
    Sized limit length fill declared.2.length
  within : ∀ t ∈ declared.2, t.Within (HasSize limit) counted bound

/-- How a vector is filled, if its length is `length` where that is given. -/
structure Fills (limit : Nat) (counted : Bool) (bound : Nat) (length : Option Nat)
    (filled : Fill × List Tree) : Prop where
  room : ∀ n ∈ length, filled.1 = .literal → filled.2.length ≤ n
  within : ∀ t ∈ filled.2, t.Within (HasSize limit) counted bound

section

variable {expression : Parse Typed}
  (reaches : Reaches source.limits.vectorSize counted bound expression)

include reaches

theorem pays_declaredLength :
    Pays counted (declaredLength source expression) fun _ length =>
      ∀ n ∈ length, 0 < n ∧ Allows source.limits.vectorSize n := by
  apply (quiet_eat source .rbracket).paid
  intro _
  apply pays_ite (pays_pure (by simp))
  apply (quiet_position source).paid
  intro here
  refine (raises_scalarExpression source reaches _).bind fun _ size _ => ?_
  apply (quiet_expect source .rbracket _).paid
  intro _
  refine (gives_vectorLength source size here).before fun n allowed => ?_
  exact pays_pure (by simpa using allowed)

theorem pays_vectorFill (name : String) (length : Option Nat) :
    Pays counted (vectorFill source expression name length) fun spent =>
      Fills source.limits.vectorSize counted (bound + spent) length := by
  apply (quiet_eat source _).paid
  intro _
  refine pays_ite ?_ (pays_pure ⟨by simp, by simp⟩)
  apply (quiet_position source).paid
  intro here
  apply (quiet_eat source .lbrace).paid
  intro _
  apply pays_ite
  · refine (pays_scalarList source reaches .rbrace).bind fun spent items within => ?_
    refine (gives_checkCount source items.length name length here).before fun _ enough => ?_
    exact pays_pure ⟨fun n given _ => enough n given, within⟩
  · apply (quiet_eat source .lbracket).paid
    intro _
    apply pays_ite
    · refine (raises_scalarExpression source reaches _).bind fun spent item within => ?_
      apply (quiet_expect source .rbracket _).paid
      intro _
      exact pays_pure ⟨by simp, by simpa using within⟩
    · refine reaches.bind fun spent value fits => ?_
      exact pays_ite (pays_pure ⟨by simp, by simpa using fits.within⟩) pays_throw

/-- A length that is asked for is allowed. Any other one is the number of the values. -/
theorem pays_vectorDeclaration (name : String) (position : Nat) :
    Pays counted (vectorDeclaration source expression name position) fun spent =>
      Declares source.limits.vectorSize counted (bound + spent) := by
  refine (pays_declaredLength source reaches).bind fun spent length asked => ?_
  refine (pays_vectorFill source reaches name length).bind fun used filled fills => ?_
  have within : ∀ t ∈ filled.2,
      t.Within (HasSize source.limits.vectorSize) counted (bound + (spent + (used + 0))) :=
    fun t member => (fills.within t member).mono (by omega)
  obtain ⟨fill, parts⟩ := filled
  dsimp only
  split
  · next n =>
    obtain ⟨nonempty, allowed⟩ := asked n rfl
    refine pays_pure ⟨?_, within⟩
    rintro _ _ ⟨⟩
    exact ⟨nonempty, fills.room n rfl, .inl allowed⟩
  · refine pays_pure ⟨?_, within⟩
    rintro _ _ ⟨⟩
    exact ⟨Nat.succ_pos _, fun _ => Nat.le_refl _, .inr ⟨rfl, rfl⟩⟩
  · exact pays_throw

theorem pays_initialValue (name : String) (constant : Bool) (position : Nat) :
    Pays counted (initialValue source expression name constant position) fun spent =>
      Declares source.limits.vectorSize counted (bound + spent) := by
  apply (quiet_eat source .lbracket).paid
  intro _
  apply pays_ite (pays_vectorDeclaration source reaches name position)
  apply (quiet_eat source _).paid
  intro _
  apply pays_ite
  · apply (quiet_position source).paid
    intro here
    refine reaches.bind fun spent value fits => ?_
    split
    · exact pays_pure ⟨by simp, by simpa using fits.within⟩
    · exact pays_pure ⟨by simp, by simpa using fits.within⟩
    · exact pays_throw
  · exact pays_ite pays_throw (pays_pure ⟨by simp, by simp⟩)

theorem reaches_declaration (constant : Bool) :
    Reaches source.limits.vectorSize counted (bound + 1)
      (declaration source expression constant) := by
  apply (quiet_advance source).paid
  intro _
  apply (quiet_position source).paid
  intro here
  apply (quiet_advance source).paid
  intro found
  split
  · next name =>
      apply pays_ite pays_throw
      apply (quiet_declaredHere name).paid
      intro _
      apply pays_ite pays_throw
      refine (pays_initialValue source reaches name constant here).bind ?_
      rintro spent ⟨shape, parts⟩ fits
      have slots : Pays counted (declareLocal name shape.kind !constant) fun spent _ => spent = 0 :=
        fun s => ⟨0, Nat.le_refl _, rfl⟩
      refine slots.bind fun _ slot none => pays_pure ⟨rfl, .node ?_ fits.within ?_⟩
      · rintro _ length fill ⟨⟩
        exact fits.sized length fill rfl
      · exact Nat.le_trans (Nat.add_le_add_left (rise_le counted _) _) (by omega)
  · exact pays_throw

/-! ### Statements -/

theorem reaches_statement :
    Reaches source.limits.vectorSize counted (bound + 1) (statement source expression) := by
  have higher := reaches.mono (Nat.le_add_right bound 1)
  apply (quiet_checkWord source _).paid
  intro _
  apply pays_ite (reaches_declaration source reaches false)
  apply (quiet_eatWord source _).paid
  intro _
  refine pays_ite ?_ higher
  apply (quiet_checkWord source _).paid
  intro _
  apply pays_ite (reaches_declaration source reaches true)
  exact (quiet_position source).paid fun _ => pays_throw

theorem pays_statements (stop : Stop) (fuel : Nat) {items : List Typed} (before : Nat)
    (fits : ∀ n ∈ items, Fits source.limits.vectorSize counted (bound + 1 + before) n) :
    Pays counted (statements source expression stop fuel items) fun spent all =>
      ∀ n ∈ all, Fits source.limits.vectorSize counted (bound + 1 + (before + spent)) n := by
  have kept : ∀ n ∈ items.reverse, Fits source.limits.vectorSize counted (bound + 1 + before) n :=
    fun n member => fits n (List.mem_reverse.mp member)
  induction fuel generalizing items before with
  | zero =>
      rw [statements]
      exact (quiet_record source _).paid fun _ => pays_pure kept
  | succ fuel ih =>
      rw [statements]
      apply (quiet_eatAll source _ _).paid
      intro _
      apply (quiet_atStop source stop).paid
      intro _
      apply pays_ite (pays_pure kept)
      refine (pays_attempt (reaches_statement source reaches)).bind fun spent ended told => ?_
      have further : ∀ {items : List Typed} {before' : Nat}, before' ≤ before + spent →
          (∀ n ∈ items, Fits source.limits.vectorSize counted (bound + 1 + before') n) →
          Pays counted (statements source expression stop fuel items) fun more all => ∀ n ∈ all,
            Fits source.limits.vectorSize counted (bound + 1 + (before + (spent + more))) n :=
        fun fewer told' => (ih _ told' fun n member => told' n (List.mem_reverse.mp member)).mono
          fun more all within n member => (within n member).mono (by omega)
      cases ended with
      | error d =>
          exact (quiet_recover source d).paid fun _ => further (Nat.le_add_right before spent) fits
      | ok item =>
          have longer : ∀ n ∈ item :: items,
              Fits source.limits.vectorSize counted (bound + 1 + (before + spent)) n :=
            List.forall_mem_cons.mpr ⟨(told item rfl).mono (by omega),
              fun n member => (fits n member).mono (by omega)⟩
          apply (quiet_separated source stop).paid
          intro _
          apply pays_ite (further (Nat.le_refl _) longer)
          refine (quiet_position source).paid fun _ => (quiet_peek source).paid fun _ => ?_
          exact (quiet_recover source _).paid fun _ => further (Nat.le_refl _) longer

theorem pays_block (stop : Stop) :
    Pays counted (block source expression stop) fun spent items =>
      ∀ n ∈ items, Fits source.limits.vectorSize counted (bound + 1 + spent) n :=
  pays_inScope ((pays_statements source reaches stop source.allowance 0
    (by simp)).mono fun spent items fits n member => (fits n member).mono (by omega))

end

end MathScript.Parse
