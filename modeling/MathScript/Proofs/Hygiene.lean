import MathScript.Proofs.Extents
import MathScript.Proofs.Versions
import Mathlib.Data.List.Nodup

/-!
Local names are hygienic. A local may have any name that the text has no other use for: if its
declaration and the names that refer to it are replaced by a new one, the text is accepted as
before, with the new name in the bindings of that local and nothing else changed. Which names refer
to a local is told by the parse itself, by whether it needs to find the local there.
-/

namespace MathScript

namespace Lexeme

def isWord (l : Lexeme) : Bool :=
  match l.content with
  | .ok (.word _) => true
  | _ => false

theorem isWord_product {position : Nat} {p : Piece} {rest : List Piece} {l : Lexeme}
    (inside : l ∈ product position p rest) : l.isWord = false := by
  unfold product at inside
  split at inside
  · rw [List.mem_singleton.mp inside]
    rfl
  · cases inside

/-- Words have places of their own. A product sign may stand where a word does. -/
theorem words_read (implicit : Bool) (text : List Char) :
    (read implicit text).Pairwise fun l l' =>
      l.isWord = true → l'.isWord = true → l.position < l'.position := by
  unfold read
  generalize 0 = position
  induction text using Piece.split.induct generalizing position with
  | case1 =>
      rw [Piece.split]
      exact .nil
  | case2 c cs n content scanned ih =>
      have wide := utf8Length_pos c (cs.take n)
      rw [Piece.split_cons, ofPieces, scanned]
      dsimp only at ih ⊢
      generalize signs : (if implicit then product _ _ _ else []) = sign
      have unnamed : ∀ l ∈ sign, l.isWord = false := by
        rw [← signs]
        split
        · exact fun l => isWord_product
        · exact fun l inside => absurd inside List.not_mem_nil
      have single : (ofContent position content).Pairwise fun l l' =>
          l.isWord = true → l'.isWord = true → l.position < l'.position := by
        cases content <;> simp [ofContent]
      have signed : sign.Pairwise fun l l' =>
          l.isWord = true → l'.isWord = true → l.position < l'.position :=
        List.pairwise_of_forall_mem_list fun l inside _ _ named => by
          rw [unnamed l inside] at named
          cases named
      refine List.pairwise_append.mpr ⟨List.pairwise_append.mpr ⟨single, signed, ?_⟩, ih _, ?_⟩
      · intro l _ l' inside _ named
        rw [unnamed l' inside] at named
        cases named
      · intro l before l' later named _
        rcases List.mem_append.mp before with here | inside
        · have behind := (position_ofPieces later).1
          rw [position_ofContent here]
          omega
        · rw [unnamed l inside] at named
          cases named

theorem isWord_iff {l : Lexeme} : l.isWord = true ↔ ∃ name, l.content = .ok (.word name) := by
  obtain ⟨position, _ | _ | _ | _ | _⟩ := l <;> simp [isWord]

end Lexeme

namespace Compile

open Parse Renamable

variable {table : Table} {settings : Settings} {params : List String} {text : String}

/-- Two words of a text at one place are one. -/
theorem eq_of_place {l l' : Lexeme} (inside : l ∈ lexemes settings text)
    (inside' : l' ∈ lexemes settings text) (named : l.isWord = true) (named' : l'.isWord = true)
    (same : l.position = l'.position) : l = l' := by
  have apart : (lexemes settings text).Pairwise fun l l' =>
      l.isWord = true → l'.isWord = true → l.position < l'.position :=
    Lexeme.words_read settings.implicitMultiplication text.toList
  obtain ⟨i, short, rfl⟩ := List.getElem_of_mem inside
  obtain ⟨j, short', rfl⟩ := List.getElem_of_mem inside'
  rw [List.pairwise_iff_getElem] at apart
  rcases Nat.lt_trichotomy i j with less | rfl | less
  · exact absurd (apart i j short short' less named named') (by rw [same]; exact Nat.lt_irrefl _)
  · rfl
  · exact absurd (apart j i short' short less named' named) (by rw [same]; exact Nat.lt_irrefl _)

/-! ### Versions -/

/-- A lexeme and what it is where another word is put in place of some. -/
inductive Reworded (chosen : Nat → Prop) (word : String) : Lexeme → Lexeme → Prop
  | same {here there : Nat} {t : Token} (kept : ∀ name, t = .word name → ¬ chosen here) :
      Reworded chosen word ⟨here, .ok t⟩ ⟨there, .ok t⟩
  | new {here there : Nat} {name : String} (changed : chosen here) :
      Reworded chosen word ⟨here, .ok (.word name)⟩ ⟨there, .ok (.word word)⟩

/-- A word that a text has no use for. -/
structure Fresh (settings : Settings) (params : List String) (text word : String) : Prop where
  identifier : isIdentifier word = true
  free : isReserved word = false
  other : word ∉ params
  unused : ∀ l ∈ lexemes settings text, l.content ≠ .ok (.word word)

/-- A text with a fresh word for the local of a slot in the places that are chosen. -/
structure Renamed (settings : Settings) (params : List String) (text : String) where
  slot : Nat
  word : String
  chosen : Nat → Prop
  text' : String
  low : params.length ≤ slot
  fresh : Fresh settings params text word
  names : ∀ place name, chosen place → ⟨place, .ok (.word name)⟩ ∈ lexemes settings text →
    isReserved name = false
  reworded : List.Forall₂ (Reworded chosen word) (lexemes settings text) (lexemes settings text')

namespace Renamed

/-- The new name for one slot. -/
def newName (slot : Nat) (word : String) : Naming :=
  fun i => if i = slot then some word else none

theorem newName_eq_some {slot i : Nat} {word name : String} :
    newName slot word i = some name ↔ i = slot ∧ word = name := by
  simp [newName]

open Classical in
/-- The new words by their places. -/
noncomputable def words (v : Renamed settings params text) (place : Nat) : Option String :=
  if v.chosen place then some v.word else none

theorem allowance_eq (v : Renamed settings params text) (table : Table) :
    (source table settings v.text').allowance = (source table settings text).allowance := by
  have length := v.reworded.length_eq
  simp only [source]
  omega

end Renamed

open Renamed

/-- A text beside itself, read without knowing a local at a place, and beside itself with a new name
for a local. -/
def versions (table : Table) (settings : Settings) (params : List String) (text : String) :
    Sides (Nat × Nat ⊕ Renamed settings params text) where
  source := source table settings text
  others := Sum.elim (fun _ => source table settings text) fun v => source table settings v.text'
  naming := Sum.elim (fun _ _ => none) fun v => newName v.slot v.word
  unknown := Sum.elim some fun _ => none
  near := Sum.elim (fun _ => Eq) fun _ _ _ => True
  lax := fun _ => False
  patient := True
  rounds := (source table settings text).allowance
  table := by rintro (_ | _) <;> rfl
  nesting := by rintro (_ | _) <;> exact Nat.le_refl _
  vectorSize := by rintro (_ | _) <;> exact Nat.le_refl _
  strict := by rintro (_ | _) _ <;> exact ⟨rfl, rfl⟩
  allowance := by
    rintro (_ | v)
    · rfl
    · exact v.allowance_eq table
  allowed := .inl rfl
  origin := by rintro (_ | _) <;> trivial
  toward := fun here => ⟨fun _ => here, by rintro (_ | _) <;> trivial⟩
  back := fun i place => ⟨place, fun _ => place, by rintro (_ | _) <;> trivial, rfl⟩

theorem versions_variants (kept : 0 < settings.maxErrors) :
    (versions table settings params text).Variants where
  errors := kept
  errors' := by rintro (_ | _) <;> exact kept
  ending := by rintro (_ | _) <;> trivial
  sizes := by rintro (_ | _) x above <;> exact above
  blind := by
    rintro (_ | _) unknown
    · exact ⟨rfl, id, fun _ _ => Eq.symm⟩
    · exact absurd rfl unknown
  distinct := by
    rintro (_ | v) slot slot' word named named'
    · cases named
    · exact (newName_eq_some.mp named).1.trans (newName_eq_some.mp named').1.symm
  usable := by
    rintro (_ | v) slot word named
    · cases named
    · obtain ⟨-, rfl⟩ := newName_eq_some.mp named
      exact ⟨v.fresh.identifier, v.fresh.free⟩

theorem mem_parameterScope {e : String × Local} {first : Nat}
    (inside : e ∈ parameterScope first params) :
    e.1 ∈ params ∧ e.2.slot < first + params.length := by
  induction params generalizing first with
  | nil => cases inside
  | cons name names ih =>
      rw [parameterScope, List.mem_cons] at inside
      rcases inside with rfl | inside
      · exact ⟨List.mem_cons_self, by simp⟩
      · obtain ⟨listed, below⟩ := ih inside
        exact ⟨List.mem_cons_of_mem _ listed, by simp only [List.length_cons]; omega⟩

/-- Before the first token, every version is the text but for the new words. -/
theorem copies_start (faultless : ∀ l ∈ lexemes settings text, ∃ t, l.content = .ok t)
    (i : Nat × Nat ⊕ Renamed settings params text) :
    Copy (versions table settings params text) (Sum.elim (fun _ _ => none) words) i
      (start settings params text.toList)
      (start settings params (i.elim (fun _ => text) Renamed.text').toList) := by
  rcases i with unknown | v
  · exact {
      ahead := .nil
      rest := List.forall₂_same.mpr fun l inside => by
        obtain ⟨here, content⟩ := l
        obtain ⟨t, rfl : content = .ok t⟩ := faultless _ inside
        exact .token (.same rfl (fun _ _ => rfl) fun _ _ _ => nofun)
      scopes := List.forall₂_same.mpr fun _ _ => List.forall₂_same.mpr fun _ _ => .same rfl nofun
      frameSize := rfl
      loopDepth := rfl
      afterBrace := rfl
      clean := rfl }
  · have lexemes' : List.Forall₂ (WordedLexeme (versions table settings params text)
        (Sum.elim (fun _ _ => none) words) (.inr v)) (lexemes settings text)
        (lexemes settings v.text') := by
      refine (List.forall₂_and_left (p := (· ∈ lexemes settings text)) _ _).mpr
        ⟨fun _ => id, v.reworded⟩ |>.imp ?_
      rintro _ _ ⟨inside, worded⟩
      cases worded with
      | same kept =>
          refine .token (.same trivial (fun name same => if_neg (kept name same)) ?_)
          rintro name rfl slot named
          obtain ⟨-, rfl⟩ := newName_eq_some.mp named
          exact v.fresh.unused _ inside rfl
      | new changed =>
          exact .token (.new trivial (if_pos changed) (v.names _ _ changed inside) v.fresh.free)
    refine {
      ahead := .nil
      rest := lexemes'
      scopes := .cons (List.forall₂_same.mpr fun e inside => ?_) .nil
      frameSize := rfl
      loopDepth := rfl
      afterBrace := rfl
      clean := rfl }
    obtain ⟨listed, below⟩ := mem_parameterScope inside
    refine .same (if_neg ?_) fun slot named => ?_
    · have low := v.low
      omega
    · obtain ⟨-, same⟩ := newName_eq_some.mp named
      exact v.fresh.other (same ▸ listed)

/-! ### Names and what they refer to -/

/-- The name at a place refers to the local of a slot: the text is refused by a parse that does not
know the local there. -/
def Refers (table : Table) (settings : Settings) (params : List String) (text : String)
    (place slot : Nat) : Prop :=
  Refused (blindProgram (source table settings text) (some (place, slot))
    (start settings params text.toList))

instance {α : Type} : (r : EStateM.Result Diagnostic State α) → Decidable (Refused r)
  | .ok _ s => inferInstanceAs (Decidable (s.diagnostics ≠ #[]))
  | .error _ _ => .isTrue trivial

instance (place slot : Nat) : Decidable (Refers table settings params text place slot) :=
  inferInstanceAs (Decidable (Refused _))

/-- What the mentions of an accepted text tell of it. -/
structure Mentioned (table : Table) (settings : Settings) (params : List String) (text : String)
    (items : List Typed) (final : State) (ms : List Mention) : Prop where
  recital : Recital params.length (start settings params text.toList) ms final
  nothing : final.left = []
  refers : ∀ place slot, Refers table settings params text place slot ↔
    ∃ m ∈ ms, m.declares = false ∧ m.place = place ∧ m.slot = some slot
  renamed : ∀ v : Renamed settings params text,
    (∀ m ∈ ms, v.chosen m.place ↔ m.slot = some v.slot) →
    ∃ s, program (source table settings v.text') (start settings params v.text'.toList) =
        .ok (items.map (Typed.rename (newName v.slot v.word))) s ∧
      s.frameSize = final.frameSize ∧ s.diagnostics = #[]

theorem Accepted.told (kept : 0 < settings.maxErrors) {items : List Typed} {final : State}
    (accepted : Accepted table settings params text items final) :
    ∃ ms, Mentioned table settings params text items final ms := by
  obtain ⟨ms, recital, told⟩ := accepted.tells (versions table settings params text)
    (versions_variants kept) rfl _ _ (copies_start accepted.faultless)
  refine ⟨ms, recital, accepted.nothing, fun place slot => ?_, fun v chosen => ?_⟩
  · have told := told (.inl (place, slot)) fun m _ => by cases m.slot <;> rfl
    generalize ended : blindProgram _ _ _ = r at told
    have hits : Hit (versions table settings params text) (.inl (place, slot)) ms ↔
        ∃ m ∈ ms, m.declares = false ∧ m.place = place ∧ m.slot = some slot := by
      refine exists_congr fun m => and_congr_right fun _ => and_congr_right fun _ => ?_
      constructor
      · rintro ⟨slot', found, same⟩
        obtain ⟨rfl, rfl⟩ := Prod.mk.inj (Option.some.inj same)
        exact ⟨rfl, found⟩
      · rintro ⟨rfl, found⟩
        exact ⟨slot, found, rfl⟩
    rw [← hits]
    refine Iff.trans (b := Refused r) (ended ▸ Iff.rfl) ?_
    cases told with
    | hit hit refused => exact ⟨fun _ => hit, fun _ => refused⟩
    | spared spared copy => exact ⟨fun refused => absurd copy.clean refused, (absurd · spared)⟩
  · have accords : Accords (versions table settings params text)
        (Sum.elim (fun _ _ => none) words) (.inr v) ms := by
      intro m inside
      have agree := chosen m inside
      by_cases here : v.chosen m.place
      · exact (if_pos here).trans (by rw [agree.mp here]; exact (if_pos rfl).symm)
      · refine (if_neg here).trans ?_
        cases found : m.slot with
        | none => rfl
        | some slot =>
            have other : slot ≠ v.slot := fun same => here (agree.mpr (found.trans (by rw [same])))
            exact (if_neg other).symm
    have told := told (.inr v) accords
    generalize ended : blindProgram _ _ _ = r at told
    cases told with
    | hit hit => exact absurd rfl hit.unknown
    | @spared s spared copy =>
        refine ⟨s, ?_, copy.frameSize, copy.clean⟩
        rw [← blindProgram_none]
        exact ended

namespace Mentioned

variable {items : List Typed} {final : State} {ms : List Mention}
  (told : Mentioned table settings params text items final ms)

include told

theorem within : Within ms (lexemes settings text) := by
  obtain ⟨taken, left, within⟩ := told.recital.took
  have all : (start settings params text.toList).left = lexemes settings text := rfl
  rw [all, told.nothing, List.append_nil] at left
  exact left ▸ within

theorem lexeme_mem {m : Mention} (inside : m ∈ ms) : m.lexeme ∈ lexemes settings text :=
  told.within.listed.subset (List.mem_map_of_mem inside)

/-- The mentions stand at places of their own. -/
theorem eq_of_place {m m' : Mention} (inside : m ∈ ms) (inside' : m' ∈ ms)
    (same : m.place = m'.place) : m = m' := by
  have apart : (lexemes settings text).Pairwise fun l l' =>
      l.isWord = true → l'.isWord = true → l.position < l'.position :=
    Lexeme.words_read settings.implicitMultiplication text.toList
  have ordered : ms.Pairwise fun m m' => m.place < m'.place :=
    (List.pairwise_map.mp (apart.sublist told.within.listed)).imp fun less => less rfl rfl
  exact List.inj_on_of_nodup_map (f := Mention.place)
    (List.pairwise_map.mpr (ordered.imp Nat.ne_of_lt)) inside inside' same

/-- A local has its place of declaration, and the names that refer to it are the other mentions. -/
theorem chosen_iff {place slot : Nat} (listed : (place, slot) ∈ Mention.locals ms) {m : Mention}
    (inside : m ∈ ms) :
    (m.place = place ∨ Refers table settings params text m.place slot) ↔ m.slot = some slot := by
  obtain ⟨d, inside', declares, rfl, found⟩ := Mention.mem_locals.mp listed
  rw [told.refers]
  constructor
  · rintro (same | ⟨m', there, -, same, found'⟩)
    · exact told.eq_of_place inside inside' same ▸ found
    · exact told.eq_of_place there inside same ▸ found'
  · intro found'
    cases kind : m.declares with
    | false => exact .inr ⟨m, inside, kind, rfl, found'⟩
    | true =>
        -- The slots that are declared are distinct, so this is the declaration.
        have nodup : (Mention.locals ms).map Prod.snd |>.Nodup := by
          rw [Mention.map_snd_locals]
          exact told.recital.slots.nodup_iff.mpr List.nodup_range'
        have same := List.inj_on_of_nodup_map nodup listed
          (Mention.mem_locals.mpr ⟨m, inside, kind, rfl, found'⟩) rfl
        exact .inl (congrArg Prod.fst same).symm

theorem low {place slot : Nat} (listed : (place, slot) ∈ Mention.locals ms) :
    params.length ≤ slot := by
  have inside := List.mem_map_of_mem (f := Prod.snd) listed
  rw [Mention.map_snd_locals, told.recital.slots.mem_iff, List.mem_range'_1] at inside
  exact inside.1

/-- What a local is called may be declared. -/
theorem usable {place slot : Nat} (listed : (place, slot) ∈ Mention.locals ms) {there : Nat}
    {name : String}
    (chosen : there = place ∨ Refers table settings params text there slot)
    (inside : ⟨there, .ok (.word name)⟩ ∈ lexemes settings text) : isReserved name = false := by
  have mentioned : ∃ m ∈ ms, m.place = there := by
    rcases chosen with rfl | refers
    · obtain ⟨m, inside, -, same, -⟩ := Mention.mem_locals.mp listed
      exact ⟨m, inside, same⟩
    · obtain ⟨m, inside, -, same, -⟩ := (told.refers there slot).mp refers
      exact ⟨m, inside, same⟩
  obtain ⟨m, inside', rfl⟩ := mentioned
  have same := Compile.eq_of_place (told.lexeme_mem inside') inside rfl rfl rfl
  obtain rfl : m.name = name := by
    injection congrArg Lexeme.content same with same
    injection same
  exact told.recital.usable m inside' slot ((told.chosen_iff listed inside').mp chosen)
    (told.low listed)

end Mentioned

end Compile

end MathScript
