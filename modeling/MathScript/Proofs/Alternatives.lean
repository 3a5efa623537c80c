import Mathlib.Computability.RegularExpressions
import Mathlib.Data.List.DropRight
import MathScript.Signature

/-!
Signatures and their notation. An alternative is a regular expression over kinds: a tag stands for a
kind or for any, `Z` for no parameter, and `*` for any number of what stands before it. Reading and
spelling are inverse to each other, and what an alternative accepts is the language of its text.
-/

namespace MathScript

namespace ParamKind

def tag : ParamKind → Char
  | .exact .scalar => 'T'
  | .exact .vector => 'V'
  | .exact .string => 'S'
  | .any => '?'

theorem ofTag?_eq_some_iff {c : Char} {p : ParamKind} : ofTag? c = some p ↔ c = p.tag := by
  constructor
  · intro read
    unfold ofTag? at read
    split at read <;> cases read <;> rfl
  · rintro rfl
    obtain ⟨kind⟩ | _ := p
    · cases kind <;> rfl
    · rfl

theorem tag_mem (p : ParamKind) : p.tag ∈ ['T', 'V', 'S', '?'] := by
  obtain ⟨kind⟩ | _ := p
  · cases kind <;> decide
  · decide

theorem exists_tag {c : Char} (member : c ∈ ['T', 'V', 'S', '?']) : ∃ p : ParamKind, p.tag = c := by
  simp only [List.mem_cons, List.not_mem_nil, or_false] at member
  rcases member with rfl | rfl | rfl | rfl
  · exact ⟨.exact .scalar, rfl⟩
  · exact ⟨.exact .vector, rfl⟩
  · exact ⟨.exact .string, rfl⟩
  · exact ⟨.any, rfl⟩

theorem tag_ne {c : Char} (other : c ∉ ['T', 'V', 'S', '?']) (p : ParamKind) : p.tag ≠ c :=
  fun same => other (same ▸ p.tag_mem)

end ParamKind

open ParamKind

/-! ### The notation -/

namespace Signature

/-- An alternative as it is written: `Z`, or tags of which the last may be followed by `*`. -/
def IsAlternative (text : List Char) : Prop :=
  text = ['Z'] ∨ ∃ tags, tags ≠ [] ∧ (∀ c ∈ tags, c ∈ ['T', 'V', 'S', '?']) ∧
    (text = tags ∨ text = tags ++ ['*'])

/-- What is written as one character. -/
def letter : Char → RegularExpression Kind
  | 'Z' => 1
  | 'T' => .char .scalar
  | 'V' => .char .vector
  | 'S' => .char .string
  | '?' => .char .scalar + .char .vector + .char .string
  | _ => 0

/-- A text as a regular expression, in which `*` goes with the character before it. -/
def expression : List Char → RegularExpression Kind
  | [] => 1
  | c :: '*' :: cs => (letter c).star * expression cs
  | c :: cs => letter c * expression cs

/-- The texts between the marks `|`, without the blanks at their ends. -/
def alternatives (text : String) : List (List Char) :=
  (text.toList.splitOn '|').map fun part => (part.dropWhile isBlank).rdropWhile isBlank

end Signature

namespace Overload

def tags (o : Overload) : List Char :=
  o.params.map tag ++ o.repeats.elim [] fun p => [p.tag, '*']

/-- The text of an alternative. -/
def spelled (o : Overload) : List Char := if o = ⟨[], none⟩ then ['Z'] else o.tags

/-! ### Reading what is spelled -/

theorem tags_cons (p : ParamKind) (params : List ParamKind) (repeats : Option ParamKind) :
    tags ⟨p :: params, repeats⟩ = p.tag :: tags ⟨params, repeats⟩ := rfl

theorem tags_ne_cons {c : Char} (other : c ∉ ['T', 'V', 'S', '?']) (o : Overload)
    (cs : List Char) : o.tags ≠ c :: cs := by
  intro same
  obtain ⟨_ | ⟨p, params⟩, _ | p'⟩ := o
  · cases same
  · exact p'.tag_ne other (List.cons.inj same).1
  · exact p.tag_ne other (List.cons.inj same).1
  · exact p.tag_ne other (List.cons.inj same).1

theorem tags_eq_nil_iff {o : Overload} : o.tags = [] ↔ o = ⟨[], none⟩ := by
  obtain ⟨_ | ⟨p, params⟩, _ | p'⟩ := o <;> simp [tags]

theorem ofTags?_tags (o : Overload) : ofTags? o.tags = some o := by
  obtain ⟨params, repeats⟩ := o
  induction params with
  | nil =>
      cases repeats with
      | none => rfl
      | some p => simp [tags, ofTags?, ofTag?_eq_some_iff.mpr rfl]
  | cons p params ih =>
      rw [tags_cons, ofTags?, ofTag?_eq_some_iff.mpr rfl, ih]
      exact tags_ne_cons (by decide) _ []

theorem eq_tags_of_ofTags {cs : List Char} {o : Overload} (read : ofTags? cs = some o) :
    cs = o.tags := by
  -- A tag before `*` is the only case in which two characters are read at once.
  fun_induction ofTags? cs generalizing o with
  | case1 =>
      cases read
      rfl
  | case2 c =>
      obtain ⟨p, known, rfl⟩ := Option.map_eq_some_iff.mp read
      rw [ofTag?_eq_some_iff.mp known]
      rfl
  | case3 c cs _ p rest behind known ih =>
      cases read
      rw [tags_cons, ofTag?_eq_some_iff.mp known, ih behind]
  | case4 => cases read

theorem parse?_eq_some_iff {text : List Char} {o : Overload} :
    parse? text = some o ↔ trimBlank text = o.spelled := by
  unfold parse? spelled
  generalize trimBlank text = cs
  -- `Z` and the empty text are read apart; neither is what tags spell.
  split
  · split
    · next same => simp [same]
    · next other =>
      refine ⟨fun read => ?_, fun spelled => ?_⟩
      · cases read
        exact absurd rfl other
      · exact absurd spelled.symm (tags_ne_cons (by decide) o [])
  · split
    · simp
    · next other =>
      refine ⟨fun read => ?_, fun same => absurd same.symm (tags_eq_nil_iff.not.mpr other)⟩
      cases read
  · next notZ notEmpty =>
    split
    · next same =>
      subst same
      exact ⟨fun read => absurd (eq_tags_of_ofTags read) notEmpty, fun same => absurd same notZ⟩
    · exact ⟨eq_tags_of_ofTags, fun same => same ▸ ofTags?_tags o⟩

theorem spelled_of_params {params : List ParamKind} (nonempty : params ≠ []) :
    spelled ⟨params, none⟩ = params.map tag := by
  simp [spelled, nonempty, tags]

theorem spelled_of_repeats (params : List ParamKind) (p : ParamKind) :
    spelled ⟨params, some p⟩ = (params ++ [p]).map tag ++ ['*'] := by
  simp [spelled, tags]

/-- The texts of alternatives are those that are written as alternatives. -/
theorem isAlternative_iff {text : List Char} :
    Signature.IsAlternative text ↔ ∃ o : Overload, o.spelled = text := by
  constructor
  · rintro (rfl | ⟨tags, nonempty, all, ending⟩)
    · exact ⟨⟨[], none⟩, rfl⟩
    · have tagged : tags ∈ Set.range (List.map tag) := by
        rw [Set.range_list_map]
        exact fun c member => exists_tag (all c member)
      obtain ⟨params, rfl⟩ := tagged
      have nonempty : params ≠ [] := fun none => nonempty (by rw [none, List.map_nil])
      rcases ending with rfl | rfl
      · exact ⟨⟨params, none⟩, spelled_of_params nonempty⟩
      · refine ⟨⟨params.dropLast, some (params.getLast nonempty)⟩, ?_⟩
        rw [spelled_of_repeats, List.dropLast_append_getLast]
  · rintro ⟨⟨params, repeats⟩, rfl⟩
    have tagged : ∀ params : List ParamKind, ∀ c ∈ params.map tag, c ∈ ['T', 'V', 'S', '?'] := by
      intro params c member
      obtain ⟨p, -, rfl⟩ := List.mem_map.mp member
      exact p.tag_mem
    cases repeats with
    | some p =>
        rw [spelled_of_repeats]
        exact .inr ⟨_, by simp, tagged _, .inr rfl⟩
    | none =>
        by_cases none : params = []
        · subst none
          exact .inl rfl
        · rw [spelled_of_params none]
          exact .inr ⟨_, by simpa using none, tagged _, .inl rfl⟩

/-! ### What an alternative accepts -/

theorem mem_letter_tag {p : ParamKind} {kinds : List Kind} :
    kinds ∈ (Signature.letter p.tag).matches' ↔ ∃ kind, p.accepts kind = true ∧ kinds = [kind] := by
  obtain ⟨expected⟩ | _ := p
  · have single : kinds ∈ (Signature.letter (tag (.exact expected))).matches' ↔
        kinds = [expected] := by
      cases expected <;> exact Iff.rfl
    simp [single, ParamKind.accepts]
  · constructor
    · rintro ((rfl | rfl) | rfl) <;> exact ⟨_, rfl, rfl⟩
    · rintro ⟨kind, -, rfl⟩
      cases kind
      · exact .inl (.inl rfl)
      · exact .inl (.inr rfl)
      · exact .inr rfl

theorem mem_star_letter_tag {p : ParamKind} {kinds : List Kind} :
    kinds ∈ (Signature.letter p.tag).star.matches' ↔ kinds.all p.accepts = true := by
  rw [RegularExpression.matches'_star, Language.mem_kstar]
  constructor
  · rintro ⟨parts, rfl, each⟩
    rw [List.all_flatten, List.all_eq_true]
    intro part member
    obtain ⟨kind, accepted, rfl⟩ := mem_letter_tag.mp (each part member)
    simpa using accepted
  · intro all
    refine ⟨kinds.map fun kind => [kind], ?_, fun part member => ?_⟩
    · rw [← List.flatMap_def, List.flatMap_singleton']
    · obtain ⟨kind, inside, rfl⟩ := List.mem_map.mp member
      exact mem_letter_tag.mpr ⟨kind, List.all_eq_true.mp all kind inside, rfl⟩

theorem mem_expression_cons {p : ParamKind} {params : List ParamKind}
    {repeats : Option ParamKind} {kinds : List Kind} :
    kinds ∈ (Signature.expression (tags ⟨p :: params, repeats⟩)).matches' ↔
      ∃ kind rest, kinds = kind :: rest ∧ p.accepts kind = true ∧
        rest ∈ (Signature.expression (tags ⟨params, repeats⟩)).matches' := by
  have leading : Signature.expression (tags ⟨p :: params, repeats⟩) =
      Signature.letter p.tag * Signature.expression (tags ⟨params, repeats⟩) := by
    rw [tags_cons, Signature.expression]
    exact tags_ne_cons (by decide) _
  rw [leading, RegularExpression.matches'_mul, Language.mem_mul]
  constructor
  · rintro ⟨first, member, rest, behind, rfl⟩
    obtain ⟨kind, accepted, rfl⟩ := mem_letter_tag.mp member
    exact ⟨kind, rest, rfl, accepted, behind⟩
  · rintro ⟨kind, rest, rfl, accepted, behind⟩
    exact ⟨[kind], mem_letter_tag.mpr ⟨kind, accepted, rfl⟩, rest, behind, rfl⟩

theorem accepts_iff_tags {params : List ParamKind} {repeats : Option ParamKind}
    {kinds : List Kind} : accepts params repeats kinds = true ↔
      kinds ∈ (Signature.expression (tags ⟨params, repeats⟩)).matches' := by
  induction params generalizing kinds with
  | nil =>
      cases repeats with
      | none =>
          rw [accepts, acceptsTail, List.isEmpty_iff]
          exact Iff.rfl
      | some p =>
          have once : Signature.expression (tags ⟨[], some p⟩) =
              (Signature.letter p.tag).star * 1 := rfl
          rw [once, RegularExpression.matches'_mul, RegularExpression.matches'_epsilon, mul_one,
            mem_star_letter_tag, accepts, acceptsTail]
  | cons p params ih =>
      rw [mem_expression_cons]
      cases kinds with
      | nil => simp [accepts]
      | cons kind kinds => simp [accepts, ih]

/-- What an alternative accepts is the language of its text. -/
theorem accepts_iff_matches {o : Overload} {kinds : List Kind} :
    accepts o.params o.repeats kinds = true ↔
      kinds ∈ (Signature.expression o.spelled).matches' := by
  rw [accepts_iff_tags, spelled]
  split
  · next empty =>
    subst empty
    have none : Signature.expression ['Z'] = 1 * 1 := rfl
    rw [none, RegularExpression.matches'_mul, RegularExpression.matches'_epsilon, mul_one]
    exact Iff.rfl
  · rfl

/-! ### Signatures -/

theorem mapM_parse?_eq_some_iff {texts : List (List Char)} {overloads : List Overload} :
    texts.mapM parse? = some overloads ↔ texts.map trimBlank = overloads.map spelled := by
  induction texts generalizing overloads with
  | nil => cases overloads <;> simp
  | cons text texts ih =>
      cases overloads with
      | nil => simp [Option.bind_eq_some_iff]
      | cons o overloads => simp [Option.bind_eq_some_iff, parse?_eq_some_iff, ih]

theorem spelled_letters {o : Overload} {c : Char} (member : c ∈ o.spelled) :
    c ∈ ['Z', 'T', 'V', 'S', '?', '*'] := by
  rcases isAlternative_iff.mpr ⟨o, rfl⟩ with spelled | ⟨tags, -, all, spelled | spelled⟩
  · rw [spelled] at member
    exact List.mem_append_left _ member
  · rw [spelled] at member
    exact List.mem_cons_of_mem _ (List.mem_append_left ['*'] (all c member))
  · rw [spelled, List.mem_append] at member
    rcases member with member | member
    · exact List.mem_cons_of_mem _ (List.mem_append_left ['*'] (all c member))
    · exact List.mem_append_right ['Z', 'T', 'V', 'S', '?'] member

theorem trimBlank_spelled (o : Overload) : trimBlank o.spelled = o.spelled := by
  have unblank : ∀ c ∈ o.spelled, ¬ isBlank c := by
    intro c member
    have known := spelled_letters member
    simp only [List.mem_cons, List.not_mem_nil, or_false] at known
    rcases known with rfl | rfl | rfl | rfl | rfl | rfl <;> decide
  have kept : ∀ cs : List Char, (∀ c ∈ cs, ¬ isBlank c) → cs.dropWhile isBlank = cs :=
    fun cs none => List.dropWhile_eq_self_iff.mpr fun long => none _ (List.getElem_mem long)
  rw [trimBlank, kept _ unblank, kept _ fun c member => unblank c (List.mem_reverse.mp member),
    List.reverse_reverse]

end Overload

namespace Signature

theorem parts_eq_splitOn (mark : Char) (cs : List Char) : parts mark cs = cs.splitOn mark := by
  induction cs with
  | nil => rw [parts, List.splitOn_nil]
  | cons c cs ih =>
      rw [parts, List.splitOn_cons_eq_if_modifyHead, ih]
      simp only [beq_iff_eq]
      split
      · rfl
      · split
        · next none => exact absurd none (List.splitOn_ne_nil _ _)
        · next split => rw [split, List.modifyHead_cons]

theorem parse?_eq_some_iff {text : String} {s : Signature} :
    parse? text = some s ↔ alternatives text = s.overloads.map Overload.spelled := by
  obtain ⟨overloads⟩ := s
  simp only [parse?, Option.map_eq_some_iff, mk.injEq, exists_eq_right,
    Overload.mapM_parse?_eq_some_iff, parts_eq_splitOn]
  exact Iff.rfl

/-- A signature in its notation. -/
def spelling (s : Signature) : String :=
  String.ofList (['|'].intercalate (s.overloads.map Overload.spelled))

theorem alternatives_spelling {s : Signature} (nonempty : s.overloads ≠ []) :
    alternatives s.spelling = s.overloads.map Overload.spelled := by
  have unmarked : ∀ text ∈ s.overloads.map Overload.spelled, '|' ∉ text := by
    intro text member inside
    obtain ⟨o, -, rfl⟩ := List.mem_map.mp member
    exact absurd (Overload.spelled_letters inside) (by decide)
  have named : s.overloads.map Overload.spelled ≠ [] := by simpa using nonempty
  rw [alternatives, spelling, String.toList_ofList, List.splitOn_intercalate _ unmarked named,
    List.map_map]
  exact List.map_congr_left fun o _ => o.trimBlank_spelled

/-- What stands at an index of the texts is what the overload there is spelled as. -/
theorem exists_getElem?_spelled_iff {s : Signature} {i : Nat} {kinds : List Kind} :
    (∃ a, (s.overloads.map Overload.spelled)[i]? = some a ∧ kinds ∈ (expression a).matches') ↔
      ∃ inside : i < s.overloads.length,
        Overload.accepts s.overloads[i].params s.overloads[i].repeats kinds = true := by
  simp only [List.getElem?_map, Option.map_eq_some_iff, List.getElem?_eq_some_iff]
  constructor
  · rintro ⟨_, ⟨o, ⟨inside, rfl⟩, rfl⟩, member⟩
    exact ⟨inside, Overload.accepts_iff_matches.mpr member⟩
  · rintro ⟨inside, accepted⟩
    exact ⟨_, ⟨_, ⟨inside, rfl⟩, rfl⟩, Overload.accepts_iff_matches.mp accepted⟩

theorem resolve_eq_some_iff {s : Signature} {kinds : List Kind} {i : Nat} :
    s.resolve kinds = some i ↔ IsLeast {i | ∃ a, (s.overloads.map Overload.spelled)[i]? = some a ∧
      kinds ∈ (expression a).matches'} i := by
  simp only [resolve, List.findIdx?_eq_some_iff_getElem, IsLeast, mem_lowerBounds,
    Set.mem_ofPred_eq, exists_getElem?_spelled_iff]
  constructor
  · rintro ⟨inside, accepted, earlier⟩
    refine ⟨⟨inside, accepted⟩, fun j ⟨_, found⟩ => ?_⟩
    by_contra before
    exact earlier j (by omega) found
  · rintro ⟨⟨inside, accepted⟩, least⟩
    refine ⟨inside, accepted, fun j before found => ?_⟩
    have := least j ⟨by omega, found⟩
    omega

theorem resolve_eq_none_iff {s : Signature} {kinds : List Kind} :
    s.resolve kinds = none ↔
      ∀ a ∈ s.overloads.map Overload.spelled, kinds ∉ (expression a).matches' := by
  simp only [resolve, List.findIdx?_eq_none_iff, List.forall_mem_map,
    ← Overload.accepts_iff_matches, Bool.not_eq_true]

theorem parse?_eq_none_iff {text : String} :
    parse? text = none ↔ ∃ a ∈ alternatives text, ¬ IsAlternative a := by
  constructor
  · intro failed
    by_contra! all
    have spelled : alternatives text ∈ Set.range (List.map Overload.spelled) := by
      rw [Set.range_list_map]
      exact fun a member => Overload.isAlternative_iff.mp (all a member)
    obtain ⟨overloads, same⟩ := spelled
    have read : parse? text = some ⟨overloads⟩ := parse?_eq_some_iff.mpr same.symm
    rw [failed] at read
    cases read
  · rintro ⟨a, member, malformed⟩
    by_contra read
    obtain ⟨s, read⟩ := Option.ne_none_iff_exists'.mp read
    rw [parse?_eq_some_iff.mp read] at member
    obtain ⟨o, -, rfl⟩ := List.mem_map.mp member
    exact malformed (Overload.isAlternative_iff.mpr ⟨o, rfl⟩)

/-- Nothing is read from no alternative, as a text has at least one. -/
theorem overloads_ne_nil {text : String} {s : Signature} (read : parse? text = some s) :
    s.overloads ≠ [] := by
  intro none
  have spelled := parse?_eq_some_iff.mp read
  rw [none, List.map_nil, alternatives, List.map_eq_nil_iff] at spelled
  exact List.splitOn_ne_nil _ _ spelled

end Signature

/-- Signatures mean what their notation says. -/
theorem signatures_mean_their_notation (text : String) :
    match Signature.parse? text with
    | none => ∃ a ∈ Signature.alternatives text, ¬ Signature.IsAlternative a
    | some s =>
        (∀ a ∈ Signature.alternatives text, Signature.IsAlternative a) ∧
        (∀ kinds, match s.resolve kinds with
          | none => ∀ a ∈ Signature.alternatives text,
              kinds ∉ (Signature.expression a).matches'
          | some i => IsLeast {i | ∃ a, (Signature.alternatives text)[i]? = some a ∧
              kinds ∈ (Signature.expression a).matches'} i) ∧
        Signature.parse? s.spelling = some s := by
  split
  · next failed => exact Signature.parse?_eq_none_iff.mp failed
  · next s read =>
    have texts := Signature.parse?_eq_some_iff.mp read
    refine ⟨fun a member => ?_, fun kinds => ?_, ?_⟩
    · rw [texts] at member
      obtain ⟨o, -, rfl⟩ := List.mem_map.mp member
      exact Overload.isAlternative_iff.mpr ⟨o, rfl⟩
    · rw [texts]
      split
      · next missing => exact Signature.resolve_eq_none_iff.mp missing
      · next found => exact Signature.resolve_eq_some_iff.mp found
    · have nonempty := Signature.overloads_ne_nil read
      exact Signature.parse?_eq_some_iff.mpr (Signature.alternatives_spelling nonempty)

end MathScript
