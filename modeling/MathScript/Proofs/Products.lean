import Mathlib.Data.List.Chain
import MathScript.Compile
import MathScript.Proofs.Extents
import MathScript.Proofs.Spelling

/-!
Products that are left out. What is read with products put in is what is read without them, with
a product sign between a number and what stands directly behind it: a name, a parenthesis, or an
operator written in letters, since the sign is put in before the word behind it is known. A text
without such neighbours is compiled alike, whether products may be left out or not.
-/

namespace MathScript

/-- A lexeme with the characters it stands for. -/
structure Stretch where
  lexeme : Lexeme
  text : List Char

namespace Stretch

/-- The byte position behind a stretch. -/
def ending (e : Stretch) : Nat := e.lexeme.position + utf8Length e.text

def isNumber (e : Stretch) : Bool :=
  match e.lexeme.content with
  | .ok t => t.isNumber
  | .error _ => false

/-- A name or an opening parenthesis. -/
def isFactor (e : Stretch) : Bool :=
  match e.lexeme.content with
  | .ok (.word _) | .ok (.sym .lparen) => true
  | _ => false

/-- An operator that is written as a name is. -/
def isWordOperator (e : Stretch) : Bool :=
  match e.lexeme.content with
  | .ok (.sym (.op _)) => Identifier.valid e.text
  | _ => false

theorem isFactor_of_isWordOperator {e : Stretch} (word : e.isWordOperator = true) :
    e.isFactor = false := by
  unfold isWordOperator at word
  split at word
  · next s content => simp [isFactor, content]
  · cases word

/-- A number that ends where the other starts. -/
def adjoins (e e' : Stretch) : Bool := e.isNumber && e'.lexeme.position == e.ending

def ofPieces (position : Nat) : List Piece → List Stretch
  | [] => []
  | p :: rest =>
      (Lexeme.ofContent position p.content).map (fun l => ⟨l, p.text⟩) ++
        ofPieces (position + utf8Length p.text) rest

/-- The stretches of a text that are tokens or faults. -/
def read (source : List Char) : List Stretch := ofPieces 0 (Piece.split source)

/-- The lexemes of stretches, with a product sign between neighbours that are to be multiplied. -/
def join (multiplied : Stretch → Stretch → Bool) : List Stretch → List Lexeme
  | [] => []
  | [e] => [e.lexeme]
  | e :: e' :: rest =>
      e.lexeme :: ((if multiplied e e' then [⟨e.ending, .ok (.sym (.op .times))⟩] else []) ++
        join multiplied (e' :: rest))

/-! ### Joining -/

section

variable {f g : Stretch → Stretch → Bool}

theorem join_cons {e : Stretch} {es : List Stretch}
    (single : ∀ e' ∈ es.head?, f e e' = false) : join f (e :: es) = e.lexeme :: join f es := by
  cases es with
  | nil => rfl
  | cons e' rest => simp [join, single e' rfl]

theorem length_join_le (weaker : ∀ e e', f e e' = true → g e e' = true) (es : List Stretch) :
    (join f es).length ≤ (join g es).length := by
  induction es with
  | nil => exact Nat.le_refl _
  | cons e es ih =>
      cases es with
      | nil => exact Nat.le_refl _
      | cons e' rest =>
          have signs : (if f e e' then 1 else 0) ≤ if g e e' then 1 else 0 := by
            split
            · rw [if_pos (weaker e e' ‹_›)]
            · exact Nat.zero_le _
          simp only [join, List.length_cons, List.length_append, apply_ite List.length,
            List.length_nil, Nat.zero_add]
          omega

/-- Joined by more signs, stretches are joined alike only if no sign is in fact put in. -/
theorem join_eq_iff (weaker : ∀ e e', f e e' = true → g e e' = true) (es : List Stretch) :
    join g es = join f es ↔ es.IsChain fun e e' => g e e' = f e e' := by
  induction es with
  | nil => simp [join]
  | cons e es ih =>
      cases es with
      | nil => simp [join]
      | cons e' rest =>
          rw [List.isChain_cons_cons, ← ih]
          by_cases same : g e e' = f e e'
          · simp [join, same]
          · -- One sign more cannot be made up for further on.
            have only : f e e' = false ∧ g e e' = true := by
              have signs := weaker e e'
              cases multiplied : f e e' <;> cases multiplied' : g e e' <;> simp_all
            have longer := length_join_le weaker (e' :: rest)
            refine ⟨fun joined => absurd (congrArg List.length joined) ?_, fun both =>
              absurd both.1 same⟩
            simp only [join, only, if_true, List.length_cons, List.length_append, List.length_nil,
              Bool.false_eq_true, if_false]
            omega

/-- Where no sign is put in, the lexemes are those of the stretches. -/
theorem join_eq_map {es : List Stretch} (apart : es.IsChain fun e e' => f e e' = false) :
    join f es = es.map lexeme := by
  induction es with
  | nil => rfl
  | cons e es ih =>
      cases es with
      | nil => rfl
      | cons e' rest =>
          rw [List.isChain_cons_cons] at apart
          rw [join_cons (by simpa using apart.1), ih apart.2, List.map_cons, List.map_cons,
            List.map_cons]

end

/-! ### What a piece starts with -/

/-- Whether a number directly in front of a piece is multiplied by it. -/
def isMultiplied (e : Stretch) : Bool := e.isFactor || e.isWordOperator

theorem take_takeWhile (p : Char → Bool) (cs : List Char) :
    cs.take (cs.takeWhile p).length = cs.takeWhile p :=
  (List.prefix_iff_eq_take.mp (List.takeWhile_prefix p)).symm

theorem isMultiplied_word {position : Nat} {c : Char} {cs : List Char} {l : Lexeme}
    (starts : Identifier.starts c = true)
    (inside : l ∈ Lexeme.ofContent position
      (Piece.wordContent (String.ofList (c :: cs.takeWhile Identifier.continues)))) :
    isMultiplied ⟨l, c :: cs.takeWhile Identifier.continues⟩ = true := by
  have valid : Identifier.valid (c :: cs.takeWhile Identifier.continues) = true := by
    rw [Identifier.valid, starts, Bool.true_and]
    exact List.all_takeWhile
  unfold Piece.wordContent at inside
  split at inside <;> rw [Lexeme.ofContent, List.mem_singleton] at inside <;> subst inside
  case h_10 => rfl
  all_goals exact valid

theorem isMultiplied_sym {position : Nat} {c : Char} {text : List Char} {s : Sym}
    (other : Identifier.starts c = false) :
    isMultiplied ⟨⟨position, .ok (.sym s)⟩, c :: text⟩ = true ↔ s = .lparen := by
  cases s <;> simp [isMultiplied, isFactor, isWordOperator, Identifier.valid, other]

theorem symbol?_lparen {c : Char} {cs : List Char} {s : Sym} {n : Nat}
    (found : Piece.symbol? c cs = some (s, n)) : s = .lparen ↔ c = '(' := by
  unfold Piece.symbol? at found
  split at found <;> simp_all <;> obtain ⟨rfl, -⟩ := found <;> simp

theorem scan_word {c : Char} (cs : List Char) (starts : Identifier.starts c = true) :
    Piece.scan c cs = ((cs.takeWhile Identifier.continues).length,
      Piece.wordContent (String.ofList (c :: cs.takeWhile Identifier.continues))) := by
  have others : isBlank c = false ∧ c ≠ '#' ∧ c ≠ '/' ∧ c ≠ '.' ∧ c.isDigit = false :=
    ⟨isBlank_starts starts, starts_ne starts rfl, starts_ne starts rfl, starts_ne starts rfl,
      isDigit_starts starts⟩
  simp [Piece.scan, others, starts]

/-- What starts with neither a letter nor a parenthesis is no word, and no parenthesis. -/
theorem scan_other {c : Char} (cs : List Char) (starts : Identifier.starts c = false)
    (other : c ≠ '(') {t : Token} (scanned : (Piece.scan c cs).2 = .token t) :
    (∃ s, t = .sym s ∧ s ≠ .lparen) ∨ (∃ x, t = .number x) ∨ ∃ value, t = .text value := by
  simp only [Piece.scan, starts, Bool.false_eq_true, if_false] at scanned
  split at scanned
  · cases scanned
  · split at scanned
    · cases scanned
    · split at scanned
      · split at scanned <;> cases scanned
      · split at scanned
        · unfold Piece.numberContent at scanned
          split at scanned
          · next x _ =>
              cases scanned
              exact .inr (.inl ⟨x, rfl⟩)
          · cases scanned
        · split at scanned
          · split at scanned
            · next value n _ =>
                cases scanned
                exact .inr (.inr ⟨_, rfl⟩)
            · cases scanned
          · split at scanned
            · next s n found =>
                cases scanned
                exact .inl ⟨s, rfl, fun same => other ((symbol?_lparen found).mp same)⟩
            · cases scanned

/-- A number in front of a piece is multiplied by it as the first character of the piece tells. -/
theorem isMultiplied_scan (position : Nat) (c : Char) (cs : List Char) :
    ((Piece.scan c cs).2 = .skip → (Identifier.starts c || c == '(') = false) ∧
      ∀ l ∈ Lexeme.ofContent position (Piece.scan c cs).2,
        isMultiplied ⟨l, c :: cs.take (Piece.scan c cs).1⟩ =
          (Identifier.starts c || c == '(') := by
  by_cases starts : Identifier.starts c = true
  · rw [scan_word cs starts, starts, Bool.true_or]
    refine ⟨fun skipped => ?_, fun l inside => ?_⟩
    · unfold Piece.wordContent at skipped
      split at skipped <;> cases skipped
    · rw [take_takeWhile]
      exact isMultiplied_word starts inside
  · rw [Bool.not_eq_true] at starts
    rw [starts, Bool.false_or]
    by_cases parenthesis : c = '('
    · subst parenthesis
      have scanned : Piece.scan '(' cs = (0, .token (.sym .lparen)) := rfl
      simp [scanned, Lexeme.ofContent, isMultiplied, isFactor]
    · refine ⟨fun _ => by simpa using parenthesis, fun l inside => ?_⟩
      rw [beq_eq_false_iff_ne.mpr parenthesis]
      cases scanned : (Piece.scan c cs).2 with
      | skip => simp [scanned, Lexeme.ofContent] at inside
      | fault cause =>
          simp only [scanned, Lexeme.ofContent, List.mem_singleton] at inside
          subst inside
          rfl
      | token t =>
          simp only [scanned, Lexeme.ofContent, List.mem_singleton] at inside
          subst inside
          obtain ⟨s, rfl, plain⟩ | ⟨x, rfl⟩ | ⟨value, rfl⟩ :=
            scan_other cs starts parenthesis scanned
          · exact Bool.eq_false_iff.mpr fun multiplied =>
              plain ((isMultiplied_sym starts).mp multiplied)
          · rfl
          · rfl

/-! ### Texts -/

theorem map_ofPieces (position : Nat) (pieces : List Piece) :
    (ofPieces position pieces).map lexeme = Lexeme.ofPieces false position pieces := by
  induction pieces generalizing position with
  | nil => rfl
  | cons p rest ih => simp [ofPieces, Lexeme.ofPieces, ih, Function.comp_def]

theorem position_le {position : Nat} {pieces : List Piece} {e : Stretch}
    (inside : e ∈ ofPieces position pieces) : position ≤ e.lexeme.position := by
  have lexed : e.lexeme ∈ Lexeme.ofPieces false position pieces :=
    map_ofPieces position pieces ▸ List.mem_map_of_mem inside
  exact (Lexeme.position_ofPieces lexed).1

/-- A factor starts where the stretch does that comes next, if that one is multiplied. -/
theorem startsFactor_split (position : Nat) (cs : List Char) :
    Piece.startsFactor (Piece.split cs) =
      ((ofPieces position (Piece.split cs)).head?.map fun e =>
        e.lexeme.position == position && e.isMultiplied).getD false := by
  cases cs with
  | nil => simp [Piece.split, Piece.startsFactor, ofPieces]
  | cons c cs =>
      obtain ⟨skipped, multiplied⟩ := isMultiplied_scan position c cs
      rw [Piece.split_cons, ofPieces]
      simp only [Piece.startsFactor, Piece.startsWith, List.head?_cons, Option.map_some,
        Option.getD_some]
      cases scanned : (Piece.scan c cs).2 with
      | skip =>
          -- What comes behind a blank or a comment does not start here.
          rw [skipped scanned]
          simp only [Lexeme.ofContent, List.map_nil, List.nil_append]
          cases first : (ofPieces (position + utf8Length (c :: cs.take (Piece.scan c cs).1))
              (Piece.split (cs.drop (Piece.scan c cs).1))).head? with
          | none => rfl
          | some e =>
              have behind := position_le (List.mem_of_head? first)
              have some := utf8Length_pos c (cs.take (Piece.scan c cs).1)
              have apart : e.lexeme.position ≠ position := by omega
              simp [apart]
      | token t =>
          rw [scanned] at multiplied
          simpa [Lexeme.ofContent] using (multiplied _ (List.mem_singleton_self _)).symm
      | fault cause =>
          rw [scanned] at multiplied
          simpa [Lexeme.ofContent] using (multiplied _ (List.mem_singleton_self _)).symm

/-- Between which neighbours a product sign is put in. -/
def isProduct (e e' : Stretch) : Bool := e.adjoins e' && e'.isMultiplied

theorem isProduct_head {e : Stretch} (cs : List Char) :
    ((ofPieces e.ending (Piece.split cs)).head?.map (isProduct e)).getD false =
      (e.isNumber && Piece.startsFactor (Piece.split cs)) := by
  rw [startsFactor_split e.ending cs]
  cases (ofPieces e.ending (Piece.split cs)).head? with
  | none => simp
  | some e' => simp [isProduct, adjoins, Bool.and_assoc]

theorem join_token {position : Nat} {p : Piece} {t : Token} (token : p.content = .token t)
    (cs : List Char) :
    join isProduct (ofPieces position (p :: Piece.split cs)) =
      ⟨position, .ok t⟩ :: (Lexeme.product (position + utf8Length p.text) p (Piece.split cs) ++
        join isProduct (ofPieces (position + utf8Length p.text) (Piece.split cs))) := by
  have head := isProduct_head (e := ⟨⟨position, .ok t⟩, p.text⟩) cs
  have number : p.isNumber = t.isNumber := by rw [Piece.isNumber, token]
  rw [ofPieces, token, Lexeme.product, number]
  simp only [Lexeme.ofContent, List.map_cons, List.map_nil, List.singleton_append]
  cases later : ofPieces (position + utf8Length p.text) (Piece.split cs) with
  | nil =>
      simp only [ending, later, List.head?_nil, Option.map_none, Option.getD_none] at head
      have none : (t.isNumber && Piece.startsFactor (Piece.split cs)) = false := head.symm
      simp [join, none]
  | cons e' rest =>
      simp only [ending, later, List.head?_cons, Option.map_some, Option.getD_some] at head
      rw [join, head]
      rfl

theorem join_ofPieces (position : Nat) (cs : List Char) :
    join isProduct (ofPieces position (Piece.split cs)) =
      Lexeme.ofPieces true position (Piece.split cs) := by
  induction cs using Piece.split.induct generalizing position with
  | case1 => simp [Piece.split, ofPieces, join, Lexeme.ofPieces]
  | case2 c cs n content scanned ih =>
      rw [Piece.split_cons, scanned, Lexeme.ofPieces, ← ih]
      dsimp only
      cases content with
      | token t =>
          rw [join_token rfl]
          simp [Lexeme.ofContent]
      | skip =>
          simp [ofPieces, Lexeme.ofContent, Lexeme.product, Piece.isNumber]
      | fault cause =>
          have unmultiplied : ∀ e', isProduct
              ⟨⟨position, .error cause⟩, c :: cs.take n⟩ e' = false := fun e' => rfl
          simp only [ofPieces, Lexeme.ofContent, List.map_cons, List.map_nil,
            List.singleton_append, join_cons fun e' _ => unmultiplied e']
          simp [Lexeme.product, Piece.isNumber]

end Stretch

open Stretch in
/-- Where a product sign is put in. What is read with products is what is read without them, with a
sign in between exactly where a number ends at the byte where a name, a parenthesis or an operator
written in letters starts. So a sign is put in between a number and a name or parenthesis alone just
if no operator in letters stands directly behind a number; and a text in which no number is
multiplied is compiled alike, whether products may be left out or not. -/
theorem products_put_in (text : String) :
    Lexeme.read false text.toList = (Stretch.read text.toList).map lexeme ∧
    Lexeme.read true text.toList =
      join (fun e e' => e.adjoins e' && (e'.isFactor || e'.isWordOperator))
        (Stretch.read text.toList) ∧
    (Lexeme.read true text.toList =
        join (fun e e' => e.adjoins e' && e'.isFactor) (Stretch.read text.toList) ↔
      (Stretch.read text.toList).IsChain fun e e' =>
        ¬ (e.adjoins e' = true ∧ e'.isWordOperator = true)) ∧
    ((Stretch.read text.toList).IsChain (fun e e' =>
        (e.adjoins e' && (e'.isFactor || e'.isWordOperator)) = false) →
      ∀ (table : Table) (settings : Settings) (params : List String),
        compile table { settings with implicitMultiplication := true } params text =
          compile table { settings with implicitMultiplication := false } params text) := by
  have plain : Lexeme.read false text.toList = (Stretch.read text.toList).map lexeme :=
    (map_ofPieces 0 _).symm
  have joined : Lexeme.read true text.toList = join isProduct (Stretch.read text.toList) :=
    (join_ofPieces 0 text.toList).symm
  refine ⟨plain, joined, ?_, fun apart table settings params => ?_⟩
  · rw [joined, join_eq_iff fun e e' factor => by simp_all [isProduct, isMultiplied]]
    have exact : ∀ e e', isProduct e e' = (e.adjoins e' && e'.isFactor) ↔
        ¬ (e.adjoins e' = true ∧ e'.isWordOperator = true) := by
      intro e e'
      have apart := isFactor_of_isWordOperator (e := e')
      rw [isProduct, isMultiplied]
      cases e.adjoins e' <;> cases word : e'.isWordOperator <;> simp_all
    exact ⟨fun chain => chain.imp fun e e' => (exact e e').mp, fun chain =>
      chain.imp fun e e' => (exact e e').mpr⟩
  · have same : Lexeme.read true text.toList = Lexeme.read false text.toList := by
      rw [joined, plain]
      exact join_eq_map apart
    have starts :
        Compile.start { settings with implicitMultiplication := true } params text.toList =
          Compile.start { settings with implicitMultiplication := false } params text.toList := by
      simp only [Compile.start, same]
    simp only [compile, parse, starts, Settings.limits]

/-- No number here stands directly in front of a name, a parenthesis or an operator in letters. -/
theorem products_put_in_of_blanks :
    (Stretch.read "2 x + .5e1/(3) and 2 or 4".toList).IsChain (fun e e' =>
      (e.adjoins e' && (e'.isFactor || e'.isWordOperator)) = false) ∧
    ∀ (table : Table) (settings : Settings) (params : List String),
      compile table { settings with implicitMultiplication := true } params
          "2 x + .5e1/(3) and 2 or 4" =
        compile table { settings with implicitMultiplication := false } params
          "2 x + .5e1/(3) and 2 or 4" := by
  have apart : (Stretch.read "2 x + .5e1/(3) and 2 or 4".toList).IsChain (fun e e' =>
      (e.adjoins e' && (e'.isFactor || e'.isWordOperator)) = false) := by decide +kernel
  exact ⟨apart, (products_put_in "2 x + .5e1/(3) and 2 or 4").2.2.2 apart⟩

/-- Behind `2` two lexemes start at one byte: the sign put in, and the operator `and`. -/
example : (Lexeme.read true "2and 3".toList).map Lexeme.position = [0, 1, 1, 5] ∧
    (Lexeme.read false "2and 3".toList).map Lexeme.position = [0, 1, 5] := by
  decide +kernel

end MathScript
