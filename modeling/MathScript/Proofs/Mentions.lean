import MathScript.Proofs.Abreast

/-!
Names that a text mentions, and what becomes of them where locals are named otherwise. A parse that
puts no diagnostic down mentions the names of its text one by one: at each of them it declares a
local, finds one, or finds none. Whoever knows the mentions knows what the same parse does with the
text where the names are other ones: if each mention has the new name of its local, then the parse
goes the same way; and a parse that does not know a local at a place is refused just if the place
mentions it.
-/

namespace MathScript.Parse

open Renamable

/-- A name in a text, with the local that it is found to be or that it declares. -/
structure Mention where
  place : Nat
  name : String
  slot : Option Nat
  declares : Bool

namespace Mention

def lexeme (m : Mention) : Lexeme := ⟨m.place, .ok (.word m.name)⟩

/-- The locals that are declared, in the order of their names: where, and in which slot. -/
def locals (ms : List Mention) : List (Nat × Nat) :=
  (ms.filter Mention.declares).filterMap fun m => m.slot.map fun slot => (m.place, slot)

/-- Their slots. -/
def declared (ms : List Mention) : List Nat :=
  (ms.filter Mention.declares).filterMap Mention.slot

theorem mem_locals {ms : List Mention} {place slot : Nat} : (place, slot) ∈ locals ms ↔
    ∃ m ∈ ms, m.declares = true ∧ m.place = place ∧ m.slot = some slot := by
  simp only [locals, List.mem_filterMap, List.mem_filter, Option.map_eq_some_iff, Prod.mk.injEq]
  constructor
  · rintro ⟨m, ⟨inside, declares⟩, _, found, rfl, rfl⟩
    exact ⟨m, inside, declares, rfl, found⟩
  · rintro ⟨m, inside, declares, rfl, found⟩
    exact ⟨m, ⟨inside, declares⟩, slot, found, rfl, rfl⟩

theorem map_snd_locals (ms : List Mention) : (locals ms).map Prod.snd = declared ms := by
  rw [locals, declared, List.map_filterMap]
  congr 1
  funext m
  cases m.slot <;> rfl

@[simp] theorem declared_nil : declared [] = [] := rfl

@[simp] theorem declared_append (ms ms' : List Mention) :
    declared (ms ++ ms') = declared ms ++ declared ms' := by
  simp [declared]

end Mention

/-- A state in front of a text without faults. Its locals have slots of their own, and those from
`low` on have names that may be declared. -/
structure Sound (low : Nat) (s : State) : Prop where
  faultless : ∀ l ∈ s.rest, ∃ t, l.content = .ok t
  below : ∀ e ∈ s.scopes.flatten, e.2.slot < s.frameSize
  distinct : (s.scopes.flatten.map fun e => e.2.slot).Nodup
  usable : ∀ e ∈ s.scopes.flatten, low ≤ e.2.slot → isReserved e.1 = false
  clean : s.diagnostics = #[]

/-- Tokens taken, with what is mentioned among them. What is declared are the names behind the word
`var`, all of them. -/
structure Within (ms : List Mention) (taken : List Lexeme) : Prop where
  listed : (ms.map Mention.lexeme).Sublist taken
  introduced : ∀ m ∈ ms, m.declares = true → (∃ slot, m.slot = some slot) ∧
    ∃ place, [⟨place, .ok (.word "var")⟩, m.lexeme] <:+: taken
  all : ∀ front place back, taken = front ++ ⟨place, .ok (.word "var")⟩ :: back →
    ∃ m ∈ ms, m.declares = true ∧ ∃ back', back = m.lexeme :: back'

/-- From one state to another with some mentions on the way. -/
structure Recital (low : Nat) (s : State) (ms : List Mention) (s' : State) : Prop where
  sound : Sound low s'
  frame : s.frameSize ≤ s'.frameSize
  slots : (Mention.declared ms).Perm (List.range' s.frameSize (s'.frameSize - s.frameSize))
  took : ∃ taken, s.left = taken ++ s'.left ∧ Within ms taken
  usable : ∀ m ∈ ms, ∀ slot, m.slot = some slot → low ≤ slot → isReserved m.name = false

theorem Sound.behind {low : Nat} {s : State} (sound : Sound low s) (t : Token)
    (ahead : List (Nat × Token)) : Sound low (s.behind t ahead) :=
  { sound with }

namespace Within

variable {ms ms' : List Mention} {taken taken' : List Lexeme}

theorem nil : Within [] [] where
  listed := .slnil
  introduced := nofun
  all := fun front place back same => by
    rw [eq_comm, List.append_eq_nil_iff] at same
    cases same.2

/-- A token that introduces nothing. -/
theorem single {here : Nat} {t : Token} (other : t ≠ .word "var") :
    Within [] [⟨here, .ok t⟩] where
  listed := List.nil_sublist _
  introduced := nofun
  all := fun front place back same => by
    rcases List.cons_eq_append_iff.mp same with ⟨rfl, same⟩ | ⟨front, rfl, none⟩
    · cases same
      exact absurd rfl other
    · cases (List.append_eq_nil_iff.mp none.symm).2

theorem append (first : Within ms taken) (second : Within ms' taken') :
    Within (ms ++ ms') (taken ++ taken') where
  listed := by
    rw [List.map_append]
    exact first.listed.append second.listed
  introduced := fun m inside declares => by
    rcases List.mem_append.mp inside with inside | inside
    · obtain ⟨slot, place, there⟩ := first.introduced m inside declares
      exact ⟨slot, place, there.trans (List.prefix_append _ _).isInfix⟩
    · obtain ⟨slot, place, there⟩ := second.introduced m inside declares
      exact ⟨slot, place, there.trans (List.suffix_append _ _).isInfix⟩
  all := fun front place back same => by
    rcases List.append_eq_append_iff.mp same with ⟨between, rfl, rest⟩ | ⟨between, rfl, rest⟩
    · obtain ⟨m, inside, declares, there⟩ := second.all between place back rest
      exact ⟨m, List.mem_append_right _ inside, declares, there⟩
    · cases between with
      | nil =>
          obtain ⟨m, inside, declares, there⟩ := second.all [] place back rest.symm
          exact ⟨m, List.mem_append_right _ inside, declares, there⟩
      | cons l between =>
          obtain ⟨rfl, rfl⟩ := List.cons.inj rest
          obtain ⟨m, inside, declares, back', rfl⟩ := first.all front place between rfl
          exact ⟨m, List.mem_append_left _ inside, declares, back' ++ taken', rfl⟩

end Within

namespace Recital

variable {low : Nat} {s m s' : State} {ms ms' : List Mention}

theorem of_turn (sound : Sound low s') (frame : s'.frameSize = s.frameSize)
    (left : s'.left = s.left) : Recital low s [] s' where
  sound := sound
  frame := Nat.le_of_eq frame.symm
  slots := by simp [frame]
  took := ⟨[], left.symm, .nil⟩
  usable := nofun

theorem trans (first : Recital low s ms m) (second : Recital low m ms' s') :
    Recital low s (ms ++ ms') s' where
  sound := second.sound
  frame := Nat.le_trans first.frame second.frame
  slots := by
    have fits : s'.frameSize - s.frameSize =
        (m.frameSize - s.frameSize) + (s'.frameSize - m.frameSize) := by
      have := first.frame
      have := second.frame
      omega
    rw [Mention.declared_append, fits, ← List.range'_append_1, Nat.add_sub_cancel' first.frame]
    exact first.slots.append second.slots
  took := by
    obtain ⟨taken, left, names⟩ := first.took
    obtain ⟨taken', left', names'⟩ := second.took
    exact ⟨taken ++ taken', by rw [left, left', List.append_assoc], names.append names'⟩
  usable := fun n inside => (List.mem_append.mp inside).elim (first.usable n) (second.usable n)

/-- A token is taken. -/
theorem behind {here : Nat} {t : Token} {ahead : List (Nat × Token)} (sound : Sound low s)
    (next : s.ahead = (here, t) :: ahead) (other : t ≠ .word "var") :
    Recital low s [] (s.behind t ahead) where
  sound := sound.behind t ahead
  frame := Nat.le_refl _
  slots := by simp [State.behind]
  took := ⟨[⟨here, .ok t⟩], State.left_ahead next, .single other⟩
  usable := nofun

end Recital

/-- Tokens are looked at that are not taken. -/
structure Scanned (s s' : State) : Prop where
  left : s'.left = s.left
  scopes : s'.scopes = s.scopes
  frameSize : s'.frameSize = s.frameSize
  loopDepth : s'.loopDepth = s.loopDepth
  afterBrace : s'.afterBrace = s.afterBrace
  rest : s'.rest <:+ s.rest
  clean : s'.diagnostics = s.diagnostics

namespace Scanned

variable {low : Nat} {s m s' : State}

theorem refl (s : State) : Scanned s s := ⟨rfl, rfl, rfl, rfl, rfl, List.suffix_rfl, rfl⟩

theorem trans (first : Scanned s m) (second : Scanned m s') : Scanned s s' where
  left := second.left.trans first.left
  scopes := second.scopes.trans first.scopes
  frameSize := second.frameSize.trans first.frameSize
  loopDepth := second.loopDepth.trans first.loopDepth
  afterBrace := second.afterBrace.trans first.afterBrace
  rest := second.rest.trans first.rest
  clean := second.clean.trans first.clean

theorem sound (looked : Scanned s s') (sound : Sound low s) : Sound low s' where
  faultless := fun l inside => sound.faultless l (looked.rest.subset inside)
  below := by
    rw [looked.scopes, looked.frameSize]
    exact sound.below
  distinct := looked.scopes ▸ sound.distinct
  usable := looked.scopes ▸ sound.usable
  clean := looked.clean.trans sound.clean

theorem recital (looked : Scanned s s') (sound : Sound low s) : Recital low s [] s' :=
  .of_turn (looked.sound sound) looked.frameSize looked.left

end Scanned

/-- Nothing is put down where there are no faults. -/
theorem scanned_look {s : State} (faultless : ∀ l ∈ s.rest, ∃ t, l.content = .ok t)
    (source : Source) (count : Nat) : Scanned s (s.look source count) := by
  induction count with
  | zero => exact .refl s
  | succ count ih =>
      rw [State.look]
      split
      · refine ih.trans ?_
        have faultless' : ∀ l ∈ (s.look source count).rest, ∃ t, l.content = .ok t :=
          fun l inside => faultless l (ih.rest.subset inside)
        generalize s.look source count = m at faultless'
        cases rest : m.rest with
        | nil => exact ⟨by rw [State.pull, State.left, State.left, rest], rfl, rfl, rfl, rfl,
            by simp only [State.pull, rest, List.suffix_rfl], rfl⟩
        | cons l ls =>
            obtain ⟨here, content⟩ := l
            obtain ⟨t, rfl : content = .ok t⟩ := faultless' _ (rest ▸ List.mem_cons_self)
            exact ⟨by simp [State.pull, State.left, rest], rfl, rfl, rfl, rfl,
              by rw [rest]; exact List.suffix_cons _ _, rfl⟩
      · exact ih

theorem Sound.scanned {low : Nat} {s : State} (sound : Sound low s) (source : Source)
    (count : Nat) : Scanned s (s.look source count) :=
  scanned_look sound.faultless source count

theorem Sound.look {low : Nat} {s : State} (sound : Sound low s) (source : Source) (count : Nat) :
    Recital low s [] (s.look source count) :=
  (sound.scanned source count).recital sound

/-! ### Other names -/

section

variable {ι : Type} (c : Sides ι) (words : ι → Nat → Option String) (i : ι)

/-- A token and what it is on a side, where some names are replaced by their places. A name that
stays is no new name. -/
inductive Worded : Nat × Token → Nat × Token → Prop
  | same {here there : Nat} {t : Token} (near : c.near i here there)
      (kept : ∀ name, t = .word name → words i here = none)
      (other : ∀ name, t = .word name → ∀ slot, c.naming i slot ≠ some name) :
      Worded (here, t) (there, t)
  | new {here there : Nat} {name word : String} (near : c.near i here there)
      (changed : words i here = some word) (free : isReserved name = false)
      (free' : isReserved word = false) : Worded (here, .word name) (there, .word word)

/-- A lexeme and what it is on a side. -/
inductive WordedLexeme : Lexeme → Lexeme → Prop
  | token {here there : Nat} {t t' : Token} (worded : Worded c words i (here, t) (there, t')) :
      WordedLexeme ⟨here, .ok t⟩ ⟨there, .ok t'⟩

/-- A local and what it is called on a side. -/
inductive Called : String × Local → String × Local → Prop
  | same {name : String} {l : Local} (kept : c.naming i l.slot = none)
      (other : ∀ slot, c.naming i slot ≠ some name) : Called (name, l) (name, l)
  | new {name word : String} {l : Local} (changed : c.naming i l.slot = some word) :
      Called (name, l) (word, l)

/-- A state and what it is on a side. -/
structure Copy (s s' : State) : Prop where
  ahead : List.Forall₂ (Worded c words i) s.ahead s'.ahead
  rest : List.Forall₂ (WordedLexeme c words i) s.rest s'.rest
  scopes : List.Forall₂ (List.Forall₂ (Called c i)) s.scopes s'.scopes
  frameSize : s'.frameSize = s.frameSize
  loopDepth : s'.loopDepth = s.loopDepth
  afterBrace : s'.afterBrace = s.afterBrace
  clean : s'.diagnostics = #[]

/-- Each mention has the new name of its local. -/
def Accords (ms : List Mention) : Prop := ∀ m ∈ ms, words i m.place = m.slot.bind (c.naming i)

/-- A local is mentioned where it is not known. -/
def Hit (ms : List Mention) : Prop :=
  ∃ m ∈ ms, m.declares = false ∧ ∃ slot, m.slot = some slot ∧ c.unknown i = some (m.place, slot)

variable {α : Type}

/-- Failed, or with a diagnostic put down. -/
def Refused : EStateM.Result Diagnostic State α → Prop
  | .ok _ s => s.diagnostics ≠ #[]
  | .error _ _ => True

/-- How a side ends where the first has ended well. -/
inductive Told (ms : List Mention) (a : α) (s : State) : EStateM.Result Diagnostic State α → Prop
  | hit {r : EStateM.Result Diagnostic State α} (hit : Hit c i ms) (refused : Refused r) :
      Told ms a s r
  | spared {s' : State} (spared : ¬ Hit c i ms) (copy : Copy c words i s s') :
      Told ms a s (.ok a s')

end

variable {ι : Type} (c : Sides ι) (words : ι → Nat → Option String) (low : Nat)

/-- Sides of which some have new names for locals, each for one of them and from `low` on, and some
do not know a local at a place. -/
structure Sides.Variants : Prop where
  errors : 0 < c.source.limits.errors
  errors' : ∀ i, 0 < (c.others i).limits.errors
  ending : ∀ i, c.near i (utf8Length c.source.text) (utf8Length (c.others i).text)
  sizes : ∀ i (x : Float), x > (c.others i).limits.vectorSize.toFloat →
    x > c.source.limits.vectorSize.toFloat
  blind : ∀ i, c.unknown i ≠ none →
    c.Plain i ∧ ¬ c.lax i ∧ ∀ here there, c.near i here there → there = here
  distinct : ∀ i slot slot' word, c.naming i slot = some word → c.naming i slot' = some word →
    slot = slot'
  usable : ∀ i slot word, c.naming i slot = some word →
    isIdentifier word = true ∧ isReserved word = false

variable {α β : Type} [Renamable α] [Renamable β]

/-- What an end without a diagnostic tells of the sides that are still the same text. -/
def Tells (s : State) (a : α) (s₁ : State) (y : ι → Parse α) (s' : ι → State)
    (alive : ι → Prop) : Prop :=
  ∃ ms, Recital low s ms s₁ ∧ ∀ i, alive i → Accords c words i ms →
    Told c words i ms (rename (c.naming i) a) s₁ (y i (s' i))

/-- A parser that tells by its mentions what it is on the sides. -/
structure Faithful (x : Parse α) (y : ι → Parse α) : Prop where
  first : Onward c.source x
  second : ∀ i, c.unknown i ≠ none → Onward (c.others i) (y i)
  tells : ∀ s a s₁, Sound low s → x s = .ok a s₁ → s₁.diagnostics = #[] →
    ∀ (s' : ι → State) (alive : ι → Prop), (∀ i, alive i → Copy c words i s (s' i)) →
      Tells c words low s a s₁ y s' alive

variable {c words low}

/-! ### What is refused stays refused -/

theorem Later.clean {limit : Nat} {s s' : State} (later : Later limit s s')
    (clean : s'.diagnostics = #[]) : s.diagnostics = #[] := by
  have kept := later.kept
  rw [clean] at kept
  exact Array.toList_eq_nil_iff.mp (List.prefix_nil.mp kept)

omit [Renamable α] in
theorem refused_of_lastState {r : EStateM.Result Diagnostic State α}
    (some : (lastState r).diagnostics ≠ #[]) : Refused r := by
  cases r with
  | ok a s => exact some
  | error d s => trivial

omit [Renamable α] [Renamable β] in
theorem Refused.bind {source : Source} {x : Parse β} {f : β → Parse α} {s : State}
    (refused : Refused (x s)) (rest : ∀ b, Onward source (f b)) : Refused ((x >>= f) s) := by
  cases done : x s with
  | ok b m =>
      rw [done] at refused
      have later := later_bind (x := x) rest s
      rw [done] at later
      exact refused_of_lastState fun clean => refused (later.clean clean)
  | error d m =>
      rw [bind_stopped done]
      trivial

/-- A parser that puts a diagnostic down unless it fails. -/
def Unclean (x : Parse α) : Prop := ∀ s a s₁, x s = .ok a s₁ → s₁.diagnostics ≠ #[]

omit [Renamable α] in
theorem Unclean.refused {x : Parse α} (unclean : Unclean x) (s : State) : Refused (x s) := by
  cases done : x s with
  | ok a s₁ => exact unclean s a s₁ done
  | error d s₁ => trivial

omit [Renamable α] [Renamable β] in
theorem Unclean.behind {f : β → Parse α} (unclean : ∀ b, Unclean (f b)) (x : Parse β) :
    Unclean (x >>= f) := by
  intro s a s₁ done
  cases begun : x s with
  | ok b m =>
      rw [bind_completed begun] at done
      exact unclean b m a s₁ done
  | error d m =>
      rw [bind_stopped begun] at done
      cases done

omit [Renamable α] in
theorem unclean_record {source : Source} (errors : 0 < source.limits.errors) (d : Diagnostic)
    {f : Unit → Parse α} (rest : ∀ u, Onward source (f u)) : Unclean (record source d >>= f) := by
  intro s a s₁ done clean
  have later : Later _ (s.record source.limits.errors d) (lastState ((record source d >>= f) s)) :=
    (rest ()).later _
  rw [done] at later
  have recorded := later.clean clean
  cases full : s.full source.limits.errors with
  | true =>
      simp only [State.record, full, if_true] at recorded
      simp only [State.full, recorded, Array.size_empty, decide_eq_true_eq] at full
      omega
  | false =>
      rw [(State.record_open full d).1] at recorded
      simp at recorded

/-! ### Sides on the way -/

theorem Hit.append_left {i : ι} {ms : List Mention} (hit : Hit c i ms) (ms' : List Mention) :
    Hit c i (ms ++ ms') := by
  obtain ⟨m, inside, found⟩ := hit
  exact ⟨m, List.mem_append_left _ inside, found⟩

theorem Hit.append_right {i : ι} {ms' : List Mention} (hit : Hit c i ms') (ms : List Mention) :
    Hit c i (ms ++ ms') := by
  obtain ⟨m, inside, found⟩ := hit
  exact ⟨m, List.mem_append_right _ inside, found⟩

theorem hit_append {i : ι} {ms ms' : List Mention} :
    Hit c i (ms ++ ms') ↔ Hit c i ms ∨ Hit c i ms' := by
  refine ⟨?_, fun hit => hit.elim (·.append_left ms') (·.append_right ms)⟩
  rintro ⟨m, inside, found⟩
  exact (List.mem_append.mp inside).imp (⟨m, ·, found⟩) (⟨m, ·, found⟩)

theorem accords_append {i : ι} {ms ms' : List Mention} :
    Accords c words i (ms ++ ms') ↔ Accords c words i ms ∧ Accords c words i ms' :=
  List.forall_mem_append

theorem Hit.unknown {i : ι} {ms : List Mention} (hit : Hit c i ms) : c.unknown i ≠ none := by
  obtain ⟨_, _, _, _, _, unknown⟩ := hit
  rw [unknown]
  exact nofun

omit [Renamable α] in
theorem Told.refused {i : ι} {ms : List Mention} {a : α} {s : State}
    {r : EStateM.Result Diagnostic State α} (told : Told c words i ms a s r) (hit : Hit c i ms) :
    Refused r := by
  cases told with
  | hit _ refused => exact refused
  | spared spared => exact absurd hit spared

omit [Renamable α] in
/-- What is told of the last mentions is told of all, if the first ones set nothing apart. -/
theorem Told.behind {i : ι} {ms ms' : List Mention} {a : α} {s : State}
    {r : EStateM.Result Diagnostic State α} (told : Told c words i ms' a s r)
    (spared : ¬ Hit c i ms) : Told c words i (ms ++ ms') a s r := by
  cases told with
  | hit hit refused => exact .hit (hit.append_right ms) refused
  | spared spared' copy => exact .spared (fun hit => (hit_append.mp hit).elim spared spared') copy

theorem not_hit_nil {i : ι} : ¬ Hit c i [] := nofun

/-! ### Tokens -/

/-- What a parser makes of a name alike, it makes of a token and of what it is on a side. -/
theorem Worded.seen {i : ι} {γ : Type} {next next' : Nat × Token} (worded : Worded c words i next next')
    (seen : Token → γ) (names : ∀ name name', isReserved name = false → isReserved name' = false →
      seen (.word name) = seen (.word name')) : seen next'.2 = seen next.2 := by
  cases worded with
  | same => rfl
  | new _ _ free free' => exact names _ _ free' free

theorem Worded.near {i : ι} {here there : Nat} {t t' : Token}
    (worded : Worded c words i (here, t) (there, t')) : c.near i here there := by
  cases worded with
  | same near => exact near
  | new near => exact near

namespace Copy

variable {i : ι} {s s' : State}

theorem pull (copy : Copy c words i s s') :
    Copy c words i (s.pull c.source s.rest) (s'.pull (c.others i) s'.rest) := by
  have rests := copy.rest
  generalize rest : s.rest = ls, rest' : s'.rest = ls' at rests
  cases rests with
  | nil => exact { copy with rest := .nil }
  | cons lexeme lexemes =>
      obtain ⟨worded⟩ := lexeme
      exact { copy with ahead := List.rel_append copy.ahead (.cons worded .nil), rest := lexemes }

theorem look (copy : Copy c words i s s') (count : Nat) :
    Copy c words i (s.look c.source count) (s'.look (c.others i) count) := by
  induction count with
  | zero => exact copy
  | succ count ih =>
      simp only [State.look]
      rw [← ih.ahead.length_eq]
      split
      · exact ih.pull
      · exact ih

theorem nothing (copy : Copy c words i s s') (none : s.ahead = []) : s'.ahead = [] := by
  have aheads := copy.ahead
  rw [none] at aheads
  exact List.forall₂_nil_left_iff.mp aheads

/-- Of the token ahead it is only not known which name it is. -/
theorem head (copy : Copy c words i s s') {here : Nat} {t : Token} {ahead : List (Nat × Token)}
    (next : s.ahead = (here, t) :: ahead) : ∃ there t' ahead',
      s'.ahead = (there, t') :: ahead' ∧ Worded c words i (here, t) (there, t') ∧
      Copy c words i (s.behind t ahead) (s'.behind t' ahead') := by
  have aheads := copy.ahead
  rw [next] at aheads
  obtain ⟨⟨there, t'⟩, ahead', worded, more, next'⟩ := List.forall₂_cons_left_iff.mp aheads
  refine ⟨there, t', ahead', next', worded, { copy with ahead := more, afterBrace := ?_ }⟩
  cases worded <;> rfl

/-- The tokens ahead on all sides that are still the same text. -/
theorem heads {alive : ι → Prop} {s' : ι → State} (copies : ∀ i, alive i → Copy c words i s (s' i))
    {here : Nat} {t : Token} {ahead : List (Nat × Token)} (next : s.ahead = (here, t) :: ahead) :
    ∃ (there : ι → Nat) (t' : ι → Token) (ahead' : ι → List (Nat × Token)),
      c.Near here there ∧ ∀ i, alive i →
      (s' i).ahead = (there i, t' i) :: ahead' i ∧ Worded c words i (here, t) (there i, t' i) ∧
      Copy c words i (s.behind t ahead) ((s' i).behind (t' i) (ahead' i)) := by
  have each : ∀ i, ∃ place t' ahead', alive i → (s' i).ahead = (place, t') :: ahead' ∧
      Worded c words i (here, t) (place, t') ∧
      Copy c words i (s.behind t ahead) ((s' i).behind t' ahead') := by
    intro i
    by_cases live : alive i
    · obtain ⟨place, t', ahead', found⟩ := (copies i live).head next
      exact ⟨place, t', ahead', fun _ => found⟩
    · exact ⟨0, t, [], fun live' => absurd live' live⟩
  choose place t' ahead' found using each
  obtain ⟨there, nears, same⟩ := Sides.extendAll place alive fun i live => (found i live).2.1.near
  exact ⟨there, t', ahead', nears, fun i live => same i live ▸ found i live⟩

/-- Scopes that hold the same. -/
theorem turn (copy : Copy c words i s s') {m m' : State} (ahead : m.ahead = s.ahead)
    (ahead' : m'.ahead = s'.ahead) (rest : m.rest = s.rest) (rest' : m'.rest = s'.rest)
    (clean : m'.diagnostics = s'.diagnostics)
    (scopes : List.Forall₂ (List.Forall₂ (Called c i)) m.scopes m'.scopes)
    (frameSize : m'.frameSize = m.frameSize) (loopDepth : m'.loopDepth = m.loopDepth)
    (afterBrace : m'.afterBrace = m.afterBrace) : Copy c words i m m' where
  ahead := ahead ▸ ahead' ▸ copy.ahead
  rest := rest ▸ rest' ▸ copy.rest
  scopes := scopes
  frameSize := frameSize
  loopDepth := loopDepth
  afterBrace := afterBrace
  clean := clean.trans copy.clean

end Copy

/-! ### Parsers that tell by their mentions -/

namespace Tells

variable {s m s₁ : State} {a : α} {y : ι → Parse α} {s' : ι → State} {alive : ι → Prop}

/-- Before it is told, something is passed that is no mention. -/
theorem after (recital : Recital low s [] m) {y' : ι → Parse α} {m' : ι → State}
    (tells : Tells c words low m a s₁ y' m' alive)
    (same : ∀ i, alive i → y i (s' i) = y' i (m' i)) :
    Tells c words low s a s₁ y s' alive := by
  obtain ⟨ms, rest, told⟩ := tells
  exact ⟨ms, recital.trans rest, fun i live accords => same i live ▸ told i live accords⟩

end Tells

theorem tells_pure {s : State} {a : α} {y : ι → Parse α} {s' : ι → State} {alive : ι → Prop}
    (sound : Sound low s) (told : ∀ i, alive i → ∃ m, y i (s' i) = .ok (rename (c.naming i) a) m ∧
      Copy c words i s m) : Tells c words low s a s y s' alive := by
  refine ⟨[], .of_turn sound rfl rfl, fun i live _ => ?_⟩
  obtain ⟨m, done, copy⟩ := told i live
  rw [done]
  exact .spared not_hit_nil copy

namespace Faithful

section

variable {x : Parse α} {y : ι → Parse α}

/-- A parser that does not end well, or not without a diagnostic, tells nothing. -/
theorem of_unclean (first : Onward c.source x)
    (second : ∀ i, c.unknown i ≠ none → Onward (c.others i) (y i))
    (unclean : Unclean x) : Faithful c words low x y :=
  ⟨first, second, fun s a s₁ _ done clean => absurd clean (unclean s a s₁ done)⟩

theorem done (a : α) : Faithful c words low (pure a) fun i => pure (rename (c.naming i) a) where
  first := onward_pure a
  second := fun i _ => onward_pure _
  tells := by
    rintro s _ _ sound ⟨⟩ - s' alive copies
    exact tells_pure sound fun i live => ⟨s' i, rfl, copies i live⟩

/-- What looks at the next token first need be told only of where it is looked at already. -/
theorem of_look (first : Onward c.source x)
    (second : ∀ i, c.unknown i ≠ none → Onward (c.others i) (y i))
    (looks : ∀ s, x (s.look c.source 1) = x s)
    (looks' : ∀ i s, y i (s.look (c.others i) 1) = y i s)
    (poised : ∀ s a s₁, Sound low s → s.Poised → x s = .ok a s₁ → s₁.diagnostics = #[] →
      ∀ (s' : ι → State) (alive : ι → Prop),
        (∀ i, alive i → Copy c words i s (s' i) ∧ (s' i).Poised) →
        Tells c words low s a s₁ y s' alive) : Faithful c words low x y where
  first := first
  second := second
  tells := fun s a s₁ sound done clean s' alive copies => by
    have looked := sound.look c.source 1
    rw [← looks] at done
    exact (poised _ a s₁ looked.sound s.poised_look done clean
      (fun i => (s' i).look (c.others i) 1) alive fun i live =>
        ⟨(copies i live).look 1, (s' i).poised_look⟩).after looked fun i _ => (looks' i _).symm

theorem bind (variants : c.Variants) {x : Parse β} {y : ι → Parse β} {f : β → Parse α}
    {g : ι → β → Parse α} (part : Faithful c words low x y)
    (rest : ∀ b, Faithful c words low (f b) fun i => g i (rename (c.naming i) b)) :
    Faithful c words low (x >>= f) fun i => y i >>= g i := by
  have second : ∀ i, c.unknown i ≠ none → ∀ b, Onward (c.others i) (g i b) := by
    intro i unknown b
    obtain ⟨plain, -⟩ := variants.blind i unknown
    have on := (rest b).second i unknown
    rw [Sides.Plain] at plain
    simpa only [plain, rename_none] using on
  refine ⟨part.first.bind fun b => (rest b).first,
    fun i unknown => (part.second i unknown).bind (second i unknown), ?_⟩
  intro s a s₁ sound done clean s' alive copies
  cases begun : x s with
  | error d m =>
      rw [bind_stopped begun] at done
      cases done
  | ok b m =>
      rw [bind_completed begun] at done
      have later := (rest b).first.later m
      rw [done] at later
      obtain ⟨ms, recital, told⟩ := part.tells s b m sound begun (later.clean clean) s' alive copies
      -- The sides that go on are those that the first mentions have not set apart.
      have goes : ∀ i, ∃ t, alive i ∧ Accords c words i ms ∧ ¬ Hit c i ms →
          y i (s' i) = .ok (rename (c.naming i) b) t ∧ Copy c words i m t := by
        intro i
        by_cases on : alive i ∧ Accords c words i ms ∧ ¬ Hit c i ms
        · obtain ⟨live, accords, spared⟩ := on
          generalize ended : y i (s' i) = r
          have told := told i live accords
          rw [ended] at told
          cases told with
          | hit hit => exact absurd hit spared
          | @spared t _ copy => exact ⟨t, fun _ => ⟨rfl, copy⟩⟩
        · exact ⟨s' i, fun on' => absurd on' on⟩
      choose t goes using goes
      obtain ⟨ms', recital', told'⟩ := (rest b).tells m a s₁ recital.sound done clean t _
        fun i on => (goes i on).2
      refine ⟨ms ++ ms', recital.trans recital', fun i live accords => ?_⟩
      obtain ⟨accords, accords'⟩ := accords_append.mp accords
      by_cases hit : Hit c i ms
      · exact .hit (hit.append_left ms') (((told i live accords).refused hit).bind
          (second i hit.unknown))
      · obtain ⟨ended, -⟩ := goes i ⟨live, accords, hit⟩
        dsimp only
        rw [bind_completed ended]
        exact (told' i ⟨live, accords, hit⟩ accords').behind hit

end

/-! ### Moves -/

section

variable (variants : c.Variants)

include variants

theorem position {f : Nat → Parse α} {g : ι → Nat → Parse α}
    (rest : ∀ here there, c.Near here there → Faithful c words low (f here) fun i => g i (there i)) :
    Faithful c words low (Parse.position c.source >>= f) fun i =>
      Parse.position (c.others i) >>= g i := by
  refine of_look (onward_position.bind fun here => ?_)
    (fun i unknown => onward_position.bind fun place => ?_) (fun s => ?_) (fun i s => ?_) ?_
  · obtain ⟨there, near⟩ := c.toward here
    exact (rest here there near).first
  · obtain ⟨here, there, near, rfl⟩ := c.back i place
    exact (rest here there near).second i unknown
  · rw [bind_completed (position_eq _ _), bind_completed (position_eq _ _), State.look_look]
  · rw [bind_completed (position_eq _ _), bind_completed (position_eq _ _), State.look_look]
  · intro s a s₁ sound poised done clean s' alive copies
    rw [bind_completed (position_eq _ _), State.look_poised poised] at done
    have near : ∀ i, alive i → c.near i (s.front c.source) ((s' i).front (c.others i)) := by
      intro i live
      obtain ⟨copy, poised'⟩ := copies i live
      rw [poised.front, poised'.front]
      cases next : s.ahead with
      | nil =>
          rw [copy.nothing next]
          exact variants.ending i
      | cons first ahead =>
          obtain ⟨here, t⟩ := first
          obtain ⟨there, t', ahead', next', worded, -⟩ := copy.head next
          rw [next']
          exact worded.near
    obtain ⟨there, nears, same⟩ := Sides.extendAll _ alive near
    refine ((rest _ there nears).tells s a s₁ sound done clean s' alive
      fun i live => (copies i live).1).after (.of_turn sound rfl rfl) fun i live => ?_
    rw [bind_completed (position_eq _ _), State.look_poised (copies i live).2, same i live]

omit variants in
theorem glance {γ : Type} (seen : Option Token → γ) {f : γ → Parse α} {g : ι → γ → Parse α}
    (names : ∀ name name', isReserved name = false → isReserved name' = false →
      seen (some (.word name)) = seen (some (.word name')))
    (rest : ∀ r, Faithful c words low (f r) fun i => g i r) :
    Faithful c words low (peek c.source >>= fun t => f (seen t)) fun i =>
      peek (c.others i) >>= fun t => g i (seen t) := by
  refine of_look (onward_peek.bind fun t => (rest (seen t)).first)
    (fun i unknown => onward_peek.bind fun t => (rest (seen t)).second i unknown)
    (fun s => ?_) (fun i s => ?_) ?_
  · rw [bind_completed (peek_eq _ _), bind_completed (peek_eq _ _), State.look_look]
  · rw [bind_completed (peek_eq _ _), bind_completed (peek_eq _ _), State.look_look]
  · intro s a s₁ sound poised done clean s' alive copies
    rw [bind_completed (peek_eq _ _), State.look_poised poised] at done
    refine ((rest _).tells s a s₁ sound done clean s' alive
      fun i live => (copies i live).1).after (.of_turn sound rfl rfl) fun i live => ?_
    obtain ⟨copy, poised'⟩ := copies i live
    rw [bind_completed (peek_eq _ _), State.look_poised poised']
    cases next : s.ahead with
    | nil => rw [copy.nothing next]
    | cons first ahead =>
        obtain ⟨here, t⟩ := first
        obtain ⟨there, t', ahead', next', worded, -⟩ := copy.head next
        rw [next']
        exact congrArg (g i · (s' i)) (worded.seen (fun t => seen (some t)) names)

omit variants in
theorem taking {γ : Type} (found? : Token → Option γ) {f : Nat → γ → Parse α}
    {g : ι → Nat → γ → Parse α} {x : Parse α} {y : ι → Parse α}
    (names : ∀ name, isReserved name = false ∨ name = "var" → found? (.word name) = none)
    (yes : ∀ t r, found? t = some r → ∀ here there, c.Near here there →
      Faithful c words low (f here r) fun i => g i (there i) r)
    (no : Faithful c words low x y) :
    Faithful c words low (taking c.source found? f x) fun i =>
      taking (c.others i) found? (g i) (y i) := by
  refine of_look (onward_taking (fun t r found here => ?_) no.first)
    (fun i unknown => onward_taking (fun t r found place => ?_) (no.second i unknown))
    (fun s => ?_) (fun i s => ?_) ?_
  · obtain ⟨there, near⟩ := c.toward here
    exact (yes t r found here there near).first
  · obtain ⟨here, there, near, rfl⟩ := c.back i place
    exact (yes t r found here there near).second i unknown
  · unfold Parse.taking
    rw [State.look_look]
  · unfold Parse.taking
    rw [State.look_look]
  · intro s a s₁ sound poised done clean s' alive copies
    unfold Parse.taking at done ⊢
    rw [State.look_poised poised] at done
    cases next : s.ahead with
    | nil =>
        simp only [next] at done
        refine (no.tells s a s₁ sound done clean s' alive
          fun i live => (copies i live).1).after (.of_turn sound rfl rfl) fun i live => ?_
        obtain ⟨copy, poised'⟩ := copies i live
        simp only [State.look_poised poised', copy.nothing next]
    | cons first ahead =>
        obtain ⟨here, t⟩ := first
        simp only [next] at done
        have same : ∀ {i there t'}, Worded c words i (here, t) (there, t') →
            found? t' = found? t := fun worded =>
          worded.seen found? fun name name' free free' => by
            rw [names name (.inl free), names name' (.inl free')]
        cases found : found? t with
        | none =>
            simp only [found] at done
            refine (no.tells s a s₁ sound done clean s' alive
              fun i live => (copies i live).1).after (.of_turn sound rfl rfl) fun i live => ?_
            obtain ⟨copy, poised'⟩ := copies i live
            obtain ⟨there, t', ahead', next', worded, -⟩ := copy.head next
            simp only [State.look_poised poised', next', same worded, found]
        | some r =>
            simp only [found] at done
            obtain ⟨there, t', ahead', nears, heads⟩ := Copy.heads (fun i live => (copies i live).1) next
            have other : t ≠ .word "var" := by
              rintro rfl
              rw [names "var" (.inr rfl)] at found
              cases found
            refine ((yes t r found here there nears).tells _ a s₁ (sound.behind t ahead) done
              clean _ alive fun i live => (heads i live).2.2).after (.behind sound next other)
              fun i live => ?_
            obtain ⟨next', worded, -⟩ := heads i live
            simp only [State.look_poised (copies i live).2, next', same worded, found]

end

end Faithful

end MathScript.Parse
