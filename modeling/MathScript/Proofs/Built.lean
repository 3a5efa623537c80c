import MathScript.Footprint
import MathScript.Table
import MathScript.Proofs.Kinds

/-!
Well-built trees. A layout tells of every slot of a frame what it was declared as; a tree is built
against a layout, the slots that are in use where it stands, and what it is granted by a table: the
functions it may call, and to write what the host stores. A statement list uses the slots of the
declarations before it; nothing else that a node declares is used outside of it. What is built
stays built as the layout grows and more slots come into use.
-/

namespace MathScript

/-- What a slot was declared as. -/
structure Slot where
  name : String
  kind : Kind
  writable : Bool

/-- What may be granted to a text: to call a function or to use a variable of the host, each by its
name, to write the variables of the host, to declare a name. -/
inductive Grant where
  | call (name : String) (f : Callable)
  | use (name : String) (place : Place)
  | write
  | declare (name : String) (writable : Bool)

/-- A variable in use. A local may be written if it was declared so, a constant never. What is of
the host may be used under its name. -/
def Binding.InScope (offers : Grant → Prop) (layout : List Slot) (live : List Nat) (b : Binding) :
    Prop :=
  match b.place with
  | .slot i kind => i ∈ live ∧ layout[i]? = some ⟨b.name, kind, b.writable⟩
  | .constant _ => b.writable = false
  | place => offers (.use b.name place) ∧ (b.writable = true → offers .write)

/-- What a target needs of its binding besides that it is in scope. -/
def Target.Open {α : Type} : Target α → Prop
  | .whole b => b.writable = true
  | .element b _ => b.writable = true ∧ b.kind = .vector
  | .range b _ _ => b.writable = true ∧ b.kind = .string

/-- A call the table allows: the alternative of a signature that the kinds of the arguments
chose, or a function of so many parameters. -/
def Callee.Allowed (offers : Grant → Prop) (callee : Callee) (args : List Tree) : Prop :=
  match callee with
  | .generic name native overload _ => ∃ signature,
      offers (.call name (.generic native signature)) ∧
      signature.resolve (args.map Tree.kind) = some overload
  | .composed name definition => offers (.call name (.composed definition args.length))
  | _ => True

namespace Tree

/-- The slot a node declares for the statements behind it. -/
def declares : Tree → List Nat
  | .declare slot _ _ => [slot]
  | _ => []

/-- That slot with what it is declared to hold. -/
def declaration? : Tree → Option (Nat × Shape)
  | .declare slot shape _ => some (slot, shape)
  | _ => none

theorem declares_eq (t : Tree) : t.declares = t.declaration?.toList.map Prod.fst := by
  cases t <;> rfl

end Tree

/-- The function written in the language that is called, if it is one. -/
def Callee.definitions : Callee → List Nat
  | .composed _ definition => [definition]
  | _ => []

def Tree.calls : Tree → List Nat
  | .call callee _ => callee.definitions
  | _ => []

inductive Built (offers : Grant → Prop) (layout : List Slot) : List Nat → Tree → Prop
  | null {live} : Built offers layout live .null
  | number {live} (x : Float) : Built offers layout live (.number x)
  | text {live} (s : String) : Built offers layout live (.text s)
  | load {live b} (scope : b.InScope offers layout live) : Built offers layout live (.load b)
  | element {live b index} (scope : b.InScope offers layout live) (indexable : b.kind ≠ .scalar)
      (inner : Built offers layout live index) : Built offers layout live (.element b index)
  | slice {live b first last} (scope : b.InScope offers layout live) (indexable : b.kind ≠ .scalar)
      (firsts : ∀ t ∈ first.toList, Built offers layout live t)
      (lasts : ∀ t ∈ last.toList, Built offers layout live t) :
      Built offers layout live (.slice b first last)
  | size {live b} (scope : b.InScope offers layout live) : Built offers layout live (.size b)
  | apply {live op args} (takes : op.Takes args)
      (inner : ∀ t ∈ args, Built offers layout live t) : Built offers layout live (.apply op args)
  | logic {live op left right} (lefts : Built offers layout live left)
      (rights : Built offers layout live right) : Built offers layout live (.logic op left right)
  | call {live callee args} (allowed : callee.Allowed offers args)
      (scope : ∀ b ∈ callee.bindings, b.InScope offers layout live ∧ b.writable = true)
      (inner : ∀ t ∈ args, Built offers layout live t) :
      Built offers layout live (.call callee args)
  | branch {live test yes no} (tests : Built offers layout live test)
      (yeses : Built offers layout live yes) (noes : ∀ t ∈ no.toList, Built offers layout live t)
      (same : ∀ t ∈ no.toList, t.kind = yes.kind) :
      Built offers layout live (.branch test yes no)
  | switch {live cases default}
      (tests : ∀ c ∈ cases, Built offers layout live c.1)
      (bodies : ∀ c ∈ cases, Built offers layout live c.2)
      (defaults : ∀ t ∈ default.toList, Built offers layout live t)
      (same : ∀ c ∈ cases, c.2.kind = (Tree.switch cases default).kind)
      (sameDefault : ∀ t ∈ default.toList, t.kind = (Tree.switch cases default).kind) :
      Built offers layout live (.switch cases default)
  | whileLoop {live test body} (tests : Built offers layout live test)
      (bodies : Built offers layout live body) : Built offers layout live (.whileLoop test body)
  | forLoop {live first test step body}
      (firsts : ∀ t ∈ first.toList, Built offers layout live t)
      (tests : ∀ t ∈ test.toList,
        Built offers layout (first.toList.flatMap Tree.declares ++ live) t)
      (steps : ∀ t ∈ step.toList,
        Built offers layout (first.toList.flatMap Tree.declares ++ live) t)
      (bodies : Built offers layout (first.toList.flatMap Tree.declares ++ live) body) :
      Built offers layout live (.forLoop first test step body)
  | repeatLoop {live body stop} (bodies : Built offers layout live body)
      (stops : Built offers layout live stop) : Built offers layout live (.repeatLoop body stop)
  | breakLoop {live payload} (inner : ∀ t ∈ payload.toList, Built offers layout live t) :
      Built offers layout live (.breakLoop payload)
  | continueLoop {live} : Built offers layout live .continueLoop
  | returnList {live items} (inner : ∀ t ∈ items, Built offers layout live t) :
      Built offers layout live (.returnList items)
  | sequence {live items}
      (inner : ∀ before t after, items = before ++ t :: after →
        Built offers layout (before.flatMap Tree.declares ++ live) t) :
      Built offers layout live (.sequence items)
  | declare {live slot shape parts} (laid : layout[slot]?.map Slot.kind = some shape.kind)
      (inner : ∀ t ∈ parts, Built offers layout live t) :
      Built offers layout live (.declare slot shape parts)
  | assign {live target op value} (scope : target.binding.InScope offers layout live)
      (reach : target.Open) (indices : ∀ t ∈ target.indices, Built offers layout live t)
      (values : Built offers layout live value) :
      Built offers layout live (.assign target op value)
  | swap {live left right} (leftScope : left.binding.InScope offers layout live)
      (rightScope : right.binding.InScope offers layout live) (leftReach : left.Open)
      (rightReach : right.Open) (same : left.kind = right.kind)
      (lefts : ∀ t ∈ left.indices, Built offers layout live t)
      (rights : ∀ t ∈ right.indices, Built offers layout live t) :
      Built offers layout live (.swap left right)

section

variable {offers offers' : Grant → Prop} {layout layout' : List Slot} {live live' : List Nat}

theorem getElem?_grown {i : Nat} {slot : Slot} (grown : layout <+: layout')
    (laid : layout[i]? = some slot) : layout'[i]? = some slot := by
  obtain ⟨more, rfl⟩ := grown
  obtain ⟨bound, -⟩ := List.getElem?_eq_some_iff.mp laid
  rw [List.getElem?_append_left bound, laid]

theorem kind_grown {i : Nat} {kind : Kind} (grown : layout <+: layout')
    (laid : layout[i]?.map Slot.kind = some kind) : layout'[i]?.map Slot.kind = some kind := by
  obtain ⟨slot, found, rfl⟩ := Option.map_eq_some_iff.mp laid
  rw [getElem?_grown grown found]
  rfl

theorem inside_layout {i : Nat} {kind : Kind} (laid : layout[i]?.map Slot.kind = some kind) :
    i < layout.length := by
  obtain ⟨slot, found, -⟩ := Option.map_eq_some_iff.mp laid
  exact (List.getElem?_eq_some_iff.mp found).1

theorem append_subset_append (front : List Nat) (more : live ⊆ live') :
    front ++ live ⊆ front ++ live' := by
  intro i inside
  rcases List.mem_append.mp inside with first | rest
  · exact List.mem_append_left _ first
  · exact List.mem_append_right _ (more rest)

theorem Binding.InScope.mono {b : Binding} (scope : b.InScope offers layout live)
    (kept : ∀ g, offers g → offers' g) (grown : layout <+: layout') (more : live ⊆ live') :
    b.InScope offers' layout' live' := by
  unfold InScope at *
  cases place_eq : b.place with
  | slot i kind =>
      rw [place_eq] at scope
      obtain ⟨used, laid⟩ := scope
      exact ⟨more used, getElem?_grown grown laid⟩
  | constant x =>
      rw [place_eq] at scope
      exact scope
  | scalar | vector | string =>
      rw [place_eq] at scope
      exact ⟨kept _ scope.1, fun writable => kept _ (scope.2 writable)⟩

theorem Binding.InScope.more {b : Binding} (scope : b.InScope offers layout live)
    (more : live ⊆ live') : b.InScope offers layout live' :=
  scope.mono (fun _ => id) List.prefix_rfl more

theorem Callee.Allowed.mono {callee : Callee} {args : List Tree}
    (allowed : callee.Allowed offers args) (kept : ∀ g, offers g → offers' g) :
    callee.Allowed offers' args := by
  cases callee with
  | scalar | vararg => trivial
  | generic name native overload writeback =>
      obtain ⟨signature, offered, resolved⟩ := allowed
      exact ⟨signature, kept _ offered, resolved⟩
  | composed name definition => exact kept _ allowed

theorem Built.mono {t : Tree} (built : Built offers layout live t)
    (kept : ∀ g, offers g → offers' g) (grown : layout <+: layout') (more : live ⊆ live') :
    Built offers' layout' live' t := by
  -- For every larger set of slots, since statements and loops add slots of their own to it.
  induction built generalizing live' with
  | null => exact .null
  | number x => exact .number x
  | text s => exact .text s
  | load scope => exact .load (scope.mono kept grown more)
  | element scope indexable _ ih => exact .element (scope.mono kept grown more) indexable (ih more)
  | slice scope indexable _ _ firsts lasts =>
      exact .slice (scope.mono kept grown more) indexable (fun t inside => firsts t inside more)
        fun t inside => lasts t inside more
  | size scope => exact .size (scope.mono kept grown more)
  | apply takes _ ih => exact .apply takes fun t inside => ih t inside more
  | logic _ _ lefts rights => exact .logic (lefts more) (rights more)
  | call allowed scope _ ih =>
      exact .call (allowed.mono kept)
        (fun b inside => ⟨(scope b inside).1.mono kept grown more, (scope b inside).2⟩)
        fun t inside => ih t inside more
  | branch _ _ _ same tests yeses noes =>
      exact .branch (tests more) (yeses more) (fun t inside => noes t inside more) same
  | switch _ _ _ same sameDefault tests bodies defaults =>
      exact .switch (fun c inside => tests c inside more) (fun c inside => bodies c inside more)
        (fun t inside => defaults t inside more) same sameDefault
  | whileLoop _ _ tests bodies => exact .whileLoop (tests more) (bodies more)
  | @forLoop _ first _ _ _ _ _ _ _ firsts tests steps bodies =>
      have further := append_subset_append (first.toList.flatMap Tree.declares) more
      exact .forLoop (fun t inside => firsts t inside more)
        (fun t inside => tests t inside further) (fun t inside => steps t inside further)
        (bodies further)
  | repeatLoop _ _ bodies stops => exact .repeatLoop (bodies more) (stops more)
  | breakLoop _ ih => exact .breakLoop fun t inside => ih t inside more
  | continueLoop => exact .continueLoop
  | returnList _ ih => exact .returnList fun t inside => ih t inside more
  | sequence _ ih =>
      exact .sequence fun before t after split =>
        ih before t after split (append_subset_append _ more)
  | declare laid _ ih =>
      exact .declare (kind_grown grown laid) fun t inside => ih t inside more
  | assign scope reach _ _ indices values =>
      exact .assign (scope.mono kept grown more) reach (fun t inside => indices t inside more)
        (values more)
  | swap leftScope rightScope leftReach rightReach same _ _ lefts rights =>
      exact .swap (leftScope.mono kept grown more) (rightScope.mono kept grown more) leftReach
        rightReach same (fun t inside => lefts t inside more) fun t inside => rights t inside more

end

end MathScript
