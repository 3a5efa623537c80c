import MathScript.Proofs.Lengths
import MathScript.Proofs.Ranges

/-!
Ranges of strings that are written. A text is laid into a string from where the range starts, as far
as the range and the text go; the string keeps its length and all of its other characters. The
range is in the same place afterwards: reading it gives what was laid into it, and writing it again
changes nothing.
-/

namespace MathScript

namespace Range

section

variable {α : Type} {old text new new' room : List α} {start stop : Nat}

/-- The items of a text stand in a list from `start` to `stop`; where the text has ended, and
outside of the range, the list is as it was. -/
structure Inlaid (old text new : List α) (start stop : Nat) : Prop where
  length : new.length = old.length
  outside : ∀ i, i < start ∨ stop ≤ i → new[i]? = old[i]?
  inside : ∀ i, start ≤ i → i < stop → new[i]? = text[i - start]?.or old[i]?

namespace Inlaid

theorem unique (left : Inlaid old text new start stop) (right : Inlaid old text new' start stop) :
    new = new' := by
  apply List.ext_getElem?
  intro i
  by_cases within : start ≤ i ∧ i < stop
  · rw [left.inside i within.1 within.2, right.inside i within.1 within.2]
  · rw [left.outside i (by omega), right.outside i (by omega)]

/-- What a text has been laid into is as if the text had just been laid into it. -/
theorem again (inlaid : Inlaid old text new start stop) : Inlaid new text new start stop where
  length := rfl
  outside _ _ := rfl
  inside i low high := by
    rw [inlaid.inside i low high]
    cases text[i - start]? <;> rfl

end Inlaid

/-- A text in the room it is given: what does not fit is cut off, and what it does not fill stays
as it was. -/
def inlay (text room : List α) : List α := text.take room.length ++ room.drop text.length

theorem length_inlay (text room : List α) : (inlay text room).length = room.length := by
  simp only [inlay, List.length_append, List.length_take, List.length_drop]
  omega

theorem getElem?_inlay {i : Nat} (inside : i < room.length) :
    (inlay text room)[i]? = text[i]?.or room[i]? := by
  unfold inlay
  by_cases reached : i < text.length
  · rw [List.getElem?_append_left (by simp; omega), List.getElem?_take_of_lt inside,
      List.getElem?_eq_getElem reached, Option.some_or]
  · have ended : text[i]? = none := List.getElem?_eq_none (by omega)
    have taken : (text.take room.length).length = text.length := by simp; omega
    rw [List.getElem?_append_right (by omega), taken, List.getElem?_drop, ended, Option.none_or,
      Nat.add_sub_cancel' (by omega)]

theorem inlaid_between (before room after text : List α) :
    Inlaid (before ++ room ++ after) text (before ++ inlay text room ++ after) before.length
      (before ++ room).length where
  length := by simp [length_inlay]
  outside i apart := by
    have same := length_inlay text room
    grind
  inside i low high := by
    have same := length_inlay text room
    rw [List.length_append] at high
    rw [List.getElem?_append_left (by simp; omega), List.getElem?_append_right low,
      List.getElem?_append_left (by simp; omega), List.getElem?_append_right low,
      getElem?_inlay (by omega)]

theorem Run.eq (part : Run old room start stop) : room = (old.drop start).take (stop - start) := by
  obtain ⟨before, after, rfl, rfl, rfl⟩ := part
  simp

/-- Where a text has been laid into a list there is now the text in its room. -/
theorem Inlaid.run (inlaid : Inlaid old text new start stop) (part : Run old room start stop) :
    Run new (inlay text room) start stop := by
  obtain ⟨before, after, rfl, rfl, rfl⟩ := part
  refine ⟨before, after, inlaid.unique (inlaid_between before room after text), rfl, ?_⟩
  simp [length_inlay]

end

/-! ### Strings -/

theorem clamp_ordered (n : Nat) (first last : Float) :
    (clamp n first last).1 ≤ (clamp n first last).2 :=
  Nat.le_max_right _ _

theorem clamp_inside (n : Nat) (first last : Float) : (clamp n first last).2 ≤ n := by
  have opening := Index.hold_le n first
  have ending := Index.hold_le n (last + 1)
  unfold clamp
  dsimp only
  split <;> omega

theorem run_clamp (cs : List Char) (first last : Float) :
    Run cs (cut cs first last) (clamp cs.length first last).1 (clamp cs.length first last).2 :=
  run_cut (clamp_ordered _ _ _) (clamp_inside _ _ _)

theorem inlaid_overwrite {cs room : List Char} {start stop : Nat} (part : Run cs room start stop)
    (text : List Char) : Inlaid cs text (overwrite cs start stop text) start stop := by
  obtain ⟨before, after, rfl, rfl, rfl⟩ := part
  simpa [overwrite, inlay] using inlaid_between before room after text

variable (s text : String) (first last : Float)

theorem inlaid_overwriteText :
    Inlaid s.toList text.toList (overwriteText s first last text).toList
      (clamp s.toList.length first last).1 (clamp s.toList.length first last).2 := by
  rw [overwriteText, String.toList_ofList]
  exact inlaid_overwrite (run_clamp s.toList first last) text.toList

theorem length_overwriteText :
    (overwriteText s first last text).toList.length = s.toList.length :=
  (inlaid_overwriteText s text first last).length

/-- The range is where it was, as the string is as long as it was. -/
theorem clamp_overwriteText :
    clamp (overwriteText s first last text).toList.length first last =
      clamp s.toList.length first last := by
  rw [length_overwriteText]

theorem cut_overwriteText :
    cut (overwriteText s first last text).toList first last =
      inlay text.toList (cut s.toList first last) := by
  have laid := (inlaid_overwriteText s text first last).run (run_clamp s.toList first last)
  rw [laid.eq, cut, clamp_overwriteText]

theorem overwriteText_overwriteText :
    overwriteText (overwriteText s first last text) first last text =
      overwriteText s first last text := by
  have again := inlaid_overwriteText (overwriteText s first last text) text first last
  rw [clamp_overwriteText] at again
  exact String.toList_inj.mp (again.unique (inlaid_overwriteText s text first last).again)

theorem overwriteText_empty : overwriteText "" first last text = "" := by
  have length := length_overwriteText "" text first last
  exact String.toList_inj.mp (List.eq_nil_of_length_eq_zero length)

end Range

namespace Machine

/-- What is written as a string reads as what was written, if nothing is written for nothing. -/
theorem stringAt_modify (m : Machine) (p : Place) {f : String → String} (empty : f "" = "") :
    (m.modifyString p f).stringAt p = f (m.stringAt p) := by
  cases p with
  | string c =>
      simp only [stringAt, read, modifyString, Store.modifyString, Store.string,
        Array.getD_eq_getD_getElem?, Array.getElem?_modify, Value.asString]
      cases m.store.strings[c.index]? <;> simp [empty]
  | slot i kind =>
      simp only [stringAt, read, modifyString, slot, Array.getD_eq_getD_getElem?,
        Array.getElem?_modify]
      cases m.locals[i]? with
      | none => simp [empty, Value.asString]
      | some v => cases v <;> simp [empty, Value.asString]
  | scalar | constant | vector => exact empty.symm

theorem modifyString_overwriteText (m : Machine) (p : Place) (first last : Float)
    (text : String) :
    m.modifyString p (fun old => Range.overwriteText old first last text) =
      m.modifyString p fun _ => Range.overwriteText (m.stringAt p) first last text :=
  modifyString_congr rfl

theorem stringAt_overwriteText (m : Machine) (p : Place) (first last : Float) (text : String) :
    (m.modifyString p fun _ => Range.overwriteText (m.stringAt p) first last text).stringAt p =
      Range.overwriteText (m.stringAt p) first last text := by
  rw [← modifyString_overwriteText]
  exact m.stringAt_modify p (Range.overwriteText_empty text first last)

theorem modify_self {α : Type} {xs : Array α} {i : Nat} {f : α → α}
    (same : ∀ x, xs[i]? = some x → f x = x) : xs.modify i f = xs := by
  apply Array.ext_getElem?
  intro j
  rw [Array.getElem?_modify]
  split
  · next at_ =>
    subst at_
    cases found : xs[i]? with
    | none => rfl
    | some x => simp [same x found]
  · rfl

/-- Writing what is there changes nothing. -/
theorem modifyString_stringAt {m : Machine} {p : Place} {s : String} (same : m.stringAt p = s) :
    m.modifyString p (fun _ => s) = m := by
  subst same
  cases p with
  | string c =>
      have strings : m.store.strings.modify c.index (fun _ => m.stringAt (.string c)) =
          m.store.strings := modify_self fun s found => by
        simp [stringAt, read, Value.asString, Store.string, Array.getD_eq_getD_getElem?, found]
      simp only [modifyString, Store.modifyString, strings]
  | slot i kind =>
      simp only [modifyString]
      rw [modify_self fun v found => ?_]
      cases v with
      | string s => simp [stringAt, read, Value.asString, slot, Array.getD_eq_getD_getElem?, found]
      | null | scalar | vector => rfl
  | scalar | constant | vector => rfl

end Machine

/-! ### Assignments -/

namespace Eval

variable {b : Binding} {m : Machine}

theorem slice_string (check : Option Check) (string : b.kind = .string) (x y : Option Float) :
    slice check b x y m = .ok (.string (String.ofList
      (Range.cut (m.stringAt b.place).toList (x.getD 0) (y.getD infinity)))) m := by
  simp only [slice, string, Range.substring_eq]
  rfl

/-- A range that is assigned to is overwritten, and what is yielded is what the string then is. -/
theorem assign_range (check : Option Check) (x y : Option Float) (op : AssignOp) (v : Value)
    {written : String} (text : Range.overwriteText (m.stringAt b.place) (x.getD 0)
      (y.getD infinity) v.asString = written) :
    assign check (.range b x y) op v m =
      .ok (.string written) (m.modifyString b.place fun _ => written) := by
  subst text
  simp only [assign, bind, EStateM.bind, modify, modifyGet, MonadStateOf.modifyGet,
    EStateM.modifyGet, Machine.modifyString_overwriteText, stringOf,
    Machine.stringAt_overwriteText]
  rfl

end Eval

/-- A range of a string is written in place. Let the value and the bounds of an assignment be
evaluated. The string keeps its length, and its characters outside of the range; in the range stand
the characters of the text and, where that is shorter, the old ones. The range reads so afterwards,
nothing else has changed, and the same assignment changes nothing any more. -/
theorem string_ranges_written_in_place {host : Host} {invoke : Invoke} {b : Binding}
    (string : b.kind = .string) {value : Tree} {first last : Option Tree} {m m₁ m₂ : Machine}
    {v : Value} {x y : Option Float} (evaluates : value.eval host invoke m = .ok v m₁)
    (aims : Tree.evalTarget host invoke (.range b first last) m₁ = .ok (.range b x y) m₂) :
    let old := (m₂.stringAt b.place).toList
    let text := v.asString.toList
    ∃ start stop room new m',
      Range.clamp old.length (x.getD 0) (y.getD Eval.infinity) = (start, stop) ∧
      (old.length ≤ 2 ^ 53 → Range.Covers old.length x y start stop) ∧
      Range.Run old room start stop ∧
      Eval.slice host.check b x y m₂ = .ok (.string (String.ofList room)) m₂ ∧
      Range.Inlaid old text new start stop ∧
      (Tree.assign (.range b first last) .set value).eval host invoke m =
        .ok (.string (String.ofList new)) m' ∧
      m' = m₂.modifyString b.place (fun _ => String.ofList new) ∧
      m'.stringAt b.place = String.ofList new ∧
      Eval.slice host.check b x y m' =
        .ok (.string (String.ofList (Range.inlay text room))) m' ∧
      Eval.assign host.check (.range b x y) .set v m' = .ok (.string (String.ofList new)) m' := by
  intro old text
  let low := x.getD 0
  let high := y.getD Eval.infinity
  let written := Range.overwriteText (m₂.stringAt b.place) low high v.asString
  let m' := m₂.modifyString b.place fun _ => written
  have spelled : String.ofList written.toList = written := String.ofList_toList
  have holds : m'.stringAt b.place = written := m₂.stringAt_overwriteText b.place low high _
  have again : Range.overwriteText (m'.stringAt b.place) low high v.asString = written := by
    rw [holds]
    exact Range.overwriteText_overwriteText _ _ _ _
  have assigned : Eval.assign host.check (.range b x y) .set v m₂ = .ok (.string written) m' :=
    Eval.assign_range host.check x y .set v rfl
  -- Reading it again finds the range where it was, since the string is as long as it was.
  have reread := Eval.slice_string (m := m') host.check string x y
  rw [holds, Range.cut_overwriteText] at reread
  refine ⟨_, _, Range.cut old low high, written.toList, m', rfl,
    fun small => Range.clamp_covers small x y, Range.run_clamp old low high,
    Eval.slice_string host.check string x y, Range.inlaid_overwriteText _ _ low high, ?_, ?_, ?_,
    reread, ?_⟩
  · rw [spelled, Tree.eval, bind_completed evaluates, bind_completed aims, assigned]
  · rw [spelled]
  · rw [spelled, holds]
  · rw [spelled, Eval.assign_range host.check x y .set v again,
      Machine.modifyString_stringAt holds]

/-- Three characters for a range of two, of which the last one is cut off. -/
theorem string_ranges_written_in_place_of_three :
    let m : Machine := ⟨⟨#[], #[], #["abcdef"], #[]⟩, #[], #[]⟩
    let b : Binding := ⟨"s", .string ⟨0⟩, true⟩
    let host : Host := ⟨#[], fun _ => none, none, 0, 0⟩
    let written : Tree :=
      .assign (.range b (some (.number 1)) (some (.number 2))) .set (.text "XYZ")
    ∃ m', written.eval host (host.invoke 0) m = .ok (.string "aXYdef") m' ∧
      m'.stringAt b.place = "aXYdef" ∧
      Eval.slice none b (some 1) (some 2) m' = .ok (.string "XY") m' ∧
      Eval.assign none (.range b (some 1) (some 2)) .set (.string "XYZ") m' =
        .ok (.string "aXYdef") m' := by
  intro m b host written
  have evaluates : (Tree.text "XYZ").eval host (host.invoke 0) m = .ok (.string "XYZ") m := rfl
  have aims : Tree.evalTarget host (host.invoke 0)
      (.range b (some (.number 1)) (some (.number 2))) m =
      .ok (.range b (some 1) (some 2)) m := rfl
  obtain ⟨start, stop, room, new, m', -, -, -, read, -, done, -, holds, reread, again⟩ :=
    string_ranges_written_in_place rfl evaluates aims
  have value : (written.eval host (host.invoke 0)).run' m = some (.string "aXYdef") := by
    decide +kernel
  have before : (Eval.slice host.check b (some 1) (some 2)).run' m = some (.string "bc") := by
    decide +kernel
  have new_eq : String.ofList new = "aXYdef" := by
    simpa only [EStateM.run', EStateM.run, written, done, Option.some.injEq,
      Value.string.injEq] using value
  have room_eq : String.ofList room = "bc" := by
    simpa only [EStateM.run', EStateM.run, read, Option.some.injEq,
      Value.string.injEq] using before
  obtain rfl : room = ['b', 'c'] := String.ofList_inj.mp room_eq
  rw [new_eq] at done holds again
  exact ⟨m', done, holds, reread, again⟩

end MathScript
