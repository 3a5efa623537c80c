/-!
Lists of named things. Of several entries with one name the first counts; `put` and `erase`
leave no other.
-/

namespace MathScript.Named

variable {α : Type}

def erase (name : String) (entries : List (String × α)) : List (String × α) :=
  entries.filter fun e => e.1 != name

def put (name : String) (item : α) (entries : List (String × α)) : List (String × α) :=
  (name, item) :: erase name entries

theorem erase_subset (name : String) (entries : List (String × α)) : erase name entries ⊆ entries :=
  fun _ inside => (List.mem_filter.mp inside).1

theorem not_mem_erase (name : String) (item : α) (entries : List (String × α)) :
    (name, item) ∉ erase name entries := by
  simp [erase]

theorem lookup_erase_self (name : String) (entries : List (String × α)) :
    (erase name entries).lookup name = none := by
  simp only [erase, List.lookup_eq_none_iff, List.mem_filter, bne_iff_ne]
  intro e kept
  exact Ne.symm kept.2

theorem lookup_erase_of_ne {name other : String} (different : other ≠ name)
    (entries : List (String × α)) : (erase name entries).lookup other = entries.lookup other := by
  induction entries with
  | nil => rfl
  | cons e rest ih =>
      obtain ⟨key, item⟩ := e
      by_cases same : key = name
      · have skipped : (other == key) = false := by simpa [same] using different
        rw [List.lookup_cons, skipped, ← ih]
        simp [erase, same]
      · have kept : erase name ((key, item) :: rest) = (key, item) :: erase name rest := by
          simp [erase, same]
        rw [kept, List.lookup_cons, List.lookup_cons, ih]

theorem erase_of_lookup_eq_none {name : String} {entries : List (String × α)}
    (absent : entries.lookup name = none) : erase name entries = entries := by
  rw [List.lookup_eq_none_iff] at absent
  simp only [erase, List.filter_eq_self, bne_iff_ne]
  exact fun e inside => Ne.symm (by simpa using absent e inside)

theorem mem_of_lookup_eq_some {name : String} {item : α} {entries : List (String × α)}
    (found : entries.lookup name = some item) : (name, item) ∈ entries := by
  obtain ⟨front, rest, rfl, -⟩ := List.lookup_eq_some_iff.mp found
  simp

theorem lookup_eq_some_of_mem {name : String} {item : α} {entries : List (String × α)}
    (distinct : (entries.map Prod.fst).Nodup) (inside : (name, item) ∈ entries) :
    entries.lookup name = some item := by
  obtain ⟨front, rest, rfl⟩ := List.append_of_mem inside
  refine List.lookup_eq_some_iff.mpr ⟨front, rest, rfl, fun e before => ?_⟩
  -- An entry of the same name in front would be a second one.
  simp only [List.map_append, List.map_cons, List.nodup_append] at distinct
  have apart := distinct.2.2 e.1 (List.mem_map_of_mem before) name List.mem_cons_self
  simpa using Ne.symm apart

theorem nodup_put {entries : List (String × α)} (distinct : (entries.map Prod.fst).Nodup)
    (name : String) (item : α) : ((put name item entries).map Prod.fst).Nodup := by
  rw [put, List.map_cons, List.nodup_cons]
  constructor
  · rintro inside
    obtain ⟨⟨_, other⟩, kept, rfl⟩ := List.mem_map.mp inside
    exact not_mem_erase _ other entries kept
  · exact distinct.sublist (List.filter_sublist.map Prod.fst)

theorem lookup_put_self (name : String) (item : α) (entries : List (String × α)) :
    (put name item entries).lookup name = some item := by
  simp [put]

theorem lookup_put_of_ne {name other : String} (different : other ≠ name) (item : α)
    (entries : List (String × α)) :
    (put name item entries).lookup other = entries.lookup other := by
  have skipped : (other == name) = false := by simpa using different
  simp [put, List.lookup_cons, skipped, lookup_erase_of_ne different]

end MathScript.Named
