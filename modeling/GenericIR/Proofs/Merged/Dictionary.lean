/-
# Entries set one after the other

Setting entries one after the other gives attributes in which every name of an entry stands once,
where it was set first, with the value it was set to last.

* `LastIn` : an entry that no later one has the name of;
* `MergedFrom` : attributes by the entries that were set, in order;
* `MergedFrom.insert`, `MergedFrom.insertAll` : one more entry, and any number of them.
-/
import Mathlib.Data.List.Basic
import GenericIR.Grammar.Attribute

namespace GenericIR

/-! ## The last entry with a name -/

/-- Whether an entry is among others and none behind it has the same name. -/
def LastIn (entries : List (String × AttributeValue)) (name : String) (value : AttributeValue) :
    Prop :=
  ∃ front back, entries = front ++ (name, value) :: back ∧ name ∉ back.map Prod.fst

/-- Behind other entries, an entry is the last one with its name. -/
theorem lastIn_concat_iff {entries : List (String × AttributeValue)} {name key : String}
    {value v : AttributeValue} :
    LastIn (entries ++ [(name, value)]) key v ↔
      if key = name then value = v else LastIn entries key v := by
  constructor
  · rintro ⟨front, back, hsplit, hback⟩
    rcases List.eq_nil_or_concat back with rfl | ⟨back, last, rfl⟩
    · obtain ⟨_, hlast⟩ := List.append_inj' hsplit rfl
      cases hlast
      rw [if_pos rfl]
    · rw [List.concat_eq_append] at hsplit hback
      have hassoc : entries ++ [(name, value)] = (front ++ (key, v) :: back) ++ [last] := by
        rw [hsplit, List.append_assoc, List.cons_append]
      obtain ⟨rfl, hlast⟩ := List.append_inj' hassoc rfl
      obtain rfl := (List.cons.inj hlast).1
      simp only [List.map_append, List.map_cons, List.map_nil, List.mem_append,
        List.mem_singleton, not_or] at hback
      rw [if_neg hback.2]
      exact ⟨front, back, rfl, hback.1⟩
  · intro h
    by_cases hkey : key = name
    · rw [if_pos hkey] at h
      subst hkey h
      exact ⟨entries, [], rfl, List.not_mem_nil⟩
    · rw [if_neg hkey] at h
      obtain ⟨front, back, rfl, hback⟩ := h
      refine ⟨front, back ++ [(name, value)], by simp, ?_⟩
      simp only [List.map_append, List.map_cons, List.map_nil, List.mem_append,
        List.mem_singleton, not_or]
      exact ⟨hback, hkey⟩

/-! ## Attributes by their entries -/

/-- An entry of a list with distinct names is the one that is found by its name. -/
theorem mem_iff_lookup {es : List (String × AttributeValue)} (h : (es.map Prod.fst).Nodup)
    (name : String) (value : AttributeValue) :
    (name, value) ∈ es ↔ es.lookup name = some value := by
  induction es with
  | nil => simp
  | cons e es ih =>
      obtain ⟨key, v⟩ := e
      rw [List.map_cons, List.nodup_cons] at h
      rw [List.mem_cons, List.lookup_cons]
      by_cases hname : name = key
      · subst hname
        have hnone : (name, value) ∉ es := fun hmem =>
          h.1 (List.mem_map.mpr ⟨(name, value), hmem, rfl⟩)
        simp [hnone, eq_comm]
      · have hother : (name == key) = false := by simpa using hname
        rw [hother, ← ih h.2]
        simp [hname]

/-- An entry of attributes is the one that is found by its name. -/
theorem Attributes.mem_entries_iff (as : Attributes) (name : String) (value : AttributeValue) :
    (name, value) ∈ as.entries ↔ as.get? name = some value :=
  mem_iff_lookup as.distinct name value

/-- Attributes that entries were set to, one after the other: they have the names of the entries,
each of them once, in the order in which they come first, and each with the value of the last entry
that has it. -/
structure MergedFrom (entries : List (String × AttributeValue)) (as : Attributes) : Prop where
  names : ∀ name, name ∈ as.keys ↔ name ∈ entries.map Prod.fst
  once : as.keys.Nodup
  ordered : as.keys.Pairwise fun a b =>
    (entries.map Prod.fst).idxOf a < (entries.map Prod.fst).idxOf b
  values : ∀ name value, (name, value) ∈ as.entries ↔ LastIn entries name value

namespace MergedFrom

variable {entries : List (String × AttributeValue)} {as : Attributes}

/-- No attributes come from no entries. -/
theorem empty : MergedFrom [] .empty where
  names _ := Iff.rfl
  once := List.nodup_nil
  ordered := .nil
  values name value := by
    constructor
    · intro h
      cases h
    · rintro ⟨front, back, hsplit, _⟩
      exact absurd hsplit (by simp)

/-- One more entry that is set is one more entry they come from. -/
theorem insert (h : MergedFrom entries as) (name : String) (value : AttributeValue) :
    MergedFrom (entries ++ [(name, value)]) (as.insert name value) where
  names key := by
    rw [as.keys_insert, List.map_append, List.mem_append, ← h.names key]
    by_cases hname : name ∈ as.keys
    · rw [if_pos hname]
      refine ⟨Or.inl, fun hkey => hkey.elim id fun hkey => ?_⟩
      rw [List.mem_singleton.mp hkey]
      exact hname
    · rw [if_neg hname, List.mem_append]
      rfl
  once := (as.insert name value).distinct
  ordered := by
    -- the names that were set before keep their places among the entries
    have hbefore : ∀ a ∈ as.keys, (entries.map Prod.fst ++ [name]).idxOf a =
        (entries.map Prod.fst).idxOf a := fun a ha =>
      List.idxOf_append_of_mem ((h.names a).mp ha)
    have hkept : as.keys.Pairwise fun a b => (entries.map Prod.fst ++ [name]).idxOf a <
        (entries.map Prod.fst ++ [name]).idxOf b :=
      h.ordered.imp_of_mem fun ha hb hlt => by rwa [hbefore _ ha, hbefore _ hb]
    rw [as.keys_insert, List.map_append]
    show List.Pairwise (fun a b => (entries.map Prod.fst ++ [name]).idxOf a <
      (entries.map Prod.fst ++ [name]).idxOf b) _
    by_cases hname : name ∈ as.keys
    · rwa [if_pos hname]
    · rw [if_neg hname, List.pairwise_append]
      refine ⟨hkept, List.pairwise_singleton _ _, fun a ha b hb => ?_⟩
      obtain rfl := List.mem_singleton.mp hb
      have hnew : b ∉ entries.map Prod.fst := fun hmem => hname ((h.names b).mpr hmem)
      rw [hbefore a ha, List.idxOf_append_of_notMem hnew]
      exact Nat.lt_of_lt_of_le (List.idxOf_lt_length_of_mem ((h.names a).mp ha))
        (Nat.le_add_right _ _)
  values key v := by
    rw [Attributes.mem_entries_iff, as.get?_insert, lastIn_concat_iff]
    by_cases hkey : key = name
    · rw [if_pos hkey, if_pos hkey, Option.some.injEq]
    · rw [if_neg hkey, if_neg hkey, ← Attributes.mem_entries_iff, h.values]

/-- So are any number of entries. -/
theorem insertAll (h : MergedFrom entries as) (more : List (String × AttributeValue)) :
    MergedFrom (entries ++ more) (as.insertAll more) := by
  induction more generalizing entries as with
  | nil => rwa [List.append_nil]
  | cons e more ih =>
      have hall := ih (h.insert e.1 e.2)
      rwa [List.append_assoc] at hall

end MergedFrom

/-- The first entry decides where a name stands, the last one what its value is. -/
example : (Attributes.empty.insertAll
    [("a", .integer 1), ("b", .unit "b"), ("a", .integer 3)]).entries =
      [("a", .integer 3), ("b", .unit "b")] := by decide

end GenericIR
