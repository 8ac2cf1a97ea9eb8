/-
# Attributes

The value of an attribute is one decoded literal, the bare name of the attribute, or text.
An attribute dictionary keeps its entries in the order in which their names were first set;
setting a name again replaces its value in place.

* `Attributes.keys_insert` : a new name goes to the end, a known one keeps its place;
* `Attributes.get?_insert` : the last value set for a name is the one found.
-/
import GenericIR.Binary64.Text
import GenericIR.Text.Integer

namespace GenericIR

/-! ## Values -/

/-- The value of an attribute. -/
inductive AttributeValue where
  | bool (b : Bool)
  | integer (n : Int64)
  | float (x : Binary64)
  /-- A string literal after its escapes. -/
  | str (s : String)
  /-- An attribute with no value, which stands for its own name. -/
  | unit (name : String)
  /-- Any other value, as the text of its tokens joined by single spaces. -/
  | opaqueText (text : String)
deriving DecidableEq, Repr

namespace AttributeValue

/-- The boolean of a boolean value. -/
def bool? : AttributeValue → Option Bool
  | bool b => some b
  | _ => none

/-- The integer of an integer value. -/
def integer? : AttributeValue → Option Int64
  | integer n => some n
  | _ => none

/-- The double of a float value. -/
def float? : AttributeValue → Option Binary64
  | float x => some x
  | _ => none

/-- The text of a string, unit or opaque value. -/
def text? : AttributeValue → Option String
  | str s | unit s | opaqueText s => some s
  | _ => none

/-- Whether a value was kept as the text of its tokens. -/
def isOpaque : AttributeValue → Bool
  | opaqueText _ => true
  | _ => false

/-- The written form of a value. -/
def render : AttributeValue → String
  | bool b => if b then "true" else "false"
  | integer n => String.ofList (integerText n.toInt)
  | float x => x.render
  | str s | unit s | opaqueText s => s

end AttributeValue

/-! ## Entries in order -/

/-- Replaces the value of the first entry of a name, or adds an entry at the end. -/
def setEntry {α : Type} (name : String) (value : α) : List (String × α) → List (String × α)
  | [] => [(name, value)]
  | entry :: rest =>
    if entry.1 = name then (name, value) :: rest else entry :: setEntry name value rest

/-- A new name goes to the end of the names, a known one keeps its place. -/
theorem map_fst_setEntry {α : Type} (name : String) (value : α) (es : List (String × α)) :
    (setEntry name value es).map Prod.fst =
      if name ∈ es.map Prod.fst then es.map Prod.fst else es.map Prod.fst ++ [name] := by
  induction es with
  | nil => simp [setEntry]
  | cons e rest ih =>
      by_cases h : e.1 = name
      · simp [setEntry, h]
      · have hne : name ≠ e.1 := fun hn => h hn.symm
        by_cases hm : name ∈ rest.map Prod.fst
        · simp only [setEntry, h, if_false, List.map_cons, ih, hm, if_true, List.mem_cons,
            or_true]
        · simp only [setEntry, h, if_false, List.map_cons, ih, hm, List.mem_cons, hne,
            or_self, List.cons_append]

/-- Setting an entry keeps names distinct. -/
theorem nodup_setEntry {α : Type} (name : String) (value : α) (es : List (String × α))
    (h : (es.map Prod.fst).Nodup) : ((setEntry name value es).map Prod.fst).Nodup := by
  rw [map_fst_setEntry]
  split
  · exact h
  · next hm =>
      refine List.nodup_append.mpr ⟨h, by simp, ?_⟩
      intro a ha b hb hab
      exact hm (by simpa [hab, List.mem_singleton.mp hb] using ha)

/-- The value looked up after setting an entry. -/
theorem lookup_setEntry {α : Type} (name key : String) (value : α) (es : List (String × α)) :
    (setEntry name value es).lookup key = if key = name then some value else es.lookup key := by
  induction es with
  | nil =>
      by_cases h : key = name
      · simp [setEntry, h]
      · have hb : (key == name) = false := by simpa using h
        simp [setEntry, List.lookup_cons, hb, h]
  | cons e rest ih =>
      obtain ⟨k, v⟩ := e
      by_cases h : k = name
      · by_cases hk : key = name
        · simp [setEntry, h, hk]
        · have hkn : (key == name) = false := by simpa using hk
          simp [setEntry, h, hk, List.lookup_cons, hkn]
      · by_cases hk : key = k
        · have hn : key ≠ name := fun hn => h (hk ▸ hn)
          simp [setEntry, h, hk]
        · have hkk : (key == k) = false := by simpa using hk
          simp [setEntry, h, List.lookup_cons, hkk, ih]

/-! ## Dictionaries -/

/-- Attributes with distinct names, in the order in which the names were first set. -/
structure Attributes where
  entries : List (String × AttributeValue)
  distinct : (entries.map Prod.fst).Nodup
deriving DecidableEq

namespace Attributes

/-- No attributes. -/
def empty : Attributes := ⟨[], by simp⟩

instance : Inhabited Attributes := ⟨empty⟩

/-- Sets the value of a name. -/
def insert (as : Attributes) (name : String) (value : AttributeValue) : Attributes :=
  ⟨setEntry name value as.entries, nodup_setEntry name value as.entries as.distinct⟩

/-- The value of a name. -/
def get? (as : Attributes) (name : String) : Option AttributeValue := as.entries.lookup name

/-- The names in order. -/
def keys (as : Attributes) : List String := as.entries.map Prod.fst

/-- Whether there are no attributes. -/
def isEmpty (as : Attributes) : Bool := as.entries.isEmpty

/-- A new name goes to the end, a known one keeps its place. -/
theorem keys_insert (as : Attributes) (name : String) (value : AttributeValue) :
    (as.insert name value).keys = if name ∈ as.keys then as.keys else as.keys ++ [name] :=
  map_fst_setEntry name value as.entries

/-- The last value set for a name is the one found. -/
theorem get?_insert (as : Attributes) (name key : String) (value : AttributeValue) :
    (as.insert name value).get? key = if key = name then some value else as.get? key :=
  lookup_setEntry name key value as.entries

end Attributes

end GenericIR
