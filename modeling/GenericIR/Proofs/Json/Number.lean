/-
# Numbers in documents and the choice of a float printer

The number grammar of JSON, and documents written with any printer of doubles that keeps to
it and tells finite doubles apart.  The words of a document are its numbers, its truth values
and `null`, which also stands for the doubles that are not finite.

* `Json.IsNumber` : the number grammar;
* `Json.FloatPrinter` : what is asked of a printer of doubles;
* `Json.written_float_eq_iff` : doubles are told apart unless neither is finite;
* `Json.written_ofList_eq_iff`, `Json.written_object_eq_iff` : lists are told apart item by
  item and objects member by member.
-/
import GenericIR.Proofs.Json.Written
import Mathlib.Data.List.Forall2

namespace GenericIR.Json

/-! ## The number grammar -/

/-- A run of decimal digits that is not empty. -/
def IsDigits (ds : List Char) : Prop := ds ≠ [] ∧ ∀ c ∈ ds, c.isDigit

/-- The whole part of a number: digits, with no zero in front of another digit. -/
def IsWhole (ds : List Char) : Prop := IsDigits ds ∧ (ds.head? = some '0' → ds = ['0'])

/-- The fraction of a number, if it has one. -/
inductive IsFraction : List Char → Prop
  | none : IsFraction []
  | point {ds : List Char} (h : IsDigits ds) : IsFraction ('.' :: ds)

/-- The power of ten of a number, if it has one. -/
inductive IsPower : List Char → Prop
  | none : IsPower []
  | power {e : Char} {sign ds : List Char} (he : e ∈ ['e', 'E'])
    (hsign : sign ∈ [[], ['+'], ['-']]) (hds : IsDigits ds) : IsPower (e :: sign ++ ds)

/-- A number without a sign: a whole part, a fraction and a power of ten. -/
def IsUnsigned (text : List Char) : Prop :=
  ∃ whole fraction power : List Char, IsWhole whole ∧ IsFraction fraction ∧ IsPower power ∧
    text = whole ++ fraction ++ power

/-- A number, behind a minus sign or not. -/
def IsNumber (text : List Char) : Prop :=
  ∃ sign unsigned : List Char, sign ∈ [[], ['-']] ∧ IsUnsigned unsigned ∧ text = sign ++ unsigned

/-- A number without a sign starts with a digit. -/
theorem IsUnsigned.startsWithDigit {text : List Char} (h : IsUnsigned text) :
    startsWithDigit text := by
  obtain ⟨whole, fraction, power, hwhole, _, _, rfl⟩ := h
  obtain ⟨c, rest, rfl⟩ := List.exists_cons_of_ne_nil hwhole.1.1
  exact hwhole.1.2 c List.mem_cons_self

/-- The characters of numbers besides the digits. -/
def numberSigns : List Char := ['-', '+', '.', 'e', 'E']

/-- A number is made of digits and of the signs of numbers. -/
theorem IsNumber.isDigit_or_mem {text : List Char} (h : IsNumber text) {c : Char}
    (hc : c ∈ text) : c.isDigit ∨ c ∈ numberSigns := by
  obtain ⟨sign, _, hsign, ⟨whole, fraction, power, hwhole, hfraction, hpower, rfl⟩, rfl⟩ := h
  simp only [List.mem_append] at hc
  obtain hc | (hc | hc) | hc := hc
  · have hsub : ∀ s ∈ [[], ['-']], s ⊆ numberSigns := by decide
    exact .inr (hsub sign hsign hc)
  · exact .inl (hwhole.1.2 c hc)
  · cases hfraction with
    | none => cases hc
    | point h =>
        obtain rfl | hc := List.mem_cons.mp hc
        · exact .inr (by decide)
        · exact .inl (h.2 c hc)
  · cases hpower with
    | none => cases hc
    | @power e sign ds he hsign hds =>
        have hsub : ∀ s ∈ [[], ['+'], ['-']], s ⊆ numberSigns := by decide
        have hletter : ['e', 'E'] ⊆ numberSigns := by decide
        rw [List.cons_append, List.mem_cons, List.mem_append] at hc
        obtain rfl | hc | hc := hc
        · exact .inr (hletter he)
        · exact .inr (hsub sign hsign hc)
        · exact .inl (hds.2 c hc)

/-- A number has no marks in it. -/
theorem IsNumber.plain {text : List Char} (h : IsNumber text) : ∀ c ∈ text, c ∉ marks := by
  have hmarks : marks.all fun c => decide (¬(c.isDigit ∨ c ∈ numberSigns)) := by decide
  exact fun c hc hmark => of_decide_eq_true (List.all_eq_true.mp hmarks c hmark)
    (h.isDigit_or_mem hc)

/-- A number is not empty. -/
theorem IsNumber.ne_nil {text : List Char} (h : IsNumber text) : text ≠ [] := by
  obtain ⟨sign, _, _, ⟨whole, fraction, power, hwhole, _, _, rfl⟩, rfl⟩ := h
  simp [hwhole.1.1]

/-- A number is not `null`. -/
theorem IsNumber.ne_null {text : List Char} (h : IsNumber text) : text ≠ "null".toList := by
  rintro rfl
  have hn := h.isDigit_or_mem (c := 'n') (by decide)
  revert hn
  decide

/-- A number as a word. -/
def IsNumber.word {text : List Char} (h : IsNumber text) : Word := ⟨text, h.plain, h.ne_nil⟩

/-! ## Integers -/

/-- The digits of a natural number are a run of digits. -/
theorem isDigits_toDigits (n : Nat) : IsDigits (Nat.toDigits 10 n) :=
  ⟨Nat.toDigits_ne_nil, fun _ hc => Nat.isDigit_of_mem_toDigits (by decide) (by decide) hc⟩

/-- The digits of a natural number above zero do not begin with a zero. -/
theorem head?_toDigits_ne_zero {n : Nat} (hn : 0 < n) :
    (Nat.toDigits 10 n).head? ≠ some '0' := by
  induction n using Nat.strongRecOn with
  | ind n ih =>
      obtain hsmall | hlarge := Nat.lt_or_ge n 10
      · have hdigit : ∀ k < 10, 0 < k → [Nat.digitChar k].head? ≠ some '0' := by decide
        rw [Nat.toDigits_of_lt_base hsmall]
        exact hdigit n hsmall hn
      · rw [Nat.toDigits_of_base_le (by decide) hlarge, List.head?_append,
          Option.or_of_isSome (by simp [Nat.toDigits_ne_nil])]
        exact ih (n / 10) (by omega) (by omega)

/-- The digits of a natural number are the whole part of a number. -/
theorem isWhole_toDigits (n : Nat) : IsWhole (Nat.toDigits 10 n) := by
  refine ⟨isDigits_toDigits n, fun h => ?_⟩
  obtain rfl | hn := Nat.eq_zero_or_pos n
  · rfl
  · exact absurd h (head?_toDigits_ne_zero hn)

/-- The text of an integer is a number. -/
theorem isNumber_integerText (n : Int) : IsNumber (integerText n) := by
  have hunsigned : IsUnsigned (Nat.toDigits 10 n.natAbs) :=
    ⟨_, [], [], isWhole_toDigits n.natAbs, .none, .none, by simp⟩
  unfold integerText
  split
  · exact ⟨['-'], _, by decide, hunsigned, rfl⟩
  · exact ⟨[], _, by decide, hunsigned, rfl⟩

/-! ## Printers of doubles -/

/-- A printer of doubles that keeps to the number grammar and tells finite doubles apart. -/
structure FloatPrinter where
  text : Binary64 → List Char
  number : ∀ x, x.isFinite → IsNumber (text x)
  injective : ∀ x y, x.isFinite → y.isFinite → text x = text y → x = y

/-- The word of no value. -/
def nullWord : Word := ⟨"null".toList, not_mem_marks_of_all (by decide), by decide⟩

/-- The word of a truth value. -/
def boolWord : Bool → Word
  | true => ⟨"true".toList, not_mem_marks_of_all (by decide), by decide⟩
  | false => ⟨"false".toList, not_mem_marks_of_all (by decide), by decide⟩

/-- The word of a double: its number, or `null` where it is not finite. -/
def FloatPrinter.word (printer : FloatPrinter) (x : Binary64) : Word :=
  if h : x.isFinite then (printer.number x h).word else nullWord

end Json

/-- Two doubles that are the same or of which neither is finite. -/
def Binary64.Alike (x y : Binary64) : Prop := x = y ∨ x.isFinite = false ∧ y.isFinite = false

namespace Json

/-- A printer tells doubles apart unless neither is finite. -/
theorem FloatPrinter.word_eq_iff (printer : FloatPrinter) (x y : Binary64) :
    printer.word x = printer.word y ↔ x.Alike y := by
  by_cases hx : x.isFinite <;> by_cases hy : y.isFinite
  · have htext : printer.word x = printer.word y ↔ printer.text x = printer.text y := by
      simp [word, hx, hy, IsNumber.word]
    have hsame : printer.text x = printer.text y ↔ x = y :=
      ⟨printer.injective x y hx hy, fun h => by rw [h]⟩
    rw [htext, hsame, Binary64.Alike]
    simp [hx]
  · have hne : printer.word x ≠ printer.word y := by
      simpa [word, hx, hy, IsNumber.word, nullWord] using (printer.number x hx).ne_null
    have hxy : x ≠ y := by rintro rfl; exact hy hx
    simp [hne, Binary64.Alike, hxy, hx]
  · have hne : printer.word x ≠ printer.word y := by
      simpa [word, hx, hy, IsNumber.word, nullWord] using (printer.number y hy).ne_null.symm
    have hxy : x ≠ y := by rintro rfl; exact hx hy
    simp [hne, Binary64.Alike, hxy, hy]
  · simp [word, hx, hy, Binary64.Alike]

/-! ## Documents with a printer -/

section

variable (printer : FloatPrinter)

mutual

/-- A document as it is written, with a printer for its doubles. -/
def written : Json → Written
  | null => .word nullWord
  | bool b => .word (boolWord b)
  | integer n => .word (isNumber_integerText n).word
  | float x => .word (printer.word x)
  | string s => .string s
  | array items => .array (writtenItems items)
  | object members => .object (writtenMembers members)

/-- The items of an array as they are written. -/
def writtenItems : List Json → List Written
  | [] => []
  | item :: items => item.written :: writtenItems items

/-- The members of an object as they are written. -/
def writtenMembers : List (String × Json) → List (String × Written)
  | [] => []
  | (name, value) :: members => (name, value.written) :: writtenMembers members

end

/-- The compact text of a document, with a printer for its doubles. -/
def textWith (j : Json) : List Char := (j.written printer).text

variable {printer}

/-- Texts of documents are equal where the written documents are. -/
theorem textWith_eq_iff (j k : Json) :
    j.textWith printer = k.textWith printer ↔ j.written printer = k.written printer :=
  ⟨Written.text_injective, fun h => by rw [textWith, h, textWith]⟩

/-! ### The kinds of documents -/

/-- A truth value is written as its word. -/
theorem written_bool (b : Bool) : (bool b).written printer = .word (boolWord b) := rfl

/-- An integer is written as its text. -/
theorem written_integer (n : Int) :
    (integer n).written printer = .word (isNumber_integerText n).word := rfl

/-- A double is written as its word. -/
theorem written_float (x : Binary64) : (float x).written printer = .word (printer.word x) := rfl

/-- A string is written as itself. -/
theorem written_string (s : String) : (string s).written printer = .string s := rfl

/-- No value is written as a word of its own. -/
theorem written_null : null.written printer = .word nullWord := rfl

/-- An array is written as its items. -/
theorem written_array (items : List Json) :
    (array items).written printer = .array (writtenItems printer items) := rfl

/-- An object is written as its members. -/
theorem written_object (members : List (String × Json)) :
    (object members).written printer = .object (writtenMembers printer members) := rfl

/-! ### What tells documents apart -/

/-- The items of an array are written one by one. -/
theorem writtenItems_eq_map (items : List Json) :
    writtenItems printer items = items.map (written printer) := by
  induction items with
  | nil => rfl
  | cons item items ih =>
      show item.written printer :: writtenItems printer items = _
      rw [ih, List.map_cons]

/-- The members of an object are written one by one under their names. -/
theorem writtenMembers_eq_map (members : List (String × Json)) :
    writtenMembers printer members = members.map (Prod.map id (written printer)) := by
  induction members with
  | nil => rfl
  | cons member members ih =>
      show (member.1, member.2.written printer) :: writtenMembers printer members = _
      rw [ih, List.map_cons]
      rfl

/-- Truth values are told apart. -/
@[simp]
theorem written_bool_eq_iff (a b : Bool) :
    (bool a).written printer = (bool b).written printer ↔ a = b := by
  cases a <;> cases b <;> simp [written_bool, boolWord]

/-- Integers are told apart. -/
@[simp]
theorem written_integer_eq_iff (m n : Int) :
    (integer m).written printer = (integer n).written printer ↔ m = n := by
  simp only [written_integer, IsNumber.word, Written.word.injEq, Word.mk.injEq]
  exact ⟨integerText_injective, fun h => by rw [h]⟩

/-- Doubles are told apart unless neither is finite. -/
@[simp]
theorem written_float_eq_iff (x y : Binary64) :
    (float x).written printer = (float y).written printer ↔ x.Alike y := by
  simp only [written_float, Written.word.injEq, printer.word_eq_iff]

/-- Strings are told apart. -/
@[simp]
theorem written_string_eq_iff (a b : String) :
    (string a).written printer = (string b).written printer ↔ a = b := by
  simp only [written_string, Written.string.injEq]

/-- Optional strings are told apart, and from no string. -/
@[simp]
theorem written_ofOption_eq_iff (a b : Option String) :
    (ofOption string a).written printer = (ofOption string b).written printer ↔ a = b := by
  cases a <;> cases b <;> simp [ofOption, written_null, written_string]

/-- Lists are told apart item by item. -/
theorem written_ofList_eq_iff {α : Type} {encode : α → Json} {same : α → α → Prop}
    (hsame : ∀ a b, (encode a).written printer = (encode b).written printer ↔ same a b)
    (as bs : List α) :
    (ofList encode as).written printer = (ofList encode bs).written printer ↔
      List.Forall₂ same as bs := by
  simp only [ofList, written_array, Written.array.injEq, writtenItems_eq_map, List.map_map]
  rw [← List.forall₂_eq_eq_eq, List.forall₂_map_left_iff, List.forall₂_map_right_iff]
  simp [hsame]

/-- Lists of strings are told apart. -/
@[simp]
theorem written_ofList_string_eq_iff (as bs : List String) :
    (ofList string as).written printer = (ofList string bs).written printer ↔ as = bs := by
  rw [written_ofList_eq_iff written_string_eq_iff, List.forall₂_eq_eq_eq]

/-- Objects are told apart member by member, by the names and by the values. -/
@[simp]
theorem written_object_eq_iff (ms ns : List (String × Json)) :
    (object ms).written printer = (object ns).written printer ↔
      List.Forall₂ (fun m n => m.1 = n.1 ∧ m.2.written printer = n.2.written printer) ms ns := by
  simp only [written_object, Written.object.injEq, writtenMembers_eq_map]
  rw [← List.forall₂_eq_eq_eq, List.forall₂_map_left_iff, List.forall₂_map_right_iff]
  simp [Prod.ext_iff]

end

end GenericIR.Json
