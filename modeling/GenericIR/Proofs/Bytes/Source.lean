/-
# A source as bytes

A reader that keeps a byte offset looks at single bytes of a text and takes slices of it.  A
slice is there only where both its ends stand between two characters and the first is not
behind the second, so a place that a reader has come to has to stand between two characters.

* `slice?_eq_some_iff` : the slices of a text are the stretches between two of its characters;
* `isSome_slice?_iff` : the offsets that a slice may have are the valid positions in order;
* `decides_asciiByte` : a class of ASCII characters is told from the first byte.
-/
import GenericIR.Scan.Basic

namespace GenericIR

/-! ## Bytes -/

/-- The bytes of a text in UTF-8. -/
def utf8Bytes (text : List Char) : List UInt8 := text.flatMap String.utf8EncodeChar

/-- The byte at an offset of a text, if the text is that long. -/
def byteAt? (text : List Char) (n : Nat) : Option UInt8 := (utf8Bytes text)[n]?

/-- The first byte of a character. -/
def leadByte (c : Char) : UInt8 := (String.utf8EncodeChar c).headD 0

/-- A text has as many bytes as its length says. -/
theorem length_utf8Bytes (text : List Char) : (utf8Bytes text).length = byteLength text := by
  induction text with
  | nil => rfl
  | cons c text ih =>
      rw [utf8Bytes, List.flatMap_cons, List.length_append, String.length_utf8EncodeChar,
        byteLength_cons, ← ih]
      rfl

/-- The bytes of a text behind another are those of the text by itself. -/
theorem byteAt?_append (front text : List Char) (n : Nat) :
    byteAt? (front ++ text) (byteLength front + n) = byteAt? text n := by
  rw [byteAt?, utf8Bytes, List.flatMap_append]
  show (utf8Bytes front ++ utf8Bytes text)[byteLength front + n]? = _
  rw [List.getElem?_append_right (by rw [length_utf8Bytes]; omega), length_utf8Bytes,
    Nat.add_sub_cancel_left]
  rfl

/-- A text that is not empty starts with the first byte of its first character. -/
theorem byteAt?_cons_zero (c : Char) (text : List Char) :
    byteAt? (c :: text) 0 = some (leadByte c) := by
  show (String.utf8EncodeChar c ++ utf8Bytes text)[0]? = some ((String.utf8EncodeChar c).headD 0)
  cases hbytes : String.utf8EncodeChar c with
  | nil => exact absurd hbytes String.utf8EncodeChar_ne_nil
  | cons b bytes => rfl

/-- Behind a character of one byte come the bytes of the text after it. -/
theorem byteAt?_cons_succ (c : Char) (text : List Char) (n : Nat) (hc : c.utf8Size = 1) :
    byteAt? (c :: text) (n + 1) = byteAt? text n := by
  have happ := byteAt?_append [c] text n
  rwa [byteLength_cons, byteLength_nil, hc, Nat.add_zero, Nat.add_comm 1 n] at happ

/-! ### Classes of bytes -/

/-- The ASCII characters are those of one byte. -/
theorem utf8Size_eq_one_iff_ascii (c : Char) : c.utf8Size = 1 ↔ c.toNat < 128 := by
  rw [Char.utf8Size_eq_one_iff, UInt32.le_iff_toNat_le]
  exact Nat.lt_succ_iff.symm

/-- A character of one byte is its only byte. -/
theorem leadByte_of_ascii (c : Char) (hc : c.toNat < 128) : leadByte c = UInt8.ofNat c.toNat := by
  rw [leadByte, String.utf8EncodeChar_eq_singleton ((utf8Size_eq_one_iff_ascii c).mpr hc)]
  rfl

/-- A character of several bytes starts with a byte that is no ASCII character. -/
theorem le_leadByte_of_not_ascii (c : Char) (hc : 128 ≤ c.toNat) : 128 ≤ (leadByte c).toNat := by
  have hor : ∀ a b : UInt8, 128 ≤ b.toNat → 128 ≤ (a ||| b).toNat := by
    intro a b hb
    rw [UInt8.toNat_or]
    exact Nat.le_trans hb Nat.right_le_or
  have hne : c.utf8Size ≠ 1 := by
    rw [Ne, utf8Size_eq_one_iff_ascii]
    omega
  rcases Char.utf8Size_eq c with h | h | h | h
  · exact absurd h hne
  · rw [leadByte, String.utf8EncodeChar_eq_cons_cons h]
    exact hor _ _ (by decide)
  · rw [leadByte, String.utf8EncodeChar_eq_cons_cons_cons h]
    exact hor _ _ (by decide)
  · rw [leadByte, String.utf8EncodeChar_eq_cons_cons_cons_cons h]
    exact hor _ _ (by decide)

/-- A test of bytes that, put to the first byte of a character, tells whether the character is
of a class. -/
def Decides (test : UInt8 → Bool) (good : Char → Bool) : Prop := ∀ c, test (leadByte c) = good c

/-- Whether a byte is an ASCII character of a class. -/
def asciiByte (good : Char → Bool) (b : UInt8) : Bool :=
  decide (b.toNat < 128) && good (Char.ofNat b.toNat)

/-- A class of ASCII characters is told from the first byte. -/
theorem decides_asciiByte (good : Char → Bool) (h : ∀ c, good c → c.toNat < 128) :
    Decides (asciiByte good) good := by
  intro c
  by_cases hc : c.toNat < 128
  · have hbyte : (leadByte c).toNat = c.toNat := by
      rw [leadByte_of_ascii c hc, UInt8.toNat_ofNat']
      omega
    rw [asciiByte, hbyte, decide_eq_true hc, Bool.true_and, Char.ofNat_toNat]
  · have hbyte := le_leadByte_of_not_ascii c (by omega)
    rw [asciiByte, decide_eq_false (by omega), Bool.false_and]
    cases hgood : good c with
    | false => rfl
    | true => exact absurd (h c hgood) hc

/-- A single ASCII character is told from its byte. -/
theorem decides_eq_byte (d : Char) (hd : d.toNat < 128) :
    Decides (fun b => b == UInt8.ofNat d.toNat) (fun c => c == d) := by
  intro c
  show (leadByte c == UInt8.ofNat d.toNat) = (c == d)
  have hbyte : (UInt8.ofNat d.toNat).toNat = d.toNat := by
    rw [UInt8.toNat_ofNat']
    omega
  by_cases hcd : c = d
  · rw [hcd, leadByte_of_ascii d hd, beq_self_eq_true, beq_self_eq_true]
  · rw [beq_eq_false_iff_ne.mpr hcd, beq_eq_false_iff_ne]
    intro heq
    have htoNat := congrArg UInt8.toNat heq
    rw [hbyte] at htoNat
    by_cases hc : c.toNat < 128
    · rw [leadByte_of_ascii c hc, UInt8.toNat_ofNat'] at htoNat
      exact hcd (Char.toNat_inj.mp (by omega))
    · have hlead := le_leadByte_of_not_ascii c (by omega)
      omega

/-- Two tests of bytes tell what is in one class or the other. -/
theorem Decides.or {test other : UInt8 → Bool} {good fine : Char → Bool} (h : Decides test good)
    (hother : Decides other fine) :
    Decides (fun b => test b || other b) (fun c => good c || fine c) := fun c => by
  show (test _ || other _) = (good c || fine c)
  rw [h c, hother c]

/-- A test of bytes and its opposite tell a class and what is outside it. -/
theorem Decides.not {test : UInt8 → Bool} {good : Char → Bool} (h : Decides test good) :
    Decides (fun b => !test b) (fun c => !good c) := fun c =>
  congrArg Bool.not (h c)

/-! ### Classes of ASCII characters -/

/-- Decimal digits are ASCII characters. -/
theorem ascii_of_isDigit (c : Char) (h : c.isDigit) : c.toNat < 128 := by
  have hle : c.val ≤ '9'.val := of_decide_eq_true (Bool.and_eq_true_iff.mp h).2
  have hle : c.toNat ≤ 57 := UInt32.le_iff_toNat_le.mp hle
  omega

/-- Letters are ASCII characters. -/
theorem ascii_of_isAlpha (c : Char) (h : c.isAlpha) : c.toNat < 128 := by
  rcases Bool.or_eq_true_iff.mp h with hupper | hlower
  · have hle : c.val ≤ 'Z'.val := (of_decide_eq_true hupper).2
    have hle : c.toNat ≤ 90 := UInt32.le_iff_toNat_le.mp hle
    omega
  · have hle : c.val ≤ 'z'.val := of_decide_eq_true (Bool.and_eq_true_iff.mp hlower).2
    have hle : c.toNat ≤ 122 := UInt32.le_iff_toNat_le.mp hle
    omega

/-- Characters that start a word are ASCII characters. -/
theorem ascii_of_isWordStart (c : Char) (h : isWordStart c) : c.toNat < 128 := by
  simp only [isWordStart, Bool.or_eq_true, beq_iff_eq] at h
  rcases h with halpha | rfl
  · exact ascii_of_isAlpha c halpha
  · decide

/-- Characters of ids are ASCII characters. -/
theorem ascii_of_isIdChar (c : Char) (h : isIdChar c) : c.toNat < 128 := by
  simp only [isIdChar, Bool.or_eq_true, beq_iff_eq] at h
  rcases h with (((halnum | rfl) | rfl) | rfl) | rfl
  · rcases Bool.or_eq_true_iff.mp halnum with halpha | hdigit
    · exact ascii_of_isAlpha c halpha
    · exact ascii_of_isDigit c hdigit
  · decide
  · decide
  · decide
  · decide

/-- Hexadecimal digits are ASCII characters. -/
theorem ascii_of_isHexDigit (c : Char) (h : isHexDigit c) : c.toNat < 128 := by
  simp only [isHexDigit, Bool.or_eq_true, Bool.and_eq_true, decide_eq_true_eq, Char.le_def] at h
  rcases h with (hdigit | hlower) | hupper
  · exact ascii_of_isDigit c hdigit
  · have hle : c.toNat ≤ 102 := UInt32.le_iff_toNat_le.mp hlower.2
    omega
  · have hle : c.toNat ≤ 70 := UInt32.le_iff_toNat_le.mp hupper.2
    omega

/-- What holds of every ASCII character, one after the other, holds of any of them. -/
theorem forall_ascii {p : Char → Prop} (h : ∀ n < 128, p (Char.ofNat n)) {c : Char}
    (hc : c.toNat < 128) : p c := by
  have hp := h c.toNat hc
  rwa [Char.ofNat_toNat] at hp

/-! ## Slices -/

/-- The text from a byte offset on, if the offset stands between two characters of the text. -/
def textFrom? : List Char → Nat → Option (List Char)
  | text, 0 => some text
  | [], _ + 1 => none
  | c :: text, n + 1 => if c.utf8Size ≤ n + 1 then textFrom? text (n + 1 - c.utf8Size) else none

/-- The text between two byte offsets, if both stand between two characters of the text and
the second is not before the first. -/
def slice? (text : List Char) (a b : Nat) : Option (List Char) :=
  if a ≤ b then
    match textFrom? text a, textFrom? text b with
    | some front, some back => some (front.take (front.length - back.length))
    | _, _ => none
  else none

/-- Behind the bytes of a front of the text comes what is left of it. -/
theorem textFrom?_append (front rest : List Char) :
    textFrom? (front ++ rest) (byteLength front) = some rest := by
  induction front with
  | nil => rw [List.nil_append, byteLength_nil, textFrom?]
  | cons c front ih =>
      have hpos := Char.utf8Size_pos c
      obtain ⟨n, hn⟩ : ∃ n, byteLength (c :: front) = n + 1 :=
        ⟨c.utf8Size + byteLength front - 1, by rw [byteLength_cons]; omega⟩
      have hsize : n + 1 - c.utf8Size = byteLength front := by
        rw [← hn, byteLength_cons, Nat.add_sub_cancel_left]
      have hle : c.utf8Size ≤ n + 1 := by
        rw [← hn, byteLength_cons]
        exact Nat.le_add_right _ _
      rw [List.cons_append, hn, textFrom?, if_pos hle, hsize, ih]

/-- A slice may start only where a front of the text ends. -/
theorem textFrom?_eq_some_iff (text rest : List Char) (n : Nat) :
    textFrom? text n = some rest ↔ ∃ front, text = front ++ rest ∧ n = byteLength front := by
  constructor
  · intro h
    fun_induction textFrom? text n with
    | case1 text =>
        cases h
        exact ⟨[], rfl, rfl⟩
    | case2 n => cases h
    | case3 c text n hle ih =>
        obtain ⟨front, rfl, hn⟩ := ih h
        refine ⟨c :: front, rfl, ?_⟩
        rw [byteLength_cons, ← hn]
        omega
    | case4 c text n hle => cases h
  · rintro ⟨front, rfl, rfl⟩
    exact textFrom?_append front rest

/-- A string has as many bytes as its characters. -/
theorem byteLength_toList (source : String) : byteLength source.toList = source.utf8ByteSize := by
  obtain ⟨text, rfl⟩ : ∃ text, source = String.ofList text :=
    ⟨source.toList, String.ofList_toList.symm⟩
  rw [String.toList_ofList, ← length_utf8Bytes, String.utf8ByteSize, String.toByteArray_ofList]
  exact List.size_toByteArray.symm

/-- The offsets that a slice may start at are the valid positions of a string. -/
theorem isSome_textFrom?_iff (source : String) (n : Nat) :
    (textFrom? source.toList n).isSome ↔ String.Pos.Raw.IsValid source ⟨n⟩ := by
  rw [Option.isSome_iff_exists, String.Pos.Raw.isValid_iff_exists_append]
  constructor
  · rintro ⟨rest, h⟩
    obtain ⟨front, htext, rfl⟩ := (textFrom?_eq_some_iff _ _ _).mp h
    refine ⟨String.ofList front, String.ofList rest, ?_, ?_⟩
    · rw [← String.ofList_append, ← htext, String.ofList_toList]
    · have hsize := byteLength_toList (String.ofList front)
      rw [String.toList_ofList] at hsize
      rw [hsize]
      rfl
  · rintro ⟨front, rest, rfl, hn⟩
    refine ⟨rest.toList, (textFrom?_eq_some_iff _ _ _).mpr ⟨front.toList, ?_, ?_⟩⟩
    · rw [String.toList_append]
    · rw [byteLength_toList]
      exact congrArg String.Pos.Raw.byteIdx hn

/-- There is a slice between two offsets where both are valid positions of the string and the
second is not before the first. -/
theorem isSome_slice?_iff (source : String) (a b : Nat) :
    (slice? source.toList a b).isSome ↔
      a ≤ b ∧ String.Pos.Raw.IsValid source ⟨a⟩ ∧ String.Pos.Raw.IsValid source ⟨b⟩ := by
  rw [← isSome_textFrom?_iff, ← isSome_textFrom?_iff, slice?]
  split
  · next hle =>
      cases textFrom? source.toList a <;> cases textFrom? source.toList b <;> simp [hle]
  · next hle => simp [hle]

/-- Only the empty text has no bytes. -/
theorem eq_nil_of_byteLength_eq_zero (text : List Char) (h : byteLength text = 0) : text = [] := by
  cases text with
  | nil => rfl
  | cons c text =>
      have hpos := Char.utf8Size_pos c
      rw [byteLength_cons] at h
      omega

/-- A text has at least as many bytes as characters. -/
theorem length_le_byteLength (text : List Char) : text.length ≤ byteLength text := by
  induction text with
  | nil => exact Nat.le_refl 0
  | cons c text ih =>
      have hpos := Char.utf8Size_pos c
      rw [List.length_cons, byteLength_cons]
      omega

/-- Of two fronts of a text, the one with fewer bytes is the front of the other. -/
theorem exists_between {text front left upto right : List Char} (hleft : text = front ++ left)
    (hright : text = upto ++ right) (hle : byteLength front ≤ byteLength upto) :
    ∃ between, left = between ++ right ∧ upto = front ++ between := by
  rcases List.append_eq_append_iff.mp (hleft.symm.trans hright) with
    ⟨between, hupto, hrest⟩ | ⟨between, hfront, hrest⟩
  · exact ⟨between, hrest, hupto⟩
  · rw [hfront, byteLength_append] at hle
    obtain rfl := eq_nil_of_byteLength_eq_zero between (by omega)
    exact ⟨[], hrest.symm, by rw [hfront, List.append_nil, List.append_nil]⟩

/-- The slices of a text are the stretches between two of its characters. -/
theorem slice?_eq_some_iff (text mid : List Char) (a b : Nat) :
    slice? text a b = some mid ↔ ∃ front back, text = front ++ (mid ++ back) ∧
      a = byteLength front ∧ b = byteLength (front ++ mid) := by
  constructor
  · intro h
    unfold slice? at h
    split at h
    · next hle =>
        split at h
        · next left right hleft hright =>
            obtain ⟨front, htext, ha⟩ := (textFrom?_eq_some_iff _ _ _).mp hleft
            obtain ⟨upto, hupto, hb⟩ := (textFrom?_eq_some_iff _ _ _).mp hright
            obtain ⟨between, rfl, rfl⟩ := exists_between htext hupto (by omega)
            rw [List.length_append, Nat.add_sub_cancel, List.take_left] at h
            cases h
            exact ⟨front, right, htext, ha, hb⟩
        · cases h
    · cases h
  · rintro ⟨front, back, rfl, rfl, rfl⟩
    have hback : textFrom? (front ++ (mid ++ back)) (byteLength (front ++ mid)) = some back := by
      rw [← List.append_assoc, textFrom?_append]
    have hle : byteLength front ≤ byteLength (front ++ mid) := by
      rw [byteLength_append]
      exact Nat.le_add_right _ _
    rw [slice?, if_pos hle, textFrom?_append, hback]
    dsimp only
    rw [List.length_append, Nat.add_sub_cancel, List.take_left]

/-! ## Places in a source -/

/-- A place that a reader of a source stands at, with the text it has not read yet. -/
def Place.Stands (p : Place) (source rest : List Char) : Prop :=
  ∃ front, source = front ++ rest ∧ p.offset = byteLength front

/-- One more character after a text. -/
theorem Place.after_snoc (p : Place) (text : List Char) (c : Char) :
    (p.after text).step c = p.after (text ++ [c]) := (p.after_append text [c]).symm

namespace Place.Stands

variable {p : Place} {source rest : List Char}

/-- Every reading starts at the start. -/
theorem start (source : List Char) : Place.start.Stands source source := ⟨[], rfl, rfl⟩

/-- Going over a text that a reader stands before leaves it between two characters. -/
theorem after {text : List Char} (h : p.Stands source (text ++ rest)) :
    (p.after text).Stands source rest := by
  obtain ⟨front, rfl, hp⟩ := h
  refine ⟨front ++ text, (List.append_assoc ..).symm, ?_⟩
  rw [offset_after, byteLength_append, hp]

/-- Going over one character leaves a reader between two characters. -/
theorem step {c : Char} (h : p.Stands source (c :: rest)) : (p.step c).Stands source rest :=
  @after p source rest [c] h

/-- A character that a reader goes over counts as taken. -/
theorem snoc {taken : List Char} {c : Char} (h : p.Stands source (taken ++ c :: rest)) :
    p.Stands source (taken ++ [c] ++ rest) := by
  rwa [List.append_assoc]

/-- A run of characters that a reader goes over counts as taken. -/
theorem run {taken : List Char} (h : p.Stands source (taken ++ rest)) (good : Char → Bool) :
    p.Stands source (taken ++ rest.takeWhile good ++ rest.dropWhile good) := by
  rwa [List.append_assoc, List.takeWhile_append_dropWhile]

/-- The text from a reader's place on is what it has not read yet. -/
theorem textFrom? (h : p.Stands source rest) : textFrom? source p.offset = some rest := by
  obtain ⟨front, rfl, hp⟩ := h
  rw [hp, textFrom?_append]

/-- The bytes from a reader's place on are those of the text it has not read yet. -/
theorem byteAt? (h : p.Stands source rest) (n : Nat) :
    byteAt? source (p.offset + n) = byteAt? rest n := by
  obtain ⟨front, rfl, hp⟩ := h
  rw [hp, byteAt?_append]

/-- The slice from a reader's place to one after a text in front of it is that text. -/
theorem slice? {text : List Char} (h : p.Stands source (text ++ rest)) :
    slice? source p.offset (p.after text).offset = some text := by
  obtain ⟨front, hsource, hp⟩ := h
  refine (slice?_eq_some_iff _ _ _ _).mpr ⟨front, rest, hsource, hp, ?_⟩
  rw [offset_after, hp, byteLength_append]

end Place.Stands

end GenericIR
