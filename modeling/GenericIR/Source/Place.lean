/-
# Places and spans in a source text

A `Place` is where a reader stands in a text, a `Span` the stretch of text that a token or
a fault covers.  Offsets, lengths and columns count UTF-8 bytes; lines and columns start
at one.

* `Place.after_append` : going over two texts is going over the first, then the second;
* `Place.offset_after` : the offset grows by the byte length of the text gone over.
-/

namespace GenericIR

/-! ## Byte length -/

/-- Number of bytes that a text takes in UTF-8. -/
def byteLength : List Char → Nat
  | [] => 0
  | c :: text => c.utf8Size + byteLength text

@[simp] theorem byteLength_nil : byteLength [] = 0 := rfl

@[simp] theorem byteLength_cons (c : Char) (text : List Char) :
    byteLength (c :: text) = c.utf8Size + byteLength text := rfl

@[simp] theorem byteLength_append (front back : List Char) :
    byteLength (front ++ back) = byteLength front + byteLength back := by
  induction front with
  | nil => rw [List.nil_append, byteLength_nil, Nat.zero_add]
  | cons c front ih => rw [List.cons_append, byteLength_cons, byteLength_cons, ih, Nat.add_assoc]

/-! ## Places -/

/-- A byte offset with its line and its column, both counted from one. -/
structure Place where
  offset : Nat
  line : Nat
  col : Nat
deriving DecidableEq, Repr

namespace Place

/-- Where every text starts. -/
def start : Place := ⟨0, 1, 1⟩

/-- The place after one character: a line feed opens the next line, any other character
moves the column on by its bytes. -/
def step (p : Place) (c : Char) : Place :=
  if c = '\n' then ⟨p.offset + c.utf8Size, p.line + 1, 1⟩
  else ⟨p.offset + c.utf8Size, p.line, p.col + c.utf8Size⟩

/-- The place after a whole text. -/
def after (p : Place) (text : List Char) : Place := text.foldl step p

@[simp] theorem after_nil (p : Place) : p.after [] = p := rfl

@[simp] theorem after_cons (p : Place) (c : Char) (text : List Char) :
    p.after (c :: text) = (p.step c).after text := rfl

/-- Going over two texts is going over the first, then the second. -/
theorem after_append (p : Place) (front back : List Char) :
    p.after (front ++ back) = (p.after front).after back := by
  simp [after, List.foldl_append]

/-- One character moves the offset on by its bytes. -/
@[simp] theorem offset_step (p : Place) (c : Char) :
    (p.step c).offset = p.offset + c.utf8Size := by
  unfold step
  split <;> rfl

/-- The offset grows by the byte length of the text gone over. -/
@[simp] theorem offset_after (p : Place) (text : List Char) :
    (p.after text).offset = p.offset + byteLength text := by
  induction text generalizing p with
  | nil => rfl
  | cons c text ih => rw [after_cons, ih, offset_step, byteLength_cons, Nat.add_assoc]

end Place

/-! ## Spans -/

/-- The place where a stretch of text starts, with its length in bytes. -/
structure Span extends Place where
  len : Nat
deriving DecidableEq, Repr

namespace Span

/-- The span of a text that starts at a place. -/
def ofText (p : Place) (text : List Char) : Span := ⟨p, byteLength text⟩

/-- Byte offset one past the last byte. -/
def stop (s : Span) : Nat := s.offset + s.len

/-- A span's text ends where the place after that text is. -/
theorem stop_ofText (p : Place) (text : List Char) :
    (ofText p text).stop = (p.after text).offset := by
  rw [Place.offset_after]
  rfl

/-- The written form, `line:col`. -/
def render (s : Span) : String := toString s.line ++ ":" ++ toString s.col

end Span

end GenericIR
