/-
# Written documents

What a document puts on paper: words without marks (the numbers, the truth values and
`null`), strings in quotes, and arrays and objects of these.  A written document is
determined by its text, whatever stands behind it, since a mark ends every word and quotes,
brackets and braces say what they open.

* `Json.stringText_append_inj` : a string in quotes ends where it says;
* `Json.Written.text_append_inj` : so does every written document;
* `Json.Written.text_injective` : different written documents have different texts.
-/
import GenericIR.Json.Basic
import GenericIR.Scan.Numeral

namespace GenericIR.Json

/-! ## Strings -/

/-- The character at the front of the inside of a string, with what follows it. -/
def unescape : List Char → Option (Char × List Char)
  | [] => none
  | '"' :: _ => none
  | '\\' :: 'b' :: rest => some ('\x08', rest)
  | '\\' :: 'f' :: rest => some ('\x0c', rest)
  | '\\' :: 'n' :: rest => some ('\n', rest)
  | '\\' :: 'r' :: rest => some ('\r', rest)
  | '\\' :: 't' :: rest => some ('\t', rest)
  | '\\' :: 'u' :: _ :: _ :: high :: low :: rest =>
    some (Char.ofNat (hexValue [high, low]), rest)
  | '\\' :: c :: rest => some (c, rest)
  | c :: rest => some (c, rest)

/-- The two digits of a character below the space give its code back. -/
theorem hexValue_control (n : Nat) (h : n < 32) :
    hexValue [Nat.digitChar (n / 16), Nat.digitChar (n % 16)] = n := by
  decide +revert

/-- A character inside a string reads back, whatever follows it. -/
theorem unescape_escape (c : Char) (rest : List Char) :
    unescape (escape c ++ rest) = some (c, rest) := by
  fun_cases escape c with
  | case1 h => rw [h]; rfl
  | case2 _ h => rw [h]; rfl
  | case3 _ _ h => rw [h]; rfl
  | case4 _ _ _ h => rw [h]; rfl
  | case5 _ _ _ _ h => rw [h]; rfl
  | case6 _ _ _ _ _ h => rw [h]; rfl
  | case7 _ _ _ _ _ _ h => rw [h]; rfl
  | case8 _ _ _ _ _ _ _ hcontrol =>
      show some (Char.ofNat (hexValue [_, _]), rest) = _
      rw [hexValue_control c.toNat hcontrol, Char.ofNat_toNat]
  | case9 _ hslash => simp [unescape, hslash]

/-- Inside a string, a text is determined by its written form up to the closing quote. -/
theorem flatMap_escape_append_inj {cs ds r s : List Char}
    (h : cs.flatMap escape ++ '"' :: r = ds.flatMap escape ++ '"' :: s) : cs = ds ∧ r = s := by
  induction cs generalizing ds with
  | nil =>
      cases ds with
      | nil => exact ⟨rfl, (List.cons.inj h).2⟩
      | cons d ds =>
          have hread := congrArg unescape h
          rw [List.flatMap_cons, List.append_assoc, unescape_escape] at hread
          cases hread
  | cons c cs ih =>
      cases ds with
      | nil =>
          have hread := congrArg unescape h
          rw [List.flatMap_cons, List.append_assoc, unescape_escape] at hread
          cases hread
      | cons d ds =>
          have hread := congrArg unescape h
          simp only [List.flatMap_cons, List.append_assoc, unescape_escape, Option.some.injEq,
            Prod.mk.injEq] at hread
          obtain ⟨rfl, hrest⟩ := hread
          obtain ⟨rfl, rfl⟩ := ih hrest
          exact ⟨rfl, rfl⟩

/-- A string in quotes ends where it says. -/
theorem stringText_append_inj {a b : String} {r s : List Char}
    (h : stringText a ++ r = stringText b ++ s) : a = b ∧ r = s := by
  simp only [stringText, List.cons_append, List.append_assoc, List.nil_append, List.cons.injEq,
    true_and] at h
  obtain ⟨hchars, hrest⟩ := flatMap_escape_append_inj h
  exact ⟨String.toList_injective hchars, hrest⟩

/-! ## Words -/

/-- The characters that open, close or separate the parts of a document. -/
def marks : List Char := ['"', ',', '[', ']', '{', '}']

/-- A run of characters that are no marks. -/
structure Word where
  chars : List Char
  plain : ∀ c ∈ chars, c ∉ marks
  inhabited : chars ≠ []
deriving DecidableEq

/-- Characters that are checked one by one are no marks. -/
theorem not_mem_marks_of_all {chars : List Char} (h : chars.all fun c => decide (c ∉ marks)) :
    ∀ c ∈ chars, c ∉ marks :=
  fun c hc => of_decide_eq_true (List.all_eq_true.mp h c hc)

/-- A text with nothing in it or with a mark at its front. -/
def AtMark (r : List Char) : Prop := ∀ c ∈ r.head?, c ∈ marks

/-- A text with a mark at its front. -/
theorem atMark_cons {c : Char} (hc : c ∈ marks) (r : List Char) : AtMark (c :: r) := by
  intro d hd
  cases hd
  exact hc

/-- A word ends before a mark. -/
theorem Word.chars_append_inj {v w : Word} {r s : List Char} (hr : AtMark r) (hs : AtMark s)
    (h : v.chars ++ r = w.chars ++ s) : v = w ∧ r = s := by
  have hcut : ∀ (u : Word) {t : List Char}, AtMark t →
      (u.chars ++ t).takeWhile (fun c => decide (c ∉ marks)) = u.chars := by
    intro u t ht
    rw [List.takeWhile_append_of_pos (by simpa using u.plain)]
    cases t with
    | nil => simp
    | cons c t =>
        have hc : c ∈ marks := ht c rfl
        simp [hc]
  have hchars : v.chars = w.chars := by rw [← hcut v hr, h, hcut w hs]
  obtain ⟨cs, hplain, hne⟩ := v
  obtain ⟨ds, hplain', hne'⟩ := w
  cases hchars
  exact ⟨rfl, List.append_cancel_left h⟩

/-- No word begins with a mark. -/
theorem Word.chars_append_ne (w : Word) {c : Char} (hc : c ∈ marks) (r s : List Char) :
    w.chars ++ r ≠ c :: s := by
  obtain ⟨d, ds, hd⟩ := List.exists_cons_of_ne_nil w.inhabited
  intro h
  rw [hd, List.cons_append] at h
  obtain ⟨rfl, -⟩ := List.cons.inj h
  exact w.plain d (by rw [hd]; exact List.mem_cons_self) hc

/-! ## Parts with commas between them -/

/-- Texts with commas between them. -/
def commas : List (List Char) → List Char
  | [] => []
  | [part] => part
  | part :: parts => part ++ ',' :: commas parts

/-- After its first part a list ends at its bracket or goes on after a comma. -/
theorem commas_cons_append (part : List Char) (parts : List (List Char)) (close : Char)
    (r : List Char) :
    commas (part :: parts) ++ close :: r =
      part ++ if parts = [] then close :: r else ',' :: (commas parts ++ close :: r) := by
  cases parts with
  | nil => rfl
  | cons next parts => simp [commas]

/-- Parts that end where they say make up a list that ends at its bracket. -/
theorem commas_append_inj {α : Type} {part : α → List Char} {close : Char}
    (hclose : close ∈ marks) (hcomma : close ≠ ',')
    (hne : ∀ a r s, part a ++ r ≠ close :: s) {as : List α}
    (hinj : ∀ a ∈ as, ∀ (b : α) {r s : List Char}, AtMark r → AtMark s →
      part a ++ r = part b ++ s → a = b ∧ r = s)
    {bs : List α} {r s : List Char}
    (h : commas (as.map part) ++ close :: r = commas (bs.map part) ++ close :: s) :
    as = bs ∧ r = s := by
  induction as generalizing bs with
  | nil =>
      cases bs with
      | nil => exact ⟨rfl, (List.cons.inj h).2⟩
      | cons b bs =>
          rw [List.map_cons, commas_cons_append] at h
          exact absurd h.symm (hne b _ _)
  | cons a as ih =>
      cases bs with
      | nil =>
          rw [List.map_cons, commas_cons_append] at h
          exact absurd h (hne a _ _)
      | cons b bs =>
          have hatMark : ∀ (parts : List α) (t : List Char), AtMark
              (if parts.map part = [] then close :: t
                else ',' :: (commas (parts.map part) ++ close :: t)) := by
            intro parts t
            split
            · exact atMark_cons hclose t
            · exact atMark_cons (by decide) _
          rw [List.map_cons, List.map_cons, commas_cons_append, commas_cons_append] at h
          obtain ⟨rfl, htail⟩ := hinj a List.mem_cons_self b (hatMark as r) (hatMark bs s) h
          simp only [List.map_eq_nil_iff] at htail
          split at htail <;> split at htail
          · next has hbs => exact ⟨by rw [has, hbs], (List.cons.inj htail).2⟩
          · exact absurd (List.cons.inj htail).1 hcomma
          · exact absurd (List.cons.inj htail).1.symm hcomma
          · obtain ⟨rfl, rfl⟩ := ih (fun c hc => hinj c (List.mem_cons_of_mem a hc))
              (List.cons.inj htail).2
            exact ⟨rfl, rfl⟩

/-! ## Documents -/

/-- A document as its words and strings. -/
inductive Written where
  | word (w : Word)
  | string (s : String)
  | array (items : List Written)
  | object (members : List (String × Written))

namespace Written

mutual

/-- The text of a written document. -/
def text : Written → List Char
  | word w => w.chars
  | string s => stringText s
  | array items => '[' :: commas (itemTexts items) ++ [']']
  | object members => '{' :: commas (memberTexts members) ++ ['}']

/-- The texts of the items of an array. -/
def itemTexts : List Written → List (List Char)
  | [] => []
  | item :: items => item.text :: itemTexts items

/-- The texts of the members of an object. -/
def memberTexts : List (String × Written) → List (List Char)
  | [] => []
  | (name, value) :: members => (stringText name ++ ':' :: value.text) :: memberTexts members

end

/-- The text of a member of an object. -/
def memberText (member : String × Written) : List Char :=
  stringText member.1 ++ ':' :: member.2.text

/-- Each item is written on its own. -/
theorem itemTexts_eq_map (items : List Written) : itemTexts items = items.map text := by
  induction items with
  | nil => rfl
  | cons item items ih => rw [itemTexts, ih, List.map_cons]

/-- Each member is written on its own. -/
theorem memberTexts_eq_map (members : List (String × Written)) :
    memberTexts members = members.map memberText := by
  induction members with
  | nil => rfl
  | cons member members ih => rw [memberTexts, ih, List.map_cons, memberText]

/-- No document begins with a closing bracket. -/
theorem text_append_ne (v : Written) (r s : List Char) : v.text ++ r ≠ ']' :: s := by
  intro h
  cases v with
  | word w => exact w.chars_append_ne (by decide) r s h
  | string a => exact absurd (List.cons.inj h).1 (by decide)
  | array items => exact absurd (List.cons.inj h).1 (by decide)
  | object members => exact absurd (List.cons.inj h).1 (by decide)

/-- The value of a member is smaller than its object. -/
theorem sizeOf_value_lt {member : String × Written} {members : List (String × Written)}
    (h : member ∈ members) : sizeOf member.2 < 1 + sizeOf members := by
  obtain ⟨name, value⟩ := member
  have hsize := List.sizeOf_lt_of_mem h
  simp only [Prod.mk.sizeOf_spec] at hsize ⊢
  omega

/-- A written document ends where it says, in front of nothing or of a mark. -/
theorem text_append_inj (v w : Written) {r s : List Char} (hr : AtMark r) (hs : AtMark s)
    (h : v.text ++ r = w.text ++ s) : v = w ∧ r = s := by
  match v, w with
  | word v, word w =>
      obtain ⟨rfl, rfl⟩ := Word.chars_append_inj hr hs h
      exact ⟨rfl, rfl⟩
  | string a, string b =>
      obtain ⟨rfl, rfl⟩ := stringText_append_inj h
      exact ⟨rfl, rfl⟩
  | array vs, array ws =>
      simp only [text, itemTexts_eq_map, List.cons_append, List.append_assoc, List.nil_append,
        List.cons.injEq, true_and] at h
      obtain ⟨rfl, rfl⟩ := commas_append_inj (by decide) (by decide) text_append_ne
        (fun a _ b => text_append_inj a b) h
      exact ⟨rfl, rfl⟩
  | object vs, object ws =>
      simp only [text, memberTexts_eq_map, List.cons_append, List.append_assoc, List.nil_append,
        List.cons.injEq, true_and] at h
      have hmember : ∀ a ∈ vs, ∀ (b : String × Written) {r s : List Char}, AtMark r → AtMark s →
          memberText a ++ r = memberText b ++ s → a = b ∧ r = s := by
        intro a ha b r s hr hs h
        simp only [memberText, List.append_assoc, List.cons_append] at h
        obtain ⟨hname, hvalue⟩ := stringText_append_inj h
        have hsmaller := sizeOf_value_lt ha
        obtain ⟨hvalue, hrest⟩ := text_append_inj a.2 b.2 hr hs (List.cons.inj hvalue).2
        exact ⟨Prod.ext hname hvalue, hrest⟩
      obtain ⟨rfl, rfl⟩ := commas_append_inj (by decide) (by decide)
        (fun a r s h => absurd (List.cons.inj h).1 (by decide)) hmember h
      exact ⟨rfl, rfl⟩
  | word v, string _ | word v, array _ | word v, object _ =>
      exact absurd h (v.chars_append_ne (by decide) _ _)
  | string _, word w | array _, word w | object _, word w =>
      exact absurd h.symm (w.chars_append_ne (by decide) _ _)
  | string _, array _ | string _, object _ | array _, string _ | array _, object _
  | object _, string _ | object _, array _ =>
      exact absurd (List.cons.inj h).1 (by decide)
termination_by v

/-- Different written documents have different texts. -/
theorem text_injective {v w : Written} (h : v.text = w.text) : v = w := by
  have hnil : AtMark [] := fun _ hc => nomatch hc
  exact (text_append_inj v w hnil hnil (by rw [h])).1

end Written

end GenericIR.Json
