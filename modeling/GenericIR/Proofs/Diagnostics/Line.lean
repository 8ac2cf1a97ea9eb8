/-
# The line of a place

The lines of a text are counted by its line feeds.  So the line with the number of a place is what
the text has around that place, back to the last line feed before it and up to the next one behind
it.  A text that is empty or ends with a line feed has no line at its end.

* `splitLines_append_line_feed`, `splitLines_of_not_mem` : the first line of a text, and the last;
* `getElem?_splitLines` : the line at a point of a text;
* `Place.sourceLine?_of_reached` : the line at a place that a reader reaches.
-/
import GenericIR.Proofs.Cursor.Place
import GenericIR.Proofs.Partition.Shape

namespace GenericIR

/-! ## The text around a point -/

/-- What a line has before a carriage return at its end, or the whole line where it has none. -/
def withoutReturn (line : List Char) : List Char :=
  if line.getLast? = some '\r' then line.dropLast else line

/-- The line at a point between two parts of a text.  Where a line feed ends it, a carriage return
directly before that line feed is no part of it. -/
def lineAround (front back : List Char) : List Char :=
  if '\n' ∈ back then withoutReturn (lastLine front ++ back.takeWhile (· != '\n'))
  else lastLine front ++ back

@[simp] theorem withoutReturn_nil : withoutReturn [] = [] := rfl

/-- A first character stays where another one follows it. -/
theorem withoutReturn_cons_cons (c d : Char) (line : List Char) :
    withoutReturn (c :: d :: line) = c :: withoutReturn (d :: line) := by
  simp only [withoutReturn, List.getLast?_cons_cons, List.dropLast_cons_cons]
  split <;> rfl

/-- A single character stays unless it is a carriage return. -/
theorem withoutReturn_singleton {c : Char} (hc : c ≠ '\r') : withoutReturn [c] = [c] :=
  if_neg fun h => hc (Option.some.inj h)

/-- A text without a line feed is its own last line. -/
theorem lastLine_of_not_mem {text : List Char} (h : '\n' ∉ text) : lastLine text = text := by
  rw [lastLine, List.rtakeWhile_eq_self_iff]
  intro c hc
  simpa using fun he : c = '\n' => h (he ▸ hc)

/-- The last line is that of what stands behind a line feed. -/
theorem lastLine_append_line_feed (line text : List Char) :
    lastLine (line ++ '\n' :: text) = lastLine text := by
  induction text using List.reverseRecOn with
  | nil => exact lastLine_concat_line_feed line
  | append_singleton text c ih =>
      rw [← List.cons_append, ← List.append_assoc]
      by_cases hc : c = '\n'
      · rw [hc, lastLine_concat_line_feed, lastLine_concat_line_feed]
      · rw [lastLine_concat hc, lastLine_concat hc, ih]

/-- The last line is empty where the text is empty or ends with a line feed. -/
theorem lastLine_eq_nil_iff (text : List Char) :
    lastLine text = [] ↔ text = [] ∨ text.getLast? = some '\n' := by
  induction text using List.reverseRecOn with
  | nil => simp
  | append_singleton text c _ =>
      by_cases hc : c = '\n'
      · simp [hc]
      · simp [lastLine_concat hc, hc]

/-! ## The lines of a text -/

/-- The first line of a text that has a line feed. -/
theorem splitLines_append_line_feed {line : List Char} (h : '\n' ∉ line) (rest : List Char) :
    splitLines (line ++ '\n' :: rest) = withoutReturn line :: splitLines rest := by
  induction line with
  | nil => simp [splitLines]
  | cons c line ih =>
      obtain ⟨hc, hline⟩ : '\n' ≠ c ∧ '\n' ∉ line := by simpa using h
      cases line with
      | nil =>
          by_cases hreturn : c = '\r'
          · subst hreturn
            simp [splitLines, withoutReturn]
          · rw [withoutReturn_singleton hreturn, List.cons_append, List.nil_append]
            rw [splitLines.eq_4 _ _ (fun he => hc he.symm) (fun _ he _ => hreturn he)]
            simp [splitLines]
      | cons d line =>
          have hd : '\n' ≠ d := fun he => hline (he ▸ List.mem_cons_self)
          rw [withoutReturn_cons_cons, List.cons_append]
          rw [splitLines.eq_4 _ _ (fun he => hc he.symm) fun rest' _ he => ?_, ih hline]
          exact hd (List.cons.inj he).1.symm

/-- A text with no line feed is one line, unless it is empty. -/
theorem splitLines_of_not_mem {line : List Char} (h : '\n' ∉ line) (hne : line ≠ []) :
    splitLines line = [line] := by
  induction line with
  | nil => exact absurd rfl hne
  | cons c line ih =>
      obtain ⟨hc, hline⟩ : '\n' ≠ c ∧ '\n' ∉ line := by simpa using h
      rw [splitLines.eq_4 _ _ (fun he => hc he.symm) fun rest' _ he => ?_]
      · cases line with
        | nil => rfl
        | cons d line => rw [ih hline (List.cons_ne_nil d line)]
      · exact hline (he ▸ List.mem_cons_self)

/-- The first line of a text, around a point before which there is no line feed. -/
theorem getElem?_splitLines_zero {front : List Char} (h : '\n' ∉ front) (back : List Char) :
    (splitLines (front ++ back))[0]? =
      if back = [] ∧ front = [] then none else some (lineAround front back) := by
  rw [lineAround, lastLine_of_not_mem h]
  by_cases hback : '\n' ∈ back
  · obtain ⟨body, behind, hbody, rfl⟩ := exists_first_line_feed hback
    have hline : '\n' ∉ front ++ body := by simp [h, hbody]
    have htake : (body ++ '\n' :: behind).takeWhile (· != '\n') = body := by
      rw [List.takeWhile_append_of_pos fun c hc => ?_]
      · simp
      · simpa using fun he : c = '\n' => hbody (he ▸ hc)
    rw [if_neg (by simp), if_pos hback, htake, ← List.append_assoc,
      splitLines_append_line_feed hline]
    rfl
  · rw [if_neg hback]
    by_cases hempty : back = [] ∧ front = []
    · rw [if_pos hempty, hempty.1, hempty.2]
      rfl
    · have hline : '\n' ∉ front ++ back := by simp [h, hback]
      rw [if_neg hempty, splitLines_of_not_mem hline (by simpa [and_comm] using hempty)]
      rfl

/-- The line at a point of a text, whose number counts the line feeds before it: the text around the
point, unless the point is the end of the text and the text has no line there.  By induction on the
lines before the point. -/
theorem getElem?_splitLines (front back : List Char) :
    (splitLines (front ++ back))[front.count '\n']? =
      if back = [] ∧ lastLine front = [] then none else some (lineAround front back) := by
  induction hn : front.count '\n' generalizing front with
  | zero =>
      have hfront : '\n' ∉ front := List.count_eq_zero.mp hn
      rw [getElem?_splitLines_zero hfront, lastLine_of_not_mem hfront]
  | succ n ih =>
      have hfeed : '\n' ∈ front := List.count_pos_iff.mp (by omega)
      obtain ⟨line, behind, hline, rfl⟩ := exists_first_line_feed hfeed
      have hcount : behind.count '\n' = n := by
        have hzero : line.count '\n' = 0 := List.count_eq_zero.mpr hline
        rw [List.count_append, List.count_cons_self] at hn
        omega
      rw [List.append_assoc, List.cons_append, splitLines_append_line_feed hline,
        List.getElem?_cons_succ, ih behind hcount, lineAround, lineAround,
        lastLine_append_line_feed]

/-! ## The line of a place -/

/-- The text of a source behind an offset. -/
def textBehind (source : String) (n : Nat) : List Char :=
  source.toList.drop (textBefore source n).length

/-- The text behind an offset where a front of the source ends is what follows that front. -/
theorem textBehind_of_eq_append {source : String} {front rest : List Char}
    (h : source.toList = front ++ rest) : textBehind source (byteLength front) = rest := by
  rw [textBehind, textBefore_of_eq_append h, h, List.drop_left]

/-- The line of a source with the number that a place behind a front of the source has. -/
theorem sourceLine?_of_eq_append {source : String} {front rest : List Char}
    (h : source.toList = front ++ rest) :
    sourceLine? source (Place.start.after front).line =
      if rest = [] ∧ lastLine front = [] then none
      else some (String.ofList (lineAround front rest)) := by
  rw [Place.start_after, sourceLine?, Nat.add_sub_cancel_left, h, getElem?_splitLines]
  split <;> rfl

/-- The line of a place that is reached: none where the place is the end of a source that is empty
or ends with a line feed, and else the text around the place. -/
theorem Place.sourceLine?_of_reached {p : Place} {source : String} {rest : List Char}
    (h : p.Reached source.toList rest) :
    (sourceLine? source p.line = none ↔
      p.offset = source.utf8ByteSize ∧
        (source.toList = [] ∨ source.toList.getLast? = some '\n')) ∧
    ∀ line, sourceLine? source p.line = some line →
      line.toList = lineAround (textBefore source p.offset) (textBehind source p.offset) := by
  obtain ⟨front, hsource, rfl⟩ := h
  have hoffset : (start.after front).offset = byteLength front := by rw [start_after]
  have hend : byteLength front = source.utf8ByteSize ↔ rest = [] := by
    rw [← byteLength_toList, hsource, byteLength_append, Nat.left_eq_add]
    exact ⟨eq_nil_of_byteLength_eq_zero rest, fun hnil => hnil ▸ rfl⟩
  rw [hoffset, textBefore_of_eq_append hsource, textBehind_of_eq_append hsource, hend,
    sourceLine?_of_eq_append hsource]
  by_cases hnone : rest = [] ∧ lastLine front = []
  · obtain ⟨rfl, hlast⟩ := hnone
    rw [if_pos ⟨rfl, hlast⟩, hsource, List.append_nil]
    exact ⟨iff_of_true rfl ⟨rfl, (lastLine_eq_nil_iff front).mp hlast⟩, nofun⟩
  · rw [if_neg hnone]
    refine ⟨iff_of_false (Option.some_ne_none _) ?_, fun line hline => ?_⟩
    · rintro ⟨rfl, hlast⟩
      rw [hsource, List.append_nil] at hlast
      exact hnone ⟨rfl, (lastLine_eq_nil_iff front).mpr hlast⟩
    · obtain rfl := Option.some.inj hline
      exact String.toList_ofList

end GenericIR
