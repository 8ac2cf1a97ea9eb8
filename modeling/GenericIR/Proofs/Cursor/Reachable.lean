/-
# Lexers that calls can leave

A lexer may be asked for one token or for all of them, again and again, and an error is no end to
that.  Whatever it is asked for, it goes over its source from the start without leaving anything
out, so its place always follows the formula for its offset, and so do the places of all tokens
and errors.

* `Lexer.reached_of_next`, `Lexer.reached_of_next_error` : what one reading preserves;
* `Lexer.Reachable.reached` : what any number of calls preserve;
* `Lexer.counted_of_reachable` : the places of a lexer, of its tokens and of its errors.
-/
import Mathlib
import GenericIR.Proofs.Cursor.Place
import GenericIR.Proofs.FirstFault

namespace GenericIR

namespace Lexer

/-! ## Calls -/

/-- The lexer after a call, whether the call gave a value or a diagnostic. -/
def after {α : Type} (call : EStateM Diagnostic Lexer α) (l : Lexer) : Lexer :=
  match call l with
  | .ok _ m => m
  | .error _ m => m

/-- The lexer after a call that gives a value. -/
theorem after_of_ok {α : Type} {call : EStateM Diagnostic Lexer α} {l m : Lexer} {a : α}
    (h : call l = .ok a m) : after call l = m := by
  rw [after, h]

/-- The lexer after a call that gives a diagnostic. -/
theorem after_of_error {α : Type} {call : EStateM Diagnostic Lexer α} {l m : Lexer}
    {d : Diagnostic} (h : call l = .error d m) : after call l = m := by
  rw [after, h]

/-- Tokenizing leaves the lexer where the readings end. -/
theorem after_tokenize (l : Lexer) : after tokenize l = (readAll l).lexer := by
  unfold after tokenize
  dsimp only
  cases (readAll l).fault <;> rfl

/-- The lexers that any number of calls leave behind in a source, calls with an error among
them. -/
inductive Reachable (limits : Limits) (source : String) : Lexer → Prop where
  | start : Reachable limits source (.ofSource limits source)
  | reading {l : Lexer} (h : Reachable limits source l) : Reachable limits source (after next l)
  | tokenizing {l : Lexer} (h : Reachable limits source l) :
      Reachable limits source (after tokenize l)

namespace Reachable

variable {limits : Limits} {source : String} {l m : Lexer}

/-- The lexer behind a token is reachable. -/
theorem of_next {x : Lexeme} (h : Reachable limits source l) (hnext : next l = .ok x m) :
    Reachable limits source m := after_of_ok hnext ▸ h.reading

end Reachable

/-! ## One reading -/

/-- A lexer whose place is reached from the start of its source, with the rest of the source behind
it. -/
abbrev ReachedIn (source : List Char) (l : Lexer) : Prop := l.place.Reached source l.rest

section

variable {source : List Char} {l m : Lexer}

/-- Taking a gap and a text reaches the place between them and the place behind them. -/
theorem Took.reached {blank text : List Char} (htook : Took l blank text m)
    (h : ReachedIn source l) :
    (l.place.after blank).Reached source (text ++ m.rest) ∧ ReachedIn source m := by
  have hblank : (l.place.after blank).Reached source (text ++ m.rest) :=
    Place.Reached.after (htook.rest ▸ h)
  refine ⟨hblank, ?_⟩
  rw [ReachedIn, htook.place]
  exact hblank.after

/-- A reading reaches the place of its token, and leaves the lexer where that token stops. -/
theorem reached_of_next {x : Lexeme} (h : ReachedIn source l) (hnext : next l = .ok x m) :
    x.token.span.toPlace.Reached source (x.text.toList ++ m.rest) ∧ ReachedIn source m ∧
      x.token.span.stop = m.place.offset := by
  obtain ⟨htook, hspan⟩ := took_of_next hnext
  obtain ⟨hplace, hm⟩ := htook.reached h
  rw [hspan]
  refine ⟨hplace, hm, ?_⟩
  rw [Span.stop_ofText, htook.place]

/-- A reading with an error reaches the place of the error, and leaves the lexer where the error
stops. -/
theorem reached_of_next_error {d : Diagnostic} (h : ReachedIn source l)
    (hnext : next l = .error d m) :
    ∃ s text, d.span = some s ∧ s.toPlace.Reached source (text ++ m.rest) ∧ ReachedIn source m ∧
      s.stop = m.place.offset := by
  obtain ⟨blank, text, fault, htook, rfl⟩ := took_of_next_error hnext
  obtain ⟨hplace, hm⟩ := htook.reached h
  refine ⟨_, text, rfl, hplace, hm, ?_⟩
  rw [Span.stop_ofText, htook.place]

end

/-! ## All readings -/

section

variable {limits : Limits} {source : String} {l : Lexer}

/-- The lexemes up to the end or up to an error are readings of reachable lexers, and so is that
error; it leaves the lexer where it is in the end. -/
theorem Reachable.readAll (h : Reachable limits source l) :
    (∀ x ∈ (readAll l).lexemes, ∃ k m, Reachable limits source k ∧ next k = .ok x m) ∧
    ((readAll l).fault = none → ∃ k x, Reachable limits source k ∧
      (readAll l).lexemes.getLast? = some x ∧ next k = .ok x (readAll l).lexer) ∧
    ∀ d, (readAll l).fault = some d →
      ∃ k, Reachable limits source k ∧ next k = .error d (readAll l).lexer := by
  fun_induction Lexer.readAll l with
  | case1 l d m hnext =>
      refine ⟨fun x hx => ?_, fun hnone => ?_, fun e he => ?_⟩
      · cases hx
      · cases hnone
      · cases he
        exact ⟨l, h, hnext⟩
  | case2 l x m hnext hx =>
      refine ⟨fun y hy => ?_, fun _ => ⟨l, x, h, rfl, hnext⟩, fun d hd => ?_⟩
      · obtain rfl := List.mem_singleton.mp hy
        exact ⟨l, m, h, hnext⟩
      · cases hd
  | case3 l x m hnext hx later ih =>
      obtain ⟨hlexemes, hend, herror⟩ := ih (h.of_next hnext)
      refine ⟨List.forall_mem_cons.mpr ⟨⟨l, m, h, hnext⟩, hlexemes⟩, fun hnone => ?_, herror⟩
      obtain ⟨k, y, hk, hlast, hy⟩ := hend hnone
      refine ⟨k, y, hk, ?_, hy⟩
      rw [List.getLast?_cons, hlast]
      rfl

/-- Reading on to the end or to an error goes on to reach places. -/
theorem reachedIn_readAll {source : List Char} (h : ReachedIn source l) :
    ReachedIn source (Lexer.readAll l).lexer := by
  fun_induction Lexer.readAll l with
  | case1 l d m hnext =>
      obtain ⟨_, _, _, _, hm, _⟩ := reached_of_next_error h hnext
      exact hm
  | case2 l x m hnext hx => exact (reached_of_next h hnext).2.1
  | case3 l x m hnext hx later ih => exact ih (reached_of_next h hnext).2.1

/-- Every lexer that calls leave behind has reached its place, by induction on the calls. -/
theorem Reachable.reached (h : Reachable limits source l) : ReachedIn source.toList l := by
  induction h with
  | start => exact .start source.toList
  | @reading l _ ih =>
      cases hnext : next l with
      | ok x m =>
          rw [after_of_ok hnext]
          exact (reached_of_next ih hnext).2.1
      | error d m =>
          obtain ⟨_, _, _, _, hm, _⟩ := reached_of_next_error ih hnext
          rw [after_of_error hnext]
          exact hm
  | tokenizing _ ih =>
      rw [after_tokenize]
      exact reachedIn_readAll ih

/-! ## Limits -/

/-- A reading keeps the limits. -/
theorem limits_after_next (l : Lexer) : (after next l).limits = l.limits := by
  cases hnext : next l with
  | ok x m =>
      rw [after_of_ok hnext]
      exact (took_of_next hnext).1.limits
  | error d m =>
      rw [after_of_error hnext]
      obtain ⟨_, _, _, htook, _⟩ := took_of_next_error hnext
      exact htook.limits

/-- Reading on to the end or to an error keeps the limits. -/
theorem limits_readAll (l : Lexer) : (readAll l).lexer.limits = l.limits := by
  fun_induction Lexer.readAll l with
  | case1 l d m hnext => exact after_of_error hnext ▸ limits_after_next l
  | case2 l x m hnext hx => exact after_of_ok hnext ▸ limits_after_next l
  | case3 l x m hnext hx later ih => exact ih.trans (after_of_ok hnext ▸ limits_after_next l)

/-- Calls keep the limits of a lexer. -/
theorem Reachable.limits_eq (h : Reachable limits source l) : l.limits = limits := by
  induction h with
  | start => rfl
  | reading _ ih => rw [limits_after_next, ih]
  | tokenizing _ ih => rw [after_tokenize, limits_readAll, ih]

/-! ## Places of tokens and errors -/

/-- The place of a token follows the formula, and the token stops where the reading leaves the
lexer. -/
theorem Reachable.counted_of_next (h : Reachable limits source l) {x : Lexeme} {m : Lexer}
    (hnext : next l = .ok x m) :
    x.token.span.toPlace.CountedIn source ∧ x.token.span.stop = m.place.offset := by
  obtain ⟨hplace, _, hstop⟩ := reached_of_next h.reached hnext
  exact ⟨hplace.countedIn, hstop⟩

/-- The place of an error follows the formula, and the error stops where the reading leaves the
lexer. -/
theorem Reachable.counted_of_next_error (h : Reachable limits source l) {d : Diagnostic}
    {m : Lexer} (hnext : next l = .error d m) :
    ∃ s, d.span = some s ∧ s.toPlace.CountedIn source ∧ s.stop = m.place.offset := by
  obtain ⟨s, _, hs, hplace, _, hstop⟩ := reached_of_next_error h.reached hnext
  exact ⟨s, hs, hplace.countedIn, hstop⟩

/-- The place of any lexer that calls leave behind follows the formula for its offset, and so do
the places of the tokens and the errors of the next call.  A token or an error stops where its
reading leaves the lexer, and what a call ends with stops where that call leaves it. -/
theorem counted_of_reachable (limits : Limits) (source : String) (l : Lexer)
    (h : Reachable limits source l) :
    l.place.CountedIn source ∧
    (∀ x m, next l = .ok x m →
      x.token.span.toPlace.CountedIn source ∧ x.token.span.stop = m.place.offset) ∧
    (∀ d m, next l = .error d m →
      ∃ s, d.span = some s ∧ s.toPlace.CountedIn source ∧ s.stop = m.place.offset) ∧
    (∀ tokens m, tokenize l = .ok tokens m →
      (∀ t ∈ tokens, t.span.toPlace.CountedIn source ∧
        ∃ k x k', Reachable limits source k ∧ next k = .ok x k' ∧ x.token = t ∧
          t.span.stop = k'.place.offset) ∧
      ∃ t, tokens.getLast? = some t ∧ t.span.stop = m.place.offset) ∧
    (∀ d m, tokenize l = .error d m →
      ∃ s, d.span = some s ∧ s.toPlace.CountedIn source ∧ s.stop = m.place.offset) := by
  obtain ⟨hlexemes, hend, herror⟩ := h.readAll
  refine ⟨h.reached.countedIn, fun x m => h.counted_of_next, fun d m => h.counted_of_next_error,
    fun tokens m htokens => ?_, fun d m hd => ?_⟩
  · obtain ⟨hfault, rfl, rfl⟩ := (tokenize_eq_ok_iff l m tokens).mp htokens
    refine ⟨fun t ht => ?_, ?_⟩
    · obtain ⟨x, hx, rfl⟩ := List.mem_map.mp ht
      obtain ⟨k, k', hk, hnext⟩ := hlexemes x hx
      obtain ⟨hcounted, hstop⟩ := hk.counted_of_next hnext
      exact ⟨hcounted, k, x, k', hk, hnext, rfl, hstop⟩
    · obtain ⟨k, x, hk, hlast, hnext⟩ := hend hfault
      refine ⟨x.token, ?_, (hk.counted_of_next hnext).2⟩
      rw [List.getLast?_map, hlast]
      rfl
  · have hm : m = (Lexer.readAll l).lexer := by rw [← after_tokenize, after_of_error hd]
    obtain ⟨k, hk, hnext⟩ := herror d ((tokenize_eq_error_iff l d).mp ⟨m, hd⟩)
    exact hm ▸ hk.counted_of_next_error hnext

/-- A lexer that has read a string with a letter of two bytes, then a number with no digits, and
now faces a string with no end: its place follows the formula, and so does the error ahead. -/
theorem counted_behind_error :
    Reachable .standard "\"é\"\n0x \"a" ⟨.standard, ⟨7, 2, 3⟩, [' ', '"', 'a']⟩ ∧
    (⟨7, 2, 3⟩ : Place).CountedIn "\"é\"\n0x \"a" ∧
    (⟨8, 2, 4⟩ : Place).CountedIn "\"é\"\n0x \"a" := by
  have hafter : after next (after next (.ofSource .standard "\"é\"\n0x \"a")) =
      ⟨.standard, ⟨7, 2, 3⟩, [' ', '"', 'a']⟩ := by cbv
  have h : Reachable .standard "\"é\"\n0x \"a" ⟨.standard, ⟨7, 2, 3⟩, [' ', '"', 'a']⟩ :=
    hafter ▸ Reachable.start.reading.reading
  have hfault : next ⟨.standard, ⟨7, 2, 3⟩, [' ', '"', 'a']⟩ =
      .error (.ofFault .unterminatedString ⟨⟨8, 2, 4⟩, 2⟩) ⟨.standard, ⟨10, 2, 6⟩, []⟩ := by cbv
  obtain ⟨hplace, _, herror, _⟩ := counted_of_reachable .standard "\"é\"\n0x \"a" _ h
  obtain ⟨s, hs, hcounted, _⟩ := herror _ _ hfault
  obtain rfl : (⟨⟨8, 2, 4⟩, 2⟩ : Span) = s := Option.some.inj hs
  exact ⟨h, hplace, hcounted⟩

end

end Lexer

end GenericIR
