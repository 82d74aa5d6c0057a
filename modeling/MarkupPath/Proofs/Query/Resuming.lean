import MarkupPath.Proofs.Query.Stuck
import Mathlib.Order.Monotone.Basic

/-!
# Going on behind faults

A lexer may be called again behind a fault. `Lexer.Turn` lists what a call does: it finds the end,
takes characters off the text, or jams at a character that nothing starts with. A string without end
is taken as a whole and a lone exclamation mark is taken too, but a character that starts nothing is
left where it stands, so that every later call finds it again.

`Lexer.calls_of_text` says of all calls together that the end comes within one call more than the
text has characters unless the lexer jams; `Lexer.not_progresses_numberSign` shows that it can.
-/

set_option autoImplicit false

namespace MarkupPath.Query

open MarkupPath.Text MarkupPath.Number

/-- A lexeme, or the blanks before one, may start with the character. -/
def Begins (c : Char) : Prop :=
  isBlank c = true ∨ c.isDigit = true ∨ (c = '"' ∨ c = '\'') ∨ isNameStart c = true ∨
    ∃ s ∈ signs, s.spelling.toList.head? = some c

instance : DecidablePred Begins := fun _ => inferInstanceAs (Decidable (_ ∨ _))

/-- Together with the sign of equality it is a sign. -/
theorem begins_exclamation : Begins '!' :=
  .inr (.inr (.inr (.inr ⟨.notEqual, by decide, rfl⟩)))

namespace Lexer

/-! ## Calls -/

/-- The lexer behind `k` calls, whatever they have given. -/
def behind (l : Lexer) (k : Nat) : Lexer := (fun l => l.next.2)^[k] l

/-- What the call behind `k` other calls gives. -/
def answer (l : Lexer) (k : Nat) : Except SyntaxError Token := (l.behind k).next.1

/-- The offset of a token or of a fault. -/
def reported : Except SyntaxError Token → Nat
  | .ok token => token.offset
  | .error e => e.offset

/-- The answer is the end of the text. -/
def IsEnd (a : Except SyntaxError Token) : Prop := ∃ token, a = .ok token ∧ token.kind = .stop

/-- The answer is the fault of a character that nothing starts with. -/
def Jams (a : Except SyntaxError Token) : Prop :=
  ∃ c offset, a = .error ⟨.character c, offset⟩ ∧ ¬ Begins c

theorem not_isEnd_error (e : SyntaxError) : ¬ IsEnd (.error e) := by
  rintro ⟨token, htoken, -⟩
  cases htoken

theorem not_jams_ok (token : Token) : ¬ Jams (.ok token) := by
  rintro ⟨c, offset, hfault, -⟩
  cases hfault

theorem IsEnd.not_jams {a : Except SyntaxError Token} (h : IsEnd a) : ¬ Jams a := by
  obtain ⟨token, rfl, -⟩ := h
  exact not_jams_ok token

/-- Behind this answer the lexer does not move any more. -/
def Halts (a : Except SyntaxError Token) : Prop := IsEnd a ∨ Jams a

/-! ## One call -/

/-- What a call does with the lexer, behind the blanks that stand there. -/
inductive Turn (l : Lexer) : Except SyntaxError Token → Lexer → Prop where
  | ends (hrest : l.skipBlanks.rest = []) :
      Turn l (.ok ⟨.stop, l.skipBlanks.offset⟩) l.skipBlanks
  | takes {a : Except SyntaxError Token} {l' : Lexer} {taken : List Char} (hne : taken ≠ [])
      (hrest : l.skipBlanks.rest = taken ++ l'.rest)
      (hoffset : l'.offset = l.skipBlanks.offset + taken.length)
      (hreported : reported a = l.skipBlanks.offset) (hend : ¬ IsEnd a) (hjams : ¬ Jams a) :
      Turn l a l'
  | jams {c : Char} {later : List Char} (hrest : l.skipBlanks.rest = c :: later)
      (hc : ¬ Begins c) : Turn l (.error ⟨.character c, l.skipBlanks.offset⟩) l.skipBlanks

variable {l l' : Lexer} {a : Except SyntaxError Token}

theorem offset_skipBlanks (l : Lexer) : l.skipBlanks.offset = l.offset + l.gap.chars.length := rfl

/-- How much of the text a fault takes. -/
theorem count_of_scan_error {text : List Char} {fault : SyntaxFault} {count : Nat}
    (h : l.scan text = (.error fault, count)) :
    (fault = .openString ∧ count = text.length) ∨
      ∃ c, fault = .character c ∧ count = if c == '!' then 1 else 0 := by
  unfold scan at h
  split at h
  · cases h
  · split at h
    · cases h
    · split at h
      · dsimp only at h
        split at h
        · cases h
        · cases h
          exact .inl ⟨rfl, List.length_cons.symm⟩
      · split at h
        · cases h
        · split at h
          · cases h
          · cases h
            exact .inr ⟨_, rfl, rfl⟩

theorem exists_scan_of_next_error {e : SyntaxError} (h : l.next = (.error e, l')) :
    ∃ count, l.skipBlanks.scan l.skipBlanks.rest = (.error e.fault, count) ∧
      e.offset = l.skipBlanks.offset ∧ l' = l.skipBlanks.pass count := by
  unfold next at h
  dsimp only at h
  split at h
  · cases h
  · cases h
  · next hscan =>
    cases h
    exact ⟨_, hscan, rfl, rfl⟩

theorem turn_of_error {e : SyntaxError} (h : l.next = (.error e, l')) : Turn l (.error e) l' := by
  obtain ⟨count, hscan, hoffset, rfl⟩ := exists_scan_of_next_error h
  have hcount := count_of_scan_error hscan
  obtain ⟨-, hstuck⟩ := stuck_of_next h
  obtain ⟨fault, offset⟩ := e
  dsimp only at hoffset hcount hstuck
  subst hoffset
  generalize hrest : l.skipBlanks.rest = rest at hstuck hcount
  cases hstuck with
  | @character c rest hblank hdigit hquote hname hsign =>
    have hc : ¬ Begins c := by
      rintro (h | h | h | h | ⟨s, hs, h⟩)
      · exact Bool.eq_false_iff.1 hblank h
      · exact Bool.eq_false_iff.1 hdigit h
      · exact h.elim hquote.1 hquote.2
      · exact Bool.eq_false_iff.1 hname h
      · exact hsign s hs h
    have hzero : count = 0 := by
      obtain ⟨hfault, -⟩ | ⟨c', hfault, rfl⟩ := hcount
      · cases hfault
      · cases hfault
        refine if_neg fun hmark => hc ?_
        rw [eq_of_beq hmark]
        exact begins_exclamation
    rw [hzero]
    exact .jams hrest hc
  | @exclamation rest _ =>
    have hone : count = 1 := by
      obtain ⟨hfault, -⟩ | ⟨c, hfault, rfl⟩ := hcount
      · cases hfault
      · cases hfault
        rfl
    subst hone
    refine .takes (List.cons_ne_nil '!' []) ?_ rfl rfl (not_isEnd_error _) ?_
    · rw [pass, hrest]
      rfl
    · rintro ⟨c, offset, hfault, hc⟩
      cases hfault
      exact hc begins_exclamation
  | @openString mark rest hmark hopen =>
    have hall : count = (mark :: rest).length := by
      obtain ⟨-, hcount⟩ | ⟨c, hfault, -⟩ := hcount
      · exact hcount
      · cases hfault
    subst hall
    refine .takes (List.cons_ne_nil mark rest) ?_ rfl rfl (not_isEnd_error _) ?_
    · rw [pass, hrest, List.drop_length, List.append_nil]
    · rintro ⟨c, offset, hfault, -⟩
      cases hfault

theorem turn_of_token {token : Token} (h : l.next = (.ok token, l')) : Turn l (.ok token) l' := by
  cases hkind : token.kind.isStop with
  | true =>
    have hrest := rest_of_next_stop h hkind
    have hnil : l.skipBlanks.rest = [] := by
      have hsplit := l.rest_eq
      rw [hrest] at hsplit
      exact List.self_eq_append_right.1 hsplit
    rw [next_of_blank hrest] at h
    cases h
    exact .ends hnil
  | false =>
    obtain ⟨lexeme, tail, stops, hrest, hreading, hstops⟩ := exists_reading_of_next h hkind
    obtain ⟨c, cs, hlexeme, -⟩ := hreading.exists_eq_cons
    obtain ⟨htoken, rfl⟩ := Prod.mk.inj ((next_of_reading hrest hreading hstops).symm.trans h)
    have hskip : l.skipBlanks.rest = lexeme ++ tail :=
      List.append_cancel_left (l.rest_eq.symm.trans hrest)
    refine .takes (hlexeme ▸ List.cons_ne_nil c cs) hskip rfl ?_ ?_ (not_jams_ok token)
    · rw [← htoken]
      rfl
    · rintro ⟨token', hok, hstop⟩
      cases hok
      rw [hstop] at hkind
      cases hkind

theorem turn_next (l : Lexer) : Turn l l.next.1 l.next.2 := by
  cases h : l.next with
  | mk a l' =>
    cases a with
    | ok token => exact turn_of_token h
    | error e => exact turn_of_error h

namespace Turn

variable (h : Turn l a l')
include h

/-- The lexer takes characters off the text and counts them. -/
theorem exists_taken :
    ∃ taken, l.rest = taken ++ l'.rest ∧ l'.offset = l.offset + taken.length := by
  cases h with
  | ends => exact ⟨l.gap.chars, l.rest_eq, rfl⟩
  | jams => exact ⟨l.gap.chars, l.rest_eq, rfl⟩
  | @takes _ _ taken _ hrest hoffset =>
    refine ⟨l.gap.chars ++ taken, ?_, ?_⟩
    · rw [List.append_assoc, ← hrest, ← rest_eq]
    · rw [hoffset, offset_skipBlanks, List.length_append, Nat.add_assoc]

/-- It reports a place that it passes. -/
theorem offset_le_reported : l.offset ≤ reported a ∧ reported a ≤ l'.offset := by
  have hskip : l.offset ≤ l.skipBlanks.offset := Nat.le_add_right _ _
  cases h with
  | ends => exact ⟨hskip, Nat.le_refl _⟩
  | jams => exact ⟨hskip, Nat.le_refl _⟩
  | takes _ _ hoffset hreported =>
    rw [hreported, hoffset]
    exact ⟨hskip, Nat.le_add_right _ _⟩

/-- A call that neither finds the end nor jams takes a character. -/
theorem offset_lt (hend : ¬ IsEnd a) (hjams : ¬ Jams a) : l.offset < l'.offset := by
  cases h with
  | ends => exact absurd ⟨_, rfl, rfl⟩ hend
  | jams _ hc => exact absurd ⟨_, _, rfl, hc⟩ hjams
  | takes hne _ hoffset =>
    rw [hoffset, offset_skipBlanks]
    have hpos := List.length_pos_iff.2 hne
    omega

/-- The character that a lexer jams at stands in the text. -/
theorem exists_mem_of_jams (hjams : Jams a) : ∃ c ∈ l.rest, ¬ Begins c := by
  cases h with
  | ends => exact absurd hjams (not_jams_ok _)
  | takes _ _ _ _ _ hnot => exact absurd hjams hnot
  | @jams c later hrest hc =>
    refine ⟨c, ?_, hc⟩
    rw [l.rest_eq, hrest]
    exact List.mem_append_right _ List.mem_cons_self

end Turn

/-- Behind its blanks a lexer has none to skip. -/
theorem skipBlanks_skipBlanks (l : Lexer) : l.skipBlanks.skipBlanks = l.skipBlanks := by
  have hfirst : ∀ c ∈ l.skipBlanks.rest.head?, isBlank c = false := by
    intro c hc
    have hend := List.head?_dropWhile_not isBlank l.rest
    rwa [show (l.rest.dropWhile isBlank).head? = some c from hc] at hend
  have hnone : l.skipBlanks.rest = (⟨[], nofun⟩ : Gap).chars ++ l.skipBlanks.rest := rfl
  exact skipBlanks_of_rest hnone hfirst

/-- Where a call finds the end or jams, so does the next one, at the same place. -/
theorem next_of_halts (h : Halts l.next.1) : l.next.2.next = l.next := by
  have hturn := l.turn_next
  have hskip : l.next.2 = l.skipBlanks := by
    generalize l.next.1 = a at hturn h
    generalize l.next.2 = l' at hturn
    cases hturn with
    | ends => rfl
    | takes _ _ _ _ hend hjams => exact absurd h (not_or.2 ⟨hend, hjams⟩)
    | jams => rfl
  rw [hskip, next, next, skipBlanks_skipBlanks]

/-! ## All calls -/

theorem behind_succ (l : Lexer) (k : Nat) : l.behind (k + 1) = (l.behind k).next.2 :=
  Function.iterate_succ_apply' _ _ _

theorem answer_succ (l : Lexer) (k : Nat) : l.answer (k + 1) = l.next.2.answer k := by
  rw [answer, answer, behind, Function.iterate_succ_apply, behind]

theorem turn (l : Lexer) (k : Nat) : Turn (l.behind k) (l.answer k) (l.behind (k + 1)) := by
  rw [behind_succ]
  exact turn_next _

/-- At every time the text is what has been taken and what is left. -/
theorem exists_taken_behind (l : Lexer) (k : Nat) :
    ∃ taken, l.rest = taken ++ (l.behind k).rest ∧
      (l.behind k).offset = l.offset + taken.length := by
  induction k with
  | zero => exact ⟨[], rfl, rfl⟩
  | succ k ih =>
    obtain ⟨before, hbefore, hoffset⟩ := ih
    obtain ⟨taken, htaken, hoffset'⟩ := (l.turn k).exists_taken
    refine ⟨before ++ taken, ?_, ?_⟩
    · rw [List.append_assoc, ← htaken, ← hbefore]
    · rw [hoffset', hoffset, List.length_append, Nat.add_assoc]

/-- Behind an end or a jam nothing changes any more. -/
theorem answer_of_halts {k : Nat} (h : Halts (l.answer k)) (j : Nat) :
    l.answer (k + j) = l.answer k := by
  have hnext : (l.behind (k + j)).next = (l.behind k).next := by
    induction j with
    | zero => rfl
    | succ j ih =>
      rw [← Nat.add_assoc, behind_succ, ← ih]
      refine next_of_halts ?_
      rw [ih]
      exact h
  exact congrArg Prod.fst hnext

/-- Two calls that halt give the same. -/
theorem answer_eq_of_halts {j k : Nat} (hj : Halts (l.answer j)) (hk : Halts (l.answer k)) :
    l.answer j = l.answer k := by
  rcases Nat.le_total j k with hle | hle
  · obtain ⟨d, rfl⟩ := Nat.exists_eq_add_of_le hle
    exact (answer_of_halts hj d).symm
  · obtain ⟨d, rfl⟩ := Nat.exists_eq_add_of_le hle
    exact answer_of_halts hk d

/-- Within one call more than there are characters left the lexer finds the end or jams. -/
theorem exists_halts (l : Lexer) : ∃ k ≤ l.rest.length, Halts (l.answer k) := by
  induction hlength : l.rest.length using Nat.strong_induction_on generalizing l with
  | _ n ih =>
    by_cases hhalts : Halts (l.answer 0)
    · exact ⟨0, Nat.zero_le _, hhalts⟩
    · -- the first call takes a character, and the others are those of the lexer behind it
      obtain ⟨hend, hjams⟩ := not_or.1 hhalts
      obtain ⟨taken, htaken, hoffset⟩ := l.turn_next.exists_taken
      have hless := l.turn_next.offset_lt hend hjams
      have hcount : l.rest.length = taken.length + l.next.2.rest.length := by
        rw [htaken, List.length_append]
      obtain ⟨k, hk, hanswer⟩ := ih _ (by omega) l.next.2 rfl
      rw [← answer_succ] at hanswer
      exact ⟨k + 1, by omega, hanswer⟩

/-- A call reports a place that no later call is before. -/
theorem monotone_reported (l : Lexer) : Monotone fun k => reported (l.answer k) :=
  monotone_nat_of_le_succ fun k =>
    Nat.le_trans (l.turn k).offset_le_reported.2 (l.turn (k + 1)).offset_le_reported.1

/-! ## Texts -/

/-- The lexer can be driven to the end of the text, and on behind faults: every call that does not
give the end takes a character, so the end comes within one call more than there are characters; and
no call reports a place before that of an earlier one. -/
structure Progresses (source : List Char) : Prop where
  takes (k : Nat) (h : ¬ IsEnd ((start source).answer k)) :
    ((start source).behind k).offset < ((start source).behind (k + 1)).offset
  ends : ∃ k ≤ source.length, IsEnd ((start source).answer k)
  ordered : Monotone fun k => reported ((start source).answer k)

theorem progresses_of_not_jams {source : List Char} (h : ∀ k, ¬ Jams ((start source).answer k)) :
    Progresses source where
  takes k hend := ((start source).turn k).offset_lt hend (h k)
  ends := by
    obtain ⟨k, hk, hhalts⟩ := (start source).exists_halts
    exact ⟨k, hk, hhalts.resolve_right (h k)⟩
  ordered := monotone_reported _

/-- A lexer that reaches the end has not jammed before, nor does it later. -/
theorem Progresses.not_jams {source : List Char} (h : Progresses source) (k : Nat) :
    ¬ Jams ((start source).answer k) := by
  intro hjams
  obtain ⟨j, -, hend⟩ := h.ends
  have hsame := answer_eq_of_halts (.inl hend) (.inr hjams)
  rw [hsame] at hend
  exact hend.not_jams hjams

/-- A lexer jams only at a character of the text that nothing starts with. -/
theorem not_jams_of_begins {source : List Char} (h : ∀ c ∈ source, Begins c) (k : Nat) :
    ¬ Jams ((start source).answer k) := by
  intro hjams
  obtain ⟨c, hc, hnot⟩ := ((start source).turn k).exists_mem_of_jams hjams
  obtain ⟨taken, htaken, -⟩ := (start source).exists_taken_behind k
  refine hnot (h c ?_)
  rw [show source = taken ++ ((start source).behind k).rest from htaken]
  exact List.mem_append_right _ hc

/-- What is left of a text is the text without the characters that are counted. -/
theorem rest_behind_start (source : List Char) (k : Nat) :
    ((start source).behind k).rest = source.drop ((start source).behind k).offset ∧
      ((start source).behind k).offset ≤ source.length := by
  obtain ⟨taken, htaken, hoffset⟩ := (start source).exists_taken_behind k
  have hcount : ((start source).behind k).offset = taken.length := by
    rw [hoffset]
    exact Nat.zero_add _
  have htext : source = taken ++ ((start source).behind k).rest := htaken
  have hlength := congrArg List.length htext
  rw [List.length_append] at hlength
  refine ⟨?_, by omega⟩
  rw [hcount]
  nth_rewrite 2 [htext]
  exact List.drop_left.symm

/-- The calls of a lexer from the start of a text, and on behind faults. The lexer can be driven to
the end of the text just if no call jams, and so it can if a lexeme or a blank starts with every
character of the text. In any text the offset counts the characters taken, each call takes one
unless it finds the end or jams, one of these two happens within one call more than there are
characters and then for ever, and no call reports a place before that of an earlier one. -/
theorem calls_of_text (source : List Char) :
    (Progresses source ↔ ∀ k, ¬ Jams ((start source).answer k)) ∧
      ((∀ c ∈ source, Begins c) → Progresses source) ∧
      (∀ k, ((start source).behind k).rest = source.drop ((start source).behind k).offset ∧
        ((start source).behind k).offset ≤ source.length) ∧
      (∀ k, ¬ IsEnd ((start source).answer k) → ¬ Jams ((start source).answer k) →
        ((start source).behind k).offset < ((start source).behind (k + 1)).offset) ∧
      (∃ k ≤ source.length,
        (IsEnd ((start source).answer k) ∨ Jams ((start source).answer k)) ∧
          ∀ j, (start source).answer (k + j) = (start source).answer k) ∧
      Monotone fun k => reported ((start source).answer k) := by
  obtain ⟨k, hk, hhalts⟩ := (start source).exists_halts
  exact ⟨⟨Progresses.not_jams, progresses_of_not_jams⟩,
    fun h => progresses_of_not_jams (not_jams_of_begins h), rest_behind_start source,
    fun k => ((start source).turn k).offset_lt, ⟨k, hk, hhalts, answer_of_halts hhalts⟩,
    monotone_reported _⟩

/-- A lone exclamation mark and a string without end do not stop the lexer. -/
theorem progresses_exclamation_openString :
    (∀ c ∈ "a ! b 'c".toList, Begins c) ∧ Progresses "a ! b 'c".toList := by
  have hall : ("a ! b 'c".toList.all fun c => decide (Begins c)) = true := by decide +kernel
  have hbegins : ∀ c ∈ "a ! b 'c".toList, Begins c :=
    fun c hc => of_decide_eq_true (List.all_eq_true.1 hall c hc)
  exact ⟨hbegins, (calls_of_text _).2.1 hbegins⟩

/-- A number sign does: it is reported again and again, and never taken. -/
theorem not_progresses_numberSign : ¬ Progresses "#".toList := by
  intro h
  have hanswer : (start "#".toList).answer 0 = .error ⟨.character '#', 0⟩ := by rfl
  have htakes := h.takes 0 ?_
  · exact absurd htakes (by decide +kernel)
  · rw [hanswer]
    exact not_isEnd_error _

end Lexer

end MarkupPath.Query
