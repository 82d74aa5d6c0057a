import MarkupPath.Proofs.Query.Calls
import MarkupPath.Proofs.Query.Stuck
import MarkupPath.Query.Expression

/-!
# Where faults of expressions show

The grammar reports a fault at the token that it has before it, at the one that an operand or a
call starts with, or at the one behind a sign that it has just passed. All of these are tokens that
it has reached (`Expr.blames_of_ofTokens`), so the offset of its fault is that of a token of the
text (`offset_mem_of_ofTokens`). With what is known of the lexer this tells where the fault of any
text shows, and where the caret stands below it (`pointsInto_of_compile`).
-/

set_option autoImplicit false

namespace MarkupPath.Query

open MarkupPath.Text

/-! ## Offsets of a stream -/

namespace TokenStream

/-- The offsets of the tokens that are unread, and of the end. -/
def offsets (s : TokenStream) : List Nat := s.pending.map Token.offset ++ [s.stop]

theorem peek_offset_mem (s : TokenStream) : s.peek.offset ∈ s.offsets := by
  rw [peek, offsets]
  cases s.pending with
  | nil => exact List.mem_append_right _ (List.mem_singleton_self _)
  | cons token rest => exact List.mem_append_left _ List.mem_cons_self

/-- A stream that is reached has no other offsets. -/
theorem Reaches.offsets_subset {s s' : TokenStream} (h : s.Reaches s') :
    s'.offsets ⊆ s.offsets := by
  obtain ⟨hstop, passed, hpending, -⟩ := h
  rw [offsets, offsets, hstop, hpending, List.map_append, List.append_assoc]
  exact List.subset_append_right _ _

/-- The tokens of a list that ends with its end have the offsets of the list. -/
theorem offsets_ofTokens {tokens : List Token} {last : Token} (hlast : tokens.getLast? = some last)
    (hstop : last.kind.isStop = true) : (ofTokens tokens).offsets = tokens.map Token.offset := by
  have hsplit := List.dropLast_append_getLast? last hlast
  rw [ofTokens, hlast]
  simp only [hstop, if_true, offsets]
  rw [← hsplit, List.map_append, List.dropLast_concat]
  rfl

end TokenStream

/-- What is read from a list of tokens fails at one of their offsets. -/
theorem offset_mem_of_ofTokens {limit : Nat} {tokens : List Token} {e : SyntaxError}
    (h : Expr.ofTokens limit tokens = .error e) :
    e.offset ∈ (TokenStream.ofTokens tokens).offsets := by
  obtain ⟨s, hs, hoffset⟩ := (Expr.blames_of_ofTokens h).reached
  rw [hoffset]
  exact hs.offsets_subset s.peek_offset_mem

/-! ## Offsets of tokens -/

theorem stop_mem_getLast?_located (offset : Nat) (pieces : List Piece) :
    ∃ last ∈ (located offset pieces).getLast?, last.kind.isStop = true := by
  have hlast : (located offset pieces).getLast?.map Token.kind = some .stop := by
    rw [← List.getLast?_map, kinds_located, List.getLast?_concat]
  obtain ⟨last, hmem, hkind⟩ := Option.map_eq_some_iff.1 hlast
  exact ⟨last, hmem, by rw [hkind]; rfl⟩

/-- The tokens of a text end with its end, and none is located behind it. -/
theorem offset_le_of_tokens {text : List Char} {ts : List Token} (h : tokens text = .ok ts) :
    (∃ last ∈ ts.getLast?, last.kind.isStop = true) ∧ ∀ t ∈ ts, t.offset ≤ text.length := by
  obtain ⟨lead, pieces, htext, hreads⟩ := exists_pieces_of_tokensFrom h
  have hts := hreads.tokensFrom_eq htext
  rw [show tokensFrom (Lexer.start text) = .ok ts from h] at hts
  cases hts
  refine ⟨stop_mem_getLast?_located _ _, fun t ht => ?_⟩
  have hoffset := List.mem_map_of_mem (f := Token.offset) ht
  rw [offsets_located] at hoffset
  obtain ⟨before, hbefore, hcount⟩ := List.mem_map.1 hoffset
  -- the pieces before the token are part of the text
  obtain ⟨after, rfl⟩ := (List.mem_inits _ _).1 hbefore
  have hlength : text.length = (laid lead (before ++ after)).length := congrArg List.length htext
  rw [laid, List.flatMap_append] at hlength
  simp only [List.length_append] at hlength
  simp only [Lexer.start] at hcount
  omega

/-! ## The line of the caret -/

/-- Characters that are no separator belong to the first part of a text. -/
theorem exists_splitOnP_append {α : Type} {p : α → Bool} {xs : List α}
    (hxs : ∀ x ∈ xs, p x = false) (ys : List α) :
    ∃ first later, (xs ++ ys).splitOnP p = (xs ++ first) :: later := by
  induction xs with
  | nil =>
    obtain ⟨first, later, hsplit⟩ := List.exists_cons_of_ne_nil (List.splitOnP_ne_nil p ys)
    exact ⟨first, later, hsplit⟩
  | cons x xs ih =>
    obtain ⟨first, later, hsplit⟩ := ih fun y hy => hxs y (List.mem_cons_of_mem x hy)
    refine ⟨first, later, ?_⟩
    rw [List.cons_append, List.splitOnP_cons_eq_if_modifyHead, hxs x List.mem_cons_self, hsplit]
    rfl

/-- Below a text of one line the caret stands in the next line, behind as many blanks and tabs as
there are characters before the place. -/
theorem lines_caretBelow {offset : Nat} {complaint source : String}
    (hline : '\n' ∉ source.toList) (hoffset : offset ≤ source.toList.length) :
    ∃ padding below later,
      (caretBelow offset complaint source).toList.splitOn '\n' =
        source.toList :: (padding ++ '^' :: below) :: later ∧
      padding.length = offset ∧ ∀ c ∈ padding, c = ' ' ∨ c = '\t' := by
  let padding := (source.toList.take offset).map fun c => if c == '\t' then '\t' else ' '
  have hpadding : ∀ c ∈ padding, c = ' ' ∨ c = '\t' := by
    intro c hc
    obtain ⟨d, -, rfl⟩ := List.mem_map.1 hc
    split
    · exact .inr rfl
    · exact .inl rfl
  have hmarked : ∀ c ∈ padding ++ ['^'], (c == '\n') = false := by
    intro c hc
    rcases List.mem_append.1 hc with hc | hc
    · rcases hpadding c hc with rfl | rfl <;> rfl
    · rw [List.mem_singleton.1 hc]
      rfl
  have hsource : ∀ c ∈ source.toList, (c == '\n') = false := by
    intro c hc
    rw [beq_eq_false_iff_ne]
    rintro rfl
    exact hline hc
  have htext : (caretBelow offset complaint source).toList =
      source.toList ++ '\n' :: ((padding ++ ['^']) ++ (' ' :: complaint.toList)) := by
    simp [caretBelow, padding]
  obtain ⟨first, later, hsplit⟩ := exists_splitOnP_append hmarked (' ' :: complaint.toList)
  refine ⟨padding, first, later, ?_, ?_, hpadding⟩
  · rw [htext, List.splitOn, List.splitOnP_append_cons_of_forall_mem hsource _ rfl, hsplit,
      List.append_assoc]
    rfl
  · rw [List.length_map, List.length_take, Nat.min_eq_left hoffset]

/-! ## Whole expressions -/

/-- The fault of a text that does not compile is the one that the lexer gives up with, or else shows
at one of the tokens. -/
theorem fault_of_compile {limit : Nat} {source : String} {e : SyntaxError}
    (h : Expression.compile limit source = .error e) :
    tokens source.toList = .error e ∨
      ∃ ts, tokens source.toList = .ok ts ∧ ∃ t ∈ ts, t.offset = e.offset := by
  simp only [Expression.compile, Expr.ofText] at h
  cases htokens : tokens source.toList with
  | error fault =>
    rw [htokens] at h
    cases h
    exact .inl rfl
  | ok ts =>
    rw [htokens] at h
    obtain ⟨⟨last, hlast, hstop⟩, -⟩ := offset_le_of_tokens htokens
    refine .inr ⟨ts, rfl, ?_⟩
    cases hparse : Expr.ofTokens limit ts with
    | ok tree =>
      simp only [bind, Except.bind, hparse] at h
      cases h
    | error fault =>
      simp only [bind, Except.bind, hparse] at h
      cases h
      have hmem := offset_mem_of_ofTokens hparse
      rw [TokenStream.offsets_ofTokens hlast hstop] at hmem
      exact List.mem_map.1 hmem

/-- The fault points into the expression. -/
structure PointsInto (source : String) (e : SyntaxError) : Prop where
  bound : e.offset ≤ source.toList.length
  /-- The lexer gives up at the first place where no token can be read: it has read tokens one after
  another, and behind the blanks there no lexeme stands. -/
  lexer : ∀ fault, tokens source.toList = .error fault → fault = e ∧
    ∃ l, Relation.ReflTransGen Lexer.Passes (Lexer.start source.toList) l ∧
      l.rest = l.gap.chars ++ source.toList.drop e.offset ∧
      Stuck e.fault (source.toList.drop e.offset) ∧
      ∀ a d lexeme kind stops, Reading a d lexeme kind stops →
        ¬ lexeme <+: source.toList.drop e.offset
  /-- The grammar complains about one of the tokens, which may be the end. -/
  grammar : ∀ ts, tokens source.toList = .ok ts → ∃ t ∈ ts, t.offset = e.offset
  /-- Below an expression of one line the caret stands under the place. -/
  caret : '\n' ∉ source.toList → ∃ padding below later,
    (e.caret source).toList.splitOn '\n' = source.toList :: (padding ++ '^' :: below) :: later ∧
      padding.length = e.offset ∧ ∀ c ∈ padding, c = ' ' ∨ c = '\t'

/-- Every fault of a text, under every limit, points into the text. -/
theorem pointsInto_of_compile {limit : Nat} {source : String} {e : SyntaxError}
    (h : Expression.compile limit source = .error e) : PointsInto source e := by
  have hbound : e.offset ≤ source.toList.length := by
    rcases fault_of_compile h with htokens | ⟨ts, htokens, t, ht, hoffset⟩
    · obtain ⟨-, -, -, hbound, -⟩ := exists_stuck_of_tokens htokens
      exact hbound
    · rw [← hoffset]
      exact (offset_le_of_tokens htokens).2 t ht
  refine ⟨hbound, fun fault hfault => ?_, fun ts hts => ?_, fun hline => ?_⟩
  · rcases fault_of_compile h with htokens | ⟨ts, htokens, -⟩
    · obtain ⟨l, hpasses, hrest, -, hstuck⟩ := exists_stuck_of_tokens htokens
      rw [htokens] at hfault
      exact ⟨(Except.error.inj hfault).symm, l, hpasses, hrest, hstuck,
        fun a d lexeme kind stops hreading => hstuck.not_prefix hreading⟩
    · rw [htokens] at hfault
      cases hfault
  · rcases fault_of_compile h with htokens | ⟨ts', htokens, hmem⟩
    · rw [htokens] at hts
      cases hts
    · rw [htokens] at hts
      cases hts
      exact hmem
  · exact lines_caretBelow hline hbound

/-- The offset of the fault of a text that does not compile. -/
def faultOffset? (limit : Nat) (source : String) : Option Nat :=
  match Expression.compile limit source with
  | .error e => some e.offset
  | .ok _ => none

/-- Where a fault shows, there is one. -/
theorem exists_of_faultOffset? {limit offset : Nat} {source : String}
    (h : faultOffset? limit source = some offset) :
    ∃ e, Expression.compile limit source = .error e ∧ e.offset = offset := by
  unfold faultOffset? at h
  split at h
  · next e he => exact ⟨e, he, Option.some.inj h⟩
  · cases h

/-- A string without end is reported at its opening mark, and a comparison without right operand at
the token that stands there instead. -/
theorem pointsInto_openString_and_operand :
    (∃ e, Expression.compile 64 "//book[title='XML" = .error e ∧ e.offset = 13 ∧
      PointsInto "//book[title='XML" e) ∧
    ∃ e, Expression.compile 64 "//a[@b = ]" = .error e ∧ e.offset = 9 ∧
      PointsInto "//a[@b = ]" e := by
  obtain ⟨e, he, hoffset⟩ :=
    exists_of_faultOffset? (show faultOffset? 64 "//book[title='XML" = some 13 by decide +kernel)
  obtain ⟨e', he', hoffset'⟩ :=
    exists_of_faultOffset? (show faultOffset? 64 "//a[@b = ]" = some 9 by decide +kernel)
  exact ⟨⟨e, he, hoffset, pointsInto_of_compile he⟩, ⟨e', he', hoffset', pointsInto_of_compile he'⟩⟩

end MarkupPath.Query
