import MarkupPath.Proofs.Query.Scan
import Mathlib.Data.List.Forall2
import Mathlib.Data.List.Infix

/-!
# Blanks between lexemes

A text that the lexer reads is laid out from `Piece`s: lexemes with the blanks behind them, in front
of which stand the blanks that it starts with (`laid`). The lexer passes every character once, as
part of a lexeme or as a blank, and counts them all (`exists_pieces_of_tokensFrom`).

What a piece is read as depends on the two facts about the token before it and on the character
behind its lexeme, which may be a blank in any case. `PiecesRead` puts these conditions together for
all pieces. It stays true when blanks are added anywhere (`PiecesRead.respaced`), and the lexer
reads whatever satisfies it (`PiecesRead.tokensFrom_eq`); so spacing does not matter
(`spacing_of_tokens`).
-/

set_option autoImplicit false

namespace MarkupPath.Query

open MarkupPath.Text MarkupPath.Number

/-! ## Texts of lexemes and blanks -/

/-- Characters between two lexemes. -/
structure Gap where
  chars : List Char
  blank : ∀ c ∈ chars, isBlank c = true

/-- A lexeme with its token and the blanks behind it. It does not start with a blank, nor end with
one. -/
structure Piece where
  kind : TokenKind
  lexeme : List Char
  gap : Gap
  nonempty : lexeme ≠ []
  first : ∀ c ∈ lexeme.head?, isBlank c = false
  last : ∀ c ∈ lexeme.getLast?, isBlank c = false

/-- All characters of the piece. -/
def Piece.chars (p : Piece) : List Char := p.lexeme ++ p.gap.chars

/-- Pieces one after another, behind the blanks that the text starts with. -/
def laid (lead : Gap) (pieces : List Piece) : List Char := lead.chars ++ pieces.flatMap Piece.chars

/-- The same lexeme with other blanks behind it. If there were some there still are, as after adding
more of them at any place among them. -/
structure Piece.Respaced (p p' : Piece) : Prop where
  kind : p'.kind = p.kind
  lexeme : p'.lexeme = p.lexeme
  apart : p.gap.chars ≠ [] → p'.gap.chars ≠ []

/-- The tokens of the pieces and the end behind them, with this many characters before them. -/
def located (offset : Nat) : List Piece → List Token
  | [] => [⟨.stop, offset⟩]
  | p :: later => ⟨p.kind, offset⟩ :: located (offset + p.chars.length) later

section

variable {lead : Gap} {p : Piece} {pieces later : List Piece}

theorem laid_nil : laid lead [] = lead.chars := List.append_nil _

theorem laid_cons : laid lead (p :: later) = lead.chars ++ (p.lexeme ++ laid p.gap later) := by
  rw [laid, List.flatMap_cons, Piece.chars, List.append_assoc, laid]

theorem kinds_located (offset : Nat) :
    (located offset pieces).map Token.kind = pieces.map Piece.kind ++ [.stop] := by
  induction pieces generalizing offset with
  | nil => rfl
  | cons p later ih => rw [located, List.map_cons, ih, List.map_cons, List.cons_append]

/-- A token is located behind the pieces before it, and the end behind all of them. -/
theorem offsets_located (offset : Nat) :
    (located offset pieces).map Token.offset =
      pieces.inits.map fun before => offset + (before.flatMap Piece.chars).length := by
  induction pieces generalizing offset with
  | nil => rfl
  | cons p later ih =>
    rw [located, List.map_cons, ih, List.inits_cons, List.map_cons, List.map_map]
    congr 1
    apply List.map_congr_left
    intro before _
    simp [Nat.add_assoc]

end

/-! ## The lexer at a piece -/

namespace Lexer

variable {l l' : Lexer} {lead : Gap} {lexeme tail : List Char} {kind : TokenKind}
  {stops : Char → Bool} {token : Token}

theorem skipBlanks_of_rest (hrest : l.rest = lead.chars ++ tail)
    (htail : ∀ c ∈ tail.head?, isBlank c = false) :
    l.skipBlanks = ⟨tail, l.offset + lead.chars.length, l.afterOperand, l.stepDue⟩ := by
  rw [skipBlanks, hrest, takeWhile_append_stop lead.blank htail,
    dropWhile_append_stop lead.blank htail]

/-- A lexeme behind blanks is read as its token, at the offset behind the blanks, and the lexer
stands behind it. -/
theorem next_of_reading (hrest : l.rest = lead.chars ++ (lexeme ++ tail))
    (h : Reading l.afterOperand l.stepDue lexeme kind stops)
    (htail : ∀ c ∈ tail.head?, stops c = true) :
    l.next = (.ok ⟨kind, l.offset + lead.chars.length⟩,
      ⟨tail, l.offset + lead.chars.length + lexeme.length, endsOperand l.afterOperand kind,
        announcesStep kind⟩) := by
  have hfirst : ∀ c ∈ (lexeme ++ tail).head?, isBlank c = false := by
    obtain ⟨c, cs, rfl, hc⟩ := h.exists_eq_cons
    simpa using hc
  have hhere := skipBlanks_of_rest hrest hfirst
  have hscan : l.skipBlanks.scan l.skipBlanks.rest = (.ok kind, lexeme.length) := by
    rw [hhere]
    exact h.scan htail
  have hkind := h.isStop_eq_false
  rw [next]
  dsimp only
  rw [hscan]
  cases kind with
  | stop => cases hkind
  | _ => simp only [hhere, pass, List.drop_left]

theorem next_of_blank (hrest : l.rest = lead.chars) :
    l.next = (.ok ⟨.stop, l.offset + lead.chars.length⟩, l.skipBlanks) := by
  have hhere : l.skipBlanks = ⟨[], l.offset + lead.chars.length, l.afterOperand, l.stepDue⟩ :=
    skipBlanks_of_rest (by rw [hrest, List.append_nil]) nofun
  rw [next, hhere]
  rfl

/-- The blanks that the lexer stands at. -/
def gap (l : Lexer) : Gap := ⟨l.rest.takeWhile isBlank, List.all_eq_true.1 List.all_takeWhile⟩

theorem rest_eq (l : Lexer) : l.rest = l.gap.chars ++ l.skipBlanks.rest :=
  List.takeWhile_append_dropWhile.symm

/-- Conversely, a token that was read has a lexeme that stands behind the blanks and in front of
what is left. -/
theorem exists_reading_of_next (h : l.next = (.ok token, l')) (hk : token.kind.isStop = false) :
    ∃ lexeme tail stops, l.rest = l.gap.chars ++ (lexeme ++ tail) ∧
      Reading l.afterOperand l.stepDue lexeme token.kind stops ∧
        ∀ c ∈ tail.head?, stops c = true := by
  unfold next at h
  dsimp only at h
  split at h
  · cases h
    cases hk
  · next hscan =>
    cases h
    obtain ⟨lexeme, tail, stops, htext, -, hreading, hstops⟩ := exists_reading_of_scan hscan hk
    exact ⟨lexeme, tail, stops, by rw [← htext, ← rest_eq], hreading, hstops⟩
  · cases h

/-- Where the end is read there are only blanks. -/
theorem rest_of_next_stop (h : l.next = (.ok token, l')) (hk : token.kind.isStop = true) :
    l.rest = l.gap.chars := by
  unfold next at h
  dsimp only at h
  have hnil : l.skipBlanks.rest = [] := by
    split at h
    · next hscan => exact eq_nil_of_scan hscan rfl
    · next hscan =>
      cases h
      exact eq_nil_of_scan hscan hk
    · cases h
  rw [rest_eq l, hnil, List.append_nil]

end Lexer

/-! ## The lexer at a list of pieces -/

/-- The pieces are read one after another behind a token with these two facts. -/
inductive PiecesRead : Bool → Bool → List Piece → Prop where
  | nil {afterOperand stepDue : Bool} : PiecesRead afterOperand stepDue []
  | cons {afterOperand stepDue : Bool} {p : Piece} {later : List Piece} {stops : Char → Bool}
      (h : Reading afterOperand stepDue p.lexeme p.kind stops)
      (hnext : ∀ c ∈ (laid p.gap later).head?, stops c = true)
      (hlater : PiecesRead (Lexer.endsOperand afterOperand p.kind) (Lexer.announcesStep p.kind)
        later) :
      PiecesRead afterOperand stepDue (p :: later)

/-- Lexemes that fit one behind the other are read as their tokens, each at its own offset. -/
theorem PiecesRead.tokensFrom_eq {l : Lexer} {lead : Gap} {pieces : List Piece}
    (h : PiecesRead l.afterOperand l.stepDue pieces) (hrest : l.rest = laid lead pieces) :
    tokensFrom l = .ok (located (l.offset + lead.chars.length) pieces) := by
  induction pieces generalizing l lead with
  | nil =>
    rw [laid_nil] at hrest
    exact tokensFrom_of_stop (Lexer.next_of_blank hrest) rfl
  | cons p later ih =>
    obtain _ | ⟨hreading, hnext, hlater⟩ := h
    rw [laid_cons] at hrest
    have hhere := Lexer.next_of_reading hrest hreading hnext
    rw [tokensFrom_of_next hhere hreading.isStop_eq_false (ih hlater rfl), located, Piece.chars,
      List.length_append, Nat.add_assoc, Nat.add_assoc]

/-- A lexeme that is read, with blanks behind it. -/
def Reading.piece {a d : Bool} {lexeme : List Char} {kind : TokenKind} {stops : Char → Bool}
    (h : Reading a d lexeme kind stops) (gap : Gap) : Piece where
  kind := kind
  lexeme := lexeme
  gap := gap
  nonempty := by
    obtain ⟨c, cs, rfl, -⟩ := h.exists_eq_cons
    exact List.cons_ne_nil c cs
  first := by
    obtain ⟨c, cs, rfl, hc⟩ := h.exists_eq_cons
    simpa using hc
  last _ hc := h.isBlank_of_getLast? hc

/-- The text that the lexer has before it is one of pieces. -/
theorem exists_pieces_of_tokensFrom {l : Lexer} {ts : List Token} (h : tokensFrom l = .ok ts) :
    ∃ lead pieces, l.rest = laid lead pieces ∧ PiecesRead l.afterOperand l.stepDue pieces := by
  fun_induction tokensFrom l generalizing ts with
  | case1 => cases h
  | case2 l t l' hnext hstop =>
    exact ⟨l.gap, [], (Lexer.rest_of_next_stop hnext hstop).trans laid_nil.symm, .nil⟩
  | case3 => cases h
  | case4 l t l' hnext hstop later hlater ih =>
    cases h
    obtain ⟨lexeme, tail, stops, hrest, hreading, hstops⟩ :=
      Lexer.exists_reading_of_next hnext (Bool.eq_false_iff.2 hstop)
    -- the lexer behind this token stands at the gap of the piece
    obtain ⟨-, rfl⟩ := Prod.mk.inj ((Lexer.next_of_reading hrest hreading hstops).symm.trans hnext)
    obtain ⟨gap, pieces, htail, hreads⟩ := ih hlater
    obtain rfl : tail = laid gap pieces := htail
    refine ⟨l.gap, hreading.piece gap :: pieces, ?_, .cons hreading hstops hreads⟩
    rw [laid_cons]
    exact hrest

/-! ## Other blanks -/

/-- Behind a piece with other blanks stands a blank, or what stood there before. -/
theorem Piece.Respaced.head_laid {p p' : Piece} {later later' : List Piece} (h : p.Respaced p')
    (hlater : List.Forall₂ Piece.Respaced later later') {c : Char}
    (hc : c ∈ (laid p'.gap later').head?) :
    isBlank c = true ∨ c ∈ (laid p.gap later).head? := by
  rw [laid] at hc
  cases hgap : p'.gap.chars with
  | cons b rest =>
    rw [hgap] at hc
    cases hc
    exact .inl (p'.gap.blank c (hgap ▸ List.mem_cons_self))
  | nil =>
    -- a gap without blanks had none before
    have hnone : p.gap.chars = [] := by
      by_contra hopen
      exact h.apart hopen hgap
    rw [hgap, List.nil_append] at hc
    rw [laid, hnone, List.nil_append]
    right
    cases hlater with
    | nil => exact hc
    | @cons q q' _ _ hq _ =>
      -- the next lexeme is the same
      obtain ⟨x, xs, hx⟩ := List.exists_cons_of_ne_nil q.nonempty
      rw [List.flatMap_cons, Piece.chars, hq.lexeme, hx] at hc
      rw [List.flatMap_cons, Piece.chars, hx]
      exact hc

/-- More blanks between lexemes change no token: a lexeme that ends in front of the next one ends in
front of a blank, too. -/
theorem PiecesRead.respaced {a d : Bool} {pieces pieces' : List Piece} (h : PiecesRead a d pieces)
    (hpieces : List.Forall₂ Piece.Respaced pieces pieces') : PiecesRead a d pieces' := by
  induction hpieces generalizing a d with
  | nil => exact .nil
  | @cons p p' later later' hp hlater ih =>
    cases h with
    | @cons _ _ _ _ stops hreading hnext hreads =>
      have hreading' : Reading a d p'.lexeme p'.kind stops := by
        rw [hp.lexeme, hp.kind]
        exact hreading
      refine .cons hreading' ?_ ?_
      · -- a blank ends every lexeme, and before another character it ended already
        intro c hc
        rcases hp.head_laid hlater hc with hblank | hbefore
        · exact hreading.stops_of_isBlank hblank
        · exact hnext c hbefore
      · rw [hp.kind]
        exact ih hreads

theorem Piece.Respaced.map_kind {pieces pieces' : List Piece}
    (h : List.Forall₂ Piece.Respaced pieces pieces') :
    pieces'.map Piece.kind = pieces.map Piece.kind := by
  induction h with
  | nil => rfl
  | cons hp _ ih => rw [List.map_cons, List.map_cons, hp.kind, ih]

/-! ## Whole texts -/

/-- A text that is read is laid out from one piece for each token but the end. Each token stands at
its piece, the end behind all characters; and with other blanks, as long as no gap is closed, the
same tokens are read. -/
theorem spacing_of_tokens {text : List Char} {ts : List Token} (h : tokens text = .ok ts) :
    ∃ (lead : Gap) (pieces : List Piece), text = laid lead pieces ∧
      ts.map Token.kind = pieces.map Piece.kind ++ [.stop] ∧
      ts.map Token.offset = (pieces.inits.map fun before => (laid lead before).length) ∧
      ∀ (lead' : Gap) (pieces' : List Piece), List.Forall₂ Piece.Respaced pieces pieces' →
        ∃ ts', tokens (laid lead' pieces') = .ok ts' ∧
          ts'.map Token.kind = ts.map Token.kind := by
  obtain ⟨lead, pieces, htext, hreads⟩ := exists_pieces_of_tokensFrom h
  have hts := hreads.tokensFrom_eq htext
  rw [show tokensFrom (Lexer.start text) = .ok ts from h] at hts
  cases hts
  refine ⟨lead, pieces, htext, kinds_located _, ?_, ?_⟩
  · rw [offsets_located]
    apply List.map_congr_left
    intro before _
    rw [laid, List.length_append, show (Lexer.start text).offset = 0 from rfl, Nat.zero_add]
  · intro lead' pieces' hpieces
    have hreads' : PiecesRead (Lexer.start (laid lead' pieces')).afterOperand
        (Lexer.start (laid lead' pieces')).stepDue pieces' := hreads.respaced hpieces
    refine ⟨_, hreads'.tokensFrom_eq rfl, ?_⟩
    rw [kinds_located, kinds_located, Piece.Respaced.map_kind hpieces]

/-- A numeral that ends with its point, and a word that only the blank behind it keeps apart from
the next numeral. -/
theorem spacing_behindWord :
    let text := "a[1.]and .5".toList
    ∃ ts, tokens text = .ok ts ∧ ts.map Token.offset = [0, 1, 2, 4, 5, 9, 11] ∧
      ∃ (lead : Gap) (pieces : List Piece), text = laid lead pieces ∧
        ts.map Token.kind = pieces.map Piece.kind ++ [.stop] ∧
        ts.map Token.offset = (pieces.inits.map fun before => (laid lead before).length) ∧
        ∀ (lead' : Gap) (pieces' : List Piece), List.Forall₂ Piece.Respaced pieces pieces' →
          ∃ ts', tokens (laid lead' pieces') = .ok ts' ∧
            ts'.map Token.kind = ts.map Token.kind := by
  intro text
  have hoffsets : (tokens text).toOption.map (fun ts => ts.map Token.offset) =
      some [0, 1, 2, 4, 5, 9, 11] := by decide +kernel
  cases htokens : tokens text with
  | error fault =>
    rw [htokens] at hoffsets
    cases hoffsets
  | ok ts =>
    rw [htokens] at hoffsets
    exact ⟨ts, rfl, Option.some.inj hoffsets, spacing_of_tokens htokens⟩

end MarkupPath.Query
