import MarkupPath.Markup.Reader
import MarkupPath.Proofs.Text.Bytes

/-!
# Scanning from a place

A cursor that stands at a place of a text does among the bytes what is done at that place among the
characters: it skips blanks, reads a name, and finds a mark, the end of a tag or of a document type
declaration where they are. On the way it holds boundaries only and asks only for slices that there
are: `Run.Ends` says both of a program, and `Run.Ends.bind` puts two programs together.
-/

set_option autoImplicit false

namespace MarkupPath.Text.Place

variable {text taken : List Char} {p q : Place}

/-- The place stands in a text: behind a beginning of it, before the rest. -/
def In (p : Place) (text : List Char) : Prop := ∃ taken, (start text).Before taken p

theorem in_start (text : List Char) : (start text).In text := ⟨[], before_refl _⟩

theorem In.of_before (h : p.In text) (hpq : p.Before taken q) : q.In text := by
  obtain ⟨before, hbefore⟩ := h
  exact ⟨_, hbefore.trans hpq⟩

theorem In.eq_append (h : p.In text) :
    ∃ before, text = before ++ p.rest ∧ p.offset = byteLength before := by
  obtain ⟨before, htext, hoffset⟩ := h
  exact ⟨before, htext, hoffset.trans (Nat.zero_add _)⟩

theorem In.offset_add (h : p.In text) : p.offset + byteLength p.rest = byteLength text := by
  obtain ⟨before, htext, hoffset⟩ := h.eq_append
  rw [htext, hoffset, byteLength_append]

theorem In.offset_le (h : p.In text) : p.offset ≤ byteLength text :=
  h.offset_add ▸ Nat.le_add_right _ _

theorem In.offset_eq_of_end (h : p.In text) (hend : p.rest = []) : p.offset = byteLength text := by
  rw [← h.offset_add, hend]
  rfl

theorem In.offset_lt (h : p.In text) (hrest : p.rest ≠ []) : p.offset < byteLength text := by
  obtain ⟨c, rest, hcons⟩ := List.exists_cons_of_ne_nil hrest
  rw [← h.offset_add, hcons]
  exact Nat.lt_add_of_pos_right (Nat.add_pos_left c.utf8Size_pos _)

theorem In.isBoundary (h : p.In text) : IsBoundary text p.offset := by
  obtain ⟨before, htext, hoffset⟩ := h.eq_append
  exact ⟨before, p.rest, htext, hoffset.symm⟩

theorem In.slice?_eq (h : p.In text) (hpq : p.Before taken q) :
    slice? text p.offset q.offset = some taken := by
  obtain ⟨before, htext, hoffset⟩ := h.eq_append
  rw [hpq.2, hoffset, htext, hpq.1]
  exact slice?_byteLength before taken q.rest

theorem In.drop_utf8 (h : p.In text) : (utf8 text).drop p.offset = utf8 p.rest := by
  obtain ⟨before, htext, hoffset⟩ := h.eq_append
  rw [hoffset, htext]
  exact drop_utf8_append before p.rest

/-- A text is read in two parts. -/
theorem before_past_append (p : Place) (first second rest : List Char) :
    (p.past first (second ++ rest)).Before second (p.past (first ++ second) rest) :=
  ⟨rfl, by rw [past, past, byteLength_append, Nat.add_assoc]⟩

/-- The place at the end of the text. -/
theorem before_end (p : Place) : p.Before p.rest (p.past p.rest []) :=
  before_past (List.append_nil _).symm

theorem In.offset_end (h : p.In text) : (p.past p.rest []).offset = byteLength text :=
  h.offset_add

end MarkupPath.Text.Place

namespace MarkupPath.Markup

open MarkupPath.Text

/-- The position is in the text and on a boundary; the slice is one, between boundaries. -/
def Access.Fine : Access → Prop
  | .position text offset => offset ≤ byteLength text ∧ IsBoundary text offset
  | .slice text start stop =>
      start ≤ stop ∧ stop ≤ byteLength text ∧ IsBoundary text start ∧ IsBoundary text stop

/-- The program takes a slice without a panic if and only if the slice is fine. -/
theorem Access.fine_slice_iff {text : List Char} {start stop : Nat} :
    (Access.slice text start stop).Fine ↔ (slice? text start stop).isSome := by
  rw [isSome_slice?_iff]
  exact ⟨fun ⟨hle, _, hstart, hstop⟩ => ⟨hle, hstart, hstop⟩,
    fun ⟨hle, hstart, hstop⟩ => ⟨hle, hstop.le, hstart, hstop⟩⟩

/-! ## Programs that end -/

section

variable {ε ε' α β : Type}

/-- The program makes fine accesses only, and ends with a result or a fault as given. -/
structure Run.Ends (m : Run ε α) (outcome : Except ε α) : Prop where
  fine : ∀ access ∈ m.accesses, access.Fine
  result_eq : m.result = outcome.mapError .fault

namespace Run.Ends

theorem pure (a : α) : Ends (Pure.pure a : Run ε α) (.ok a) := ⟨List.forall_mem_nil _, rfl⟩

theorem fail (e : ε) : Ends (Run.fail e : Run ε α) (.error e) := ⟨List.forall_mem_nil _, rfl⟩

theorem unwrap (a : α) : Ends (Run.unwrap (some a) : Run ε α) (.ok a) :=
  ⟨List.forall_mem_nil _, rfl⟩

theorem bind {m : Run ε α} {f : α → Run ε β} {a : α} {outcome : Except ε β} (hm : m.Ends (.ok a))
    (hf : (f a).Ends outcome) : (m >>= f).Ends outcome := by
  obtain ⟨accesses, result⟩ := m
  obtain ⟨hfine, rfl⟩ := hm
  exact ⟨List.forall_mem_append.2 ⟨hfine, hf.fine⟩, hf.result_eq⟩

theorem bind_error {m : Run ε α} {f : α → Run ε β} {e : ε} (hm : m.Ends (.error e)) :
    (m >>= f).Ends (.error e) := by
  obtain ⟨accesses, result⟩ := m
  obtain ⟨hfine, rfl⟩ := hm
  exact ⟨hfine, rfl⟩

theorem map {m : Run ε α} {outcome : Except ε α} (f : α → β) (hm : m.Ends outcome) :
    (f <$> m).Ends (outcome.map f) := by
  cases outcome with
  | error e => exact hm.bind_error
  | ok a => exact hm.bind (.pure (f a))

theorem mapFault {m : Run ε α} {outcome : Except ε α} (f : ε → ε') (hm : m.Ends outcome) :
    (m.mapFault f).Ends (outcome.mapError f) := by
  obtain ⟨accesses, result⟩ := m
  obtain ⟨hfine, rfl⟩ := hm
  exact ⟨hfine, by cases outcome <;> rfl⟩

end Run.Ends

end

/-! ## Cursors at places -/

namespace Cursor

variable {text taken : List Char} {p q : Place}

theorem seek_of_in (hq : q.In text) (offset : Nat) :
    (Cursor.mk text offset).seek q.offset = ⟨text, q.offset⟩ := by
  rw [seek, Nat.min_eq_left hq.offset_le]

theorem advance_of_before (hp : p.In text) (hpq : p.Before taken q) :
    (Cursor.mk text p.offset).advance (byteLength taken) = ⟨text, q.offset⟩ := by
  rw [advance, ← hpq.2, seek_of_in (hp.of_before hpq)]

theorem isAtEnd_of_in (hp : p.In text) : (Cursor.mk text p.offset).isAtEnd = p.rest.isEmpty := by
  by_cases hrest : p.rest = []
  · rw [isAtEnd, hrest]
    exact decide_eq_true (Nat.le_of_eq (hp.offset_eq_of_end hrest).symm)
  · rw [isAtEnd, List.isEmpty_eq_false_iff.2 hrest]
    exact decide_eq_false (Nat.not_le.2 (hp.offset_lt hrest))

theorem peek_of_in (hp : p.In text) : (Cursor.mk text p.offset).peek = (utf8 p.rest).head? := by
  rw [← hp.drop_utf8, List.head?_drop]
  rfl

/-- At a cursor stands nothing, or the first byte of a character. -/
theorem peek_cases (hp : p.In text) :
    (p.rest = [] ∧ (Cursor.mk text p.offset).peek = none) ∨
    ∃ c rest b, p.rest = c :: rest ∧ b ∈ String.utf8EncodeChar c ∧
      (Cursor.mk text p.offset).peek = some b := by
  rw [peek_of_in hp]
  cases p.rest with
  | nil => exact .inl ⟨rfl, rfl⟩
  | cons c rest =>
      obtain ⟨b, bytes, hbytes⟩ := exists_utf8EncodeChar_eq_cons c
      refine .inr ⟨c, rest, b, rfl, hbytes ▸ List.mem_cons_self, ?_⟩
      rw [utf8_cons, hbytes, List.cons_append, List.head?_cons]

/-- A character of ASCII stands at a cursor if its byte does. -/
theorem peek_bne (hp : p.In text) {d : Char} (hd : d.toNat < 128) :
    ((Cursor.mk text p.offset).peek != some d.toUInt8) = (p.after? [d]).isNone := by
  obtain ⟨hrest, hpeek⟩ | ⟨c, rest, b, hrest, hb, hpeek⟩ := peek_cases hp
  · rw [hpeek, Place.after?, hrest]
    rfl
  · rw [hpeek, Place.after?, hrest, bne, Option.some_beq_some, beq_of_mem_utf8EncodeChar hb hd,
      Text.after?, Bool.beq_comm]
    cases d == c <;> rfl

end Cursor

namespace Reader

open Run

variable {ε : Type} {text taken : List Char} {p q : Place}

/-! ## Positions and slices -/

theorem ends_hold (hp : p.In text) :
    Ends (ε := ε) (hold ⟨text, p.offset⟩) (.ok ⟨text, p.offset⟩) :=
  ⟨List.forall_mem_singleton.2 ⟨hp.offset_le, hp.isBoundary⟩, rfl⟩

theorem ends_hold_seek (hq : q.In text) (offset : Nat) :
    Ends (ε := ε) (hold ((Cursor.mk text offset).seek q.offset)) (.ok ⟨text, q.offset⟩) :=
  Cursor.seek_of_in hq offset ▸ ends_hold hq

/-- The end of the text does not clamp a jump over a text that is there. -/
theorem ends_hold_seek_add (hp : p.In text) (hpq : p.Before taken q) (offset : Nat) :
    Ends (ε := ε) (hold ((Cursor.mk text offset).seek (p.offset + byteLength taken)))
      (.ok ⟨text, q.offset⟩) :=
  hpq.2 ▸ ends_hold_seek (hp.of_before hpq) offset

theorem ends_hold_advance (hp : p.In text) (hpq : p.Before taken q) :
    Ends (ε := ε) (hold ((Cursor.mk text p.offset).advance (byteLength taken)))
      (.ok ⟨text, q.offset⟩) :=
  Cursor.advance_of_before hp hpq ▸ ends_hold (hp.of_before hpq)

theorem fine_slice (hp : p.In text) (hpq : p.Before taken q) :
    (Access.slice text p.offset q.offset).Fine := by
  rw [Access.fine_slice_iff, hp.slice?_eq hpq]
  rfl

/-- Between two places stands the text that is read on the way. -/
theorem ends_slice (hp : p.In text) (hpq : p.Before taken q) :
    Ends (ε := ε) (slice text p.offset q.offset) (.ok taken) := by
  rw [slice, hp.slice?_eq hpq]
  exact Ends.bind ⟨List.forall_mem_singleton.2 (fine_slice hp hpq), rfl⟩ (.unwrap taken)

theorem ends_slice_rest (hp : p.In text) :
    Ends (ε := ε) (slice text p.offset (byteLength text)) (.ok p.rest) :=
  hp.offset_end ▸ ends_slice hp p.before_end

theorem ends_bytesFrom (hp : p.In text) :
    Ends (ε := ε) (bytesFrom text p.offset) (.ok (utf8 p.rest)) := by
  have hfine := fine_slice hp p.before_end
  rw [hp.offset_end] at hfine
  rw [bytesFrom, if_pos hp.offset_le, hp.drop_utf8]
  exact Ends.bind ⟨List.forall_mem_singleton.2 hfine, rfl⟩ (.pure _)

/-! ## Classes -/

/-- It suffices to compare the classes on ASCII if all else belongs to both. -/
theorem tells_of_ascii {byte? : UInt8 → Bool} {class? : Char → Bool}
    (hascii : ∀ n < 128, byte? (Char.ofNat n).toUInt8 = class? (Char.ofNat n))
    (hbyte : ∀ b : UInt8, 128 ≤ b.toNat → byte? b = true)
    (hchar : ∀ c : Char, 128 ≤ c.toNat → class? c = true) : Tells byte? class? := by
  intro c b hb
  rcases Nat.lt_or_ge c.toNat 128 with hc | hc
  · have h := hascii c.toNat hc
    rw [Char.ofNat_toNat] at h
    rw [utf8EncodeChar_of_lt hc, List.mem_singleton] at hb
    rw [hb, h]
  · rw [hbyte b (le_of_mem_utf8EncodeChar hc hb), hchar c hc]

theorem isStartByte_of_le {b : UInt8} (hb : 128 ≤ b.toNat) : isStartByte b = true := by
  have hwide : 0x80 ≤ b := UInt8.le_iff_toNat_le.2 hb
  rw [isStartByte, decide_eq_true hwide, Bool.or_true]

theorem isStart_of_le {c : Char} (hc : 128 ≤ c.toNat) : Name.isStart c = true := by
  rw [Name.isStart, decide_eq_true hc, Bool.or_true]

theorem tells_isStart : Tells isStartByte Name.isStart :=
  tells_of_ascii (by decide) (fun _ => isStartByte_of_le) (fun _ => isStart_of_le)

theorem tells_isPart : Tells isPartByte Name.isPart := by
  refine tells_of_ascii (by decide) (fun b hb => ?_) fun c hc => ?_
  · rw [isPartByte, isStartByte_of_le hb, Bool.true_or, Bool.true_or, Bool.true_or]
  · exact Name.isPart_of_isStart (isStart_of_le hc)

theorem tells_isMarkupBlank : Tells isBlankByte isMarkupBlank :=
  (((tells_beq (by decide)).or (tells_beq (by decide))).or (tells_beq (by decide))).or
    (tells_beq (by decide))

theorem isMarkupBlank_lt {c : Char} (h : isMarkupBlank c = true) : c.toNat < 128 := by
  simp only [isMarkupBlank, Bool.or_eq_true, beq_iff_eq] at h
  obtain ((rfl | rfl) | rfl) | rfl := h <;> decide

/-! ## Scans -/

theorem ends_startsWith (hp : p.In text) (mark : String) :
    Ends (ε := ε) (startsWith ⟨text, p.offset⟩ mark) (.ok (p.after? mark.toList).isSome) := by
  rw [Place.after?, Option.isSome_map]
  exact (ends_slice_rest hp).bind (.pure _)

/-- Blanks are single bytes, so skipping them by bytes or by characters is the same. -/
theorem ends_skipBlanksOf (hp : p.In text) :
    Ends (ε := ε) (skipBlanksOf (utf8 p.rest) ⟨text, p.offset⟩)
      (.ok ⟨text, (p.skipWhile isMarkupBlank).offset⟩) := by
  obtain ⟨offset, rest⟩ := p
  induction rest generalizing offset with
  | nil => exact .pure _
  | cons c rest ih =>
      rw [Place.skipWhile]
      cases hblank : isMarkupBlank c with
      | false =>
          obtain ⟨b, bytes, hbytes⟩ := exists_utf8EncodeChar_eq_cons c
          have hb := tells_isMarkupBlank c b (hbytes ▸ List.mem_cons_self)
          rw [utf8_cons, hbytes, List.cons_append, skipBlanksOf, hb, hblank,
            List.takeWhile_cons_of_neg (by simp [hblank])]
          exact .pure _
      | true =>
          -- the blank is one byte, so the next position is the place behind it
          have hc := isMarkupBlank_lt hblank
          have hbefore : Place.Before ⟨offset, c :: rest⟩ [c] ⟨offset + 1, rest⟩ :=
            ⟨rfl, by rw [byteLength_cons, byteLength_nil, utf8Size_of_lt hc]⟩
          have hq := hp.of_before hbefore
          have hb := tells_isMarkupBlank c c.toUInt8 (toUInt8_mem_of_lt hc)
          have hlater := ih (offset + 1) hq
          rw [utf8_cons_of_lt hc, skipBlanksOf, hb, hblank, List.takeWhile_cons_of_pos hblank]
          refine (ends_hold hq).bind ?_
          simp only [Place.skipWhile, Place.past] at hlater ⊢
          rwa [byteLength_cons, utf8Size_of_lt hc, ← Nat.add_assoc]

theorem ends_skipBlanks (hp : p.In text) :
    Ends (ε := ε) (skipBlanks ⟨text, p.offset⟩)
      (.ok ⟨text, (p.skipWhile isMarkupBlank).offset⟩) := by
  rw [skipBlanks, hp.drop_utf8]
  exact ends_skipBlanksOf hp

theorem takeWhile_eq_self {class? : Char → Bool} {cs : List Char}
    (h : cs.dropWhile class? = []) : cs.takeWhile class? = cs := by
  have happend := List.takeWhile_append_dropWhile (p := class?) (l := cs)
  rwa [h, List.append_nil] at happend

/-- The byte of `<` is in no other character, so the search for it ends at the character. -/
theorem ends_nextMarkup (hp : p.In text) :
    Ends (ε := ε) (nextMarkup ⟨text, p.offset⟩) (.ok (p.skipWhile (· != '<')).offset) := by
  have hfind : (utf8 p.rest).findIdx? (· == '<'.toUInt8) =
      (p.rest.dropWhile (· != '<')).head?.map fun _ =>
        byteLength (p.rest.takeWhile (· != '<')) :=
    findIdx?_utf8 (tells_beq (by decide)) p.rest
  refine (ends_bytesFrom hp).bind ?_
  rw [hfind, Place.skipWhile, Place.past]
  cases hdrop : p.rest.dropWhile (· != '<') with
  | nil =>
      rw [takeWhile_eq_self hdrop, hp.offset_add]
      exact .pure _
  | cons c rest => exact .pure _

theorem ends_find (hp : p.In text) {mark : String} (hne : mark.toList ≠ [])
    (hmark : IsAscii mark.toList) : Ends (ε := ε) (find ⟨text, p.offset⟩ mark)
      (.ok ((cut? mark.toList p.rest).map fun halves => p.offset + byteLength halves.1)) := by
  obtain ⟨m, ms, hms⟩ := List.exists_cons_of_ne_nil hne
  rw [hms] at hmark ⊢
  refine (ends_bytesFrom hp).bind ?_
  rw [hms, indexOf?_utf8 hmark, Option.map_map]
  exact .pure _

/-- The bytes of a name are those up to the first one that is none of a name, or all. -/
theorem getD_findIdx?_isPartByte (cs : List Char) :
    ((utf8 cs).findIdx? fun b => !isPartByte b).getD (utf8 cs).length =
      byteLength (cs.takeWhile Name.isPart) := by
  have hnot : Tells (fun b => !isPartByte b) (fun c => !Name.isPart c) :=
    fun c b hb => congrArg (!·) (tells_isPart c b hb)
  rw [findIdx?_utf8 hnot]
  simp only [Bool.not_not]
  cases hdrop : cs.dropWhile Name.isPart with
  | nil =>
      rw [takeWhile_eq_self hdrop, ← length_utf8]
      rfl
  | cons c rest => rfl

/-- A name ends at the same place if its characters are looked at one by one. -/
theorem ends_readName (hp : p.In text) : Ends (ε := ε) (readName ⟨text, p.offset⟩)
    (.ok ((Name.read? p).map fun found => (found.1, ⟨text, found.2.offset⟩))) := by
  rw [readName]
  obtain ⟨hrest, hpeek⟩ | ⟨c, rest, b, hrest, hb, hpeek⟩ := Cursor.peek_cases hp
  · rw [hpeek, Name.read?, hrest]
    exact .pure _
  · have hname : Name.read? p = if Name.isStart c then
        some (p.rest.takeWhile Name.isPart, p.skipWhile Name.isPart) else none := by
      rw [Name.read?, hrest]
    have hbefore := Place.before_skipWhile Name.isPart p
    rw [hpeek, hname]
    dsimp only
    rw [tells_isStart c b hb]
    cases Name.isStart c with
    | false => exact .pure _
    | true =>
        refine (ends_bytesFrom hp).bind ?_
        rw [getD_findIdx?_isPartByte]
        refine (ends_hold (hp.of_before hbefore)).bind ?_
        exact (ends_slice hp hbefore).bind (.pure _)

/-! ## Ends of tags and of document type declarations -/

section

variable {quote : Option Char} {c : Char} {b : UInt8}

/-- Each byte of a character tells the machine for tags what the character does. -/
theorem tagStep_of_mem (hquote : ∀ q ∈ quote, q.toNat < 128)
    (hb : b ∈ String.utf8EncodeChar c) : tagStep (quote.map Char.toUInt8) b =
      if quote.isNone && c == '>' then none
      else some ((Event.openQuote quote c).map Char.toUInt8) := by
  cases quote with
  | none =>
      rw [Option.map_none, tagStep, beq_of_mem_utf8EncodeChar hb (by decide),
        beq_of_mem_utf8EncodeChar hb (by decide), beq_of_mem_utf8EncodeChar hb (by decide)]
      rw [Option.isNone_none, Bool.true_and, Event.openQuote]
      by_cases hmark : (c == '"' || c == '\'') = true
      · have hc : c = '"' ∨ c = '\'' := by simpa using hmark
        rcases hc with rfl | rfl
        · rw [utf8EncodeChar_of_lt (by decide), List.mem_singleton] at hb
          rw [hb]
          rfl
        · rw [utf8EncodeChar_of_lt (by decide), List.mem_singleton] at hb
          rw [hb]
          rfl
      · rw [if_neg hmark, if_neg hmark, Option.map_none]
  | some q =>
      rw [Option.map_some, tagStep, Bool.beq_comm, beq_of_mem_utf8EncodeChar hb (hquote q rfl),
        Option.isNone_some, Bool.false_and, if_neg Bool.false_ne_true, Event.openQuote,
        Bool.beq_comm]
      split <;> rfl

theorem openQuote_of_le (hquote : ∀ q ∈ quote, q.toNat < 128) (hc : 128 ≤ c.toNat) :
    Event.openQuote quote c = quote := by
  cases quote with
  | none =>
      rw [Event.openQuote, beq_eq_false_of_le hc (by decide), beq_eq_false_of_le hc (by decide)]
      rfl
  | some q =>
      rw [Event.openQuote, Bool.beq_comm, beq_eq_false_of_le hc (hquote q rfl)]
      rfl

/-- A quote is a character of ASCII. -/
theorem openQuote_lt (hquote : ∀ q ∈ quote, q.toNat < 128) :
    ∀ q ∈ Event.openQuote quote c, q.toNat < 128 := by
  intro q hq
  cases quote with
  | none =>
      rw [Event.openQuote] at hq
      split at hq
      · next hmark =>
        cases hq
        rw [Bool.or_eq_true, beq_iff_eq, beq_iff_eq] at hmark
        rcases hmark with rfl | rfl <;> decide
      · cases hq
  | some mark =>
      rw [Event.openQuote] at hq
      split at hq <;> cases hq
      exact hquote _ rfl

end

/-- The machine for tags stops at the end of the tag. -/
theorem stopIndex?_tagStep {quote : Option Char} (hquote : ∀ q ∈ quote, q.toNat < 128)
    (cs : List Char) : stopIndex? tagStep (quote.map Char.toUInt8) (utf8 cs) =
      (Event.splitTag? quote cs).map fun halves => byteLength halves.1 := by
  induction cs generalizing quote with
  | nil => rfl
  | cons c cs ih =>
      rw [stopIndex?_utf8_cons fun b hb => tagStep_of_mem hquote hb, Event.splitTag?]
      · split
        · rfl
        · rw [Option.elim_some, ih (openQuote_lt hquote), Option.map_map, Option.map_map]
          rfl
      · intro hc
        rw [beq_eq_false_of_le hc (by decide), Bool.and_false, if_neg Bool.false_ne_true,
          openQuote_of_le hquote hc]

theorem ends_findTagEnd (hp : p.In text) : Ends (ε := ε) (findTagEnd ⟨text, p.offset⟩)
    (.ok ((Event.splitTag? none p.rest).map fun halves => p.offset + byteLength halves.1)) := by
  have hnone : ∀ q ∈ (none : Option Char), q.toNat < 128 := by simp
  have hstop := stopIndex?_tagStep hnone p.rest
  rw [Option.map_none] at hstop
  refine (ends_bytesFrom hp).bind ?_
  rw [hstop, Option.map_map]
  exact .pure _

/-- All bytes of a character count as the character itself: brackets and `>` are single bytes, and
no other character holds one. -/
theorem doctypeStep_of_mem {c : Char} {b : UInt8} (hb : b ∈ String.utf8EncodeChar c)
    (depth : Nat) : doctypeStep depth b = if c == '>' && depth == 0 then none
      else some (if c == '[' then depth + 1 else if c == ']' then depth - 1 else depth) := by
  rw [doctypeStep, beq_of_mem_utf8EncodeChar hb (by decide),
    beq_of_mem_utf8EncodeChar hb (by decide), beq_of_mem_utf8EncodeChar hb (by decide)]
  by_cases hgt : c = '>'
  · subst hgt
    rfl
  · have hend : ¬ (c == '>' && depth == 0) = true := by simp [hgt]
    rw [if_neg hend, if_neg hend]
    split
    · rfl
    · split <;> rfl

/-- The machine for declarations stops at the last byte of the declaration. -/
theorem stopIndex?_doctypeStep (depth : Nat) (cs : List Char) :
    (stopIndex? doctypeStep depth (utf8 cs)).map (· + 1) =
      (Event.splitDoctype? depth cs).map fun halves => byteLength halves.1 := by
  induction cs generalizing depth with
  | nil => rfl
  | cons c cs ih =>
      rw [stopIndex?_utf8_cons fun b hb => doctypeStep_of_mem hb depth, Event.splitDoctype?]
      · split
        · next hend =>
          have hc : c = '>' := by simp_all
          rw [hc]
          rfl
        · have hcomm : ((· + 1) ∘ (c.utf8Size + ·) : Nat → Nat) = (c.utf8Size + ·) ∘ (· + 1) :=
            rfl
          rw [Option.elim_some, Option.map_map, hcomm, ← Option.map_map, ih, Option.map_map,
            Option.map_map]
          rfl
      · intro hc
        rw [beq_eq_false_of_le hc (by decide), beq_eq_false_of_le hc (by decide),
          beq_eq_false_of_le hc (by decide)]
        rfl

end Reader

end MarkupPath.Markup
