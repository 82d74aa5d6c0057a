import MarkupPath.Proofs.Markup.Doctype
import MarkupPath.Proofs.Text.Bytes
import MarkupPath.Proofs.Tree.Spelling

/-!
# Pieces that are read apart

What an event takes from a text it takes from every text that starts alike, except that a text event
ends only where a `<` or nothing follows (`Event.takes_of_read`). So where one event of a text
starts, the text can be cut in two: the first half is read as the events before the cut in front of
whatever starts as the second half does (`exists_readsAs_of_start`). If this event is the last one,
it takes all of the second half (`EndsAs.exists_readsAs`).
-/

set_option autoImplicit false

namespace MarkupPath.Markup

open MarkupPath.Text

/-! ## Marks and ends of tags -/

namespace Event

section SplitTag

variable {quote : Option Char} {text content rest : List Char}

/-- The end of a tag does not depend on what follows it. -/
theorem splitTag?_of_splitTag? (h : splitTag? quote text = some (content, rest))
    (rest' : List Char) : splitTag? quote (content ++ '>' :: rest') = some (content, rest') := by
  induction text generalizing quote content with
  | nil => cases h
  | cons c text ih =>
    rw [splitTag?] at h
    split at h
    · next hend =>
      cases h
      rw [List.nil_append, splitTag?, if_pos (by simpa using (Bool.and_eq_true_iff.1 hend).1)]
    · next hgoes =>
      obtain ⟨⟨content, rest⟩, hsplit, heq⟩ := Option.map_eq_some_iff.1 h
      cases heq
      rw [List.cons_append, splitTag?, if_neg hgoes, ih hsplit]
      rfl

/-- A slash is never the quote that is open. -/
theorem openQuote_ne_slash (hquote : quote ≠ some '/') (c : Char) :
    openQuote quote c ≠ some '/' := by
  intro hopen
  unfold openQuote at hopen
  split at hopen
  · split at hopen
    · next hc =>
      cases hopen
      exact absurd hc (by decide)
    · cases hopen
  · split at hopen
    · cases hopen
    · exact hquote hopen

/-- A tag ends where it does with a slash before its end, which quotes nothing. -/
theorem splitTag?_of_slash (hquote : quote ≠ some '/')
    (h : splitTag? quote (content ++ "/>".toList) = some (content ++ ['/'], []))
    (rest : List Char) : splitTag? quote (content ++ '>' :: rest) = some (content, rest) := by
  induction content generalizing quote with
  | nil =>
    cases quote with
    | none => rfl
    | some mark =>
      have hmark : (mark == '/') = false := by simpa using hquote
      simp [splitTag?, openQuote, hmark] at h
  | cons c content ih =>
    rw [List.cons_append, splitTag?] at h
    split at h
    · cases h
    · next hgoes =>
      obtain ⟨⟨content', rest'⟩, hsplit, heq⟩ := Option.map_eq_some_iff.1 h
      cases heq
      rw [List.cons_append, splitTag?, if_neg hgoes, ih (openQuote_ne_slash hquote c) hsplit]
      rfl

end SplitTag

/-! ## What an event takes -/

/-- Wherever the text stands before the rest, the reader finds the event and leaves the rest. -/
def Takes (reader : Place → Except ReadError (Event × Place)) (e : Event)
    (taken rest : List Char) : Prop :=
  ∀ p : Place, p.rest = taken ++ rest → ∃ q, reader p = .ok (e, q) ∧ q.rest = rest

/-- The reader behind the characters that open a kind of markup. -/
def readerOf : Opening → Nat → Place → Except ReadError (Event × Place)
  | .comment => fun start inside => readDelimited start inside "-->" .openComment .comment
  | .cdata => fun start inside => readDelimited start inside "]]>" .openCData .cdata
  | .doctype => readDoctype
  | .instruction => readInstruction
  | .endTag => fun _ inside => readEndTag inside
  | .startTag => readStartTag

theorem read_of_opening? {p inside : Place} {opening : Opening}
    (h : opening? p = some (opening, inside)) : read p = readerOf opening p.offset inside := by
  rw [read, h]
  cases opening <;> rfl

section Takes

variable {inside p q : Place} {start : Nat} {e : Event}

/-- What stands behind a closing mark does not matter, as the mark cannot overlap itself. -/
theorem takes_of_readDelimited {close : String} {fault : ReadFault} {event : String → Event}
    (h : readDelimited start inside close fault event = .ok (e, q))
    (hclose : Unbordered close.toList) :
    ∃ taken, inside.Before taken q ∧
      ∀ start rest, Takes (readDelimited start · close fault event) e taken rest := by
  rw [readDelimited] at h
  split at h
  · next content r hcut =>
    cases h
    obtain ⟨halves, hhalves, heq⟩ := Option.map_eq_some_iff.1 hcut
    cases heq
    have hbody := not_infix_of_cut? hclose.1 hhalves
    refine ⟨_, Place.before_of_cut? hcut, fun start rest p hp => ?_⟩
    exact Tree.readDelimited_eq hclose (by rwa [String.toList_ofList])
      (by rwa [String.toList_ofList])
  · cases h

/-- A declaration ends at the first `>` outside brackets, whatever follows. -/
theorem takes_of_readDoctype (h : readDoctype start inside = .ok (e, q)) :
    ∃ taken, inside.Before taken q ∧ ∀ start rest, Takes (readDoctype start) e taken rest := by
  rw [readDoctype] at h
  split at h
  · next taken rest hsplit =>
    cases h
    obtain ⟨content, rfl, hcloses⟩ := closes_of_splitDoctype? hsplit
    refine ⟨_, Place.before_past (append_of_splitDoctype? hsplit).symm, fun start rest p hp => ?_⟩
    cases hcloses with
    | outside henclosed =>
      rw [readDoctype, hp, List.append_assoc, List.singleton_append,
        splitDoctype?_eq_some_iff.2 henclosed]
      exact ⟨_, rfl, rfl⟩
  · cases h

/-- An instruction ends at the first `?>`, whatever follows. -/
theorem takes_of_readInstruction (h : readInstruction start inside = .ok (e, q)) :
    ∃ taken, inside.Before taken q ∧ ∀ start rest, Takes (readInstruction start) e taken rest := by
  rw [readInstruction] at h
  split at h
  · cases h
  · next target r hname =>
    split at h
    · cases h
    · next content s hcut =>
      obtain ⟨hwhole, hbefore, hstop⟩ := Name.whole_of_read? hname
      have hs := Place.before_of_cut? hcut
      obtain ⟨halves, hhalves, heq⟩ := Option.map_eq_some_iff.1 hcut
      cases heq
      have hbody := not_infix_of_cut? (by decide) hhalves
      refine ⟨target ++ (halves.1 ++ "?>".toList), ?_, fun start rest p hp => ?_⟩
      · split at h <;> (cases h; exact hbefore.trans hs)
      · rw [hs.1, List.head?_append_of_ne_nil _ (by simp)] at hstop
        rw [List.append_assoc] at hp
        rw [readInstruction, hwhole.read?_eq hp
          (by rw [List.head?_append_of_ne_nil _ (by simp)]; exact hstop)]
        simp only
        rw [Place.cut?_eq (by decide) hbody rfl]
        split at h
        · next hxml =>
          cases h
          exact ⟨_, if_pos hxml, rfl⟩
        · next hxml =>
          cases h
          exact ⟨_, if_neg hxml, rfl⟩

/-- An end tag is a whole name, blanks and a `>`. -/
theorem exists_of_readEndTag (h : readEndTag inside = .ok (e, q)) :
    ∃ name blanks, e = .endTag (String.ofList name) ∧ Name.IsWhole name ∧
      (∀ c ∈ blanks, isMarkupBlank c = true) ∧ inside.Before (name ++ (blanks ++ ['>'])) q := by
  rw [readEndTag] at h
  split at h
  · cases h
  · next name r hname =>
    simp only at h
    split at h
    · cases h
    · next s hend =>
      cases h
      obtain ⟨hwhole, hbefore, -⟩ := Name.whole_of_read? hname
      have hblanks := Place.before_skipWhile isMarkupBlank r
      exact ⟨name, _, rfl, hwhole, fun c hc => List.mem_takeWhile_imp hc,
        hbefore.trans (hblanks.trans (Place.before_of_after? hend))⟩

/-- An end tag, from its name and the blanks behind it. -/
theorem takes_readEndTag {name blanks : List Char} (hname : Name.IsWhole name)
    (hblanks : ∀ c ∈ blanks, isMarkupBlank c = true) (rest : List Char) :
    Takes readEndTag (.endTag (String.ofList name)) (name ++ (blanks ++ ['>'])) rest := by
  intro p hp
  have hstop : ∀ c ∈ (blanks ++ ['>'] ++ rest).head?, Name.isPart c = false := by
    cases blanks with
    | nil => simp; decide
    | cons blank blanks =>
      simpa using Name.not_isPart_of_isMarkupBlank (hblanks blank List.mem_cons_self)
  rw [List.append_assoc] at hp
  rw [readEndTag, hname.read?_eq hp hstop]
  simp only
  rw [Place.skipWhile_append hblanks (List.append_assoc _ _ _) (by simp; decide),
    Place.after?_eq rfl]
  exact ⟨_, rfl, rfl⟩

theorem takes_of_readEndTag (h : readEndTag inside = .ok (e, q)) :
    ∃ taken, inside.Before taken q ∧ ∀ rest, Takes readEndTag e taken rest := by
  obtain ⟨name, blanks, rfl, hname, hblanks, hbefore⟩ := exists_of_readEndTag h
  exact ⟨_, hbefore, takes_readEndTag hname hblanks⟩

/-- The event of a tag does not depend on where its content starts. -/
theorem ofTag_of_ofTag {name content : List Char} {offset : Nat}
    (h : ofTag name content offset = .ok e) (offset' : Nat) :
    ofTag name content offset' = .ok e := by
  have hfirst := ofTag_shift offset name content 0
  rw [Nat.zero_add, h] at hfirst
  cases hzero : ofTag name content 0 with
  | error fault =>
    rw [hzero] at hfirst
    cases hfirst
  | ok event =>
    rw [hzero] at hfirst
    cases hfirst
    have hlater := ofTag_shift offset' name content 0
    rwa [Nat.zero_add, hzero] at hlater

/-- A name and a content, up to the `>` behind it, are a tag that is read as the event. -/
structure IsTag (name content : List Char) (e : Event) : Prop where
  whole : Name.IsWhole name
  apart : ∀ c ∈ (content ++ ['>']).head?, Name.isPart c = false
  split : ∀ rest, splitTag? none (content ++ '>' :: rest) = some (content, rest)
  event : ∀ offset, ofTag name content offset = .ok e

/-- A start tag has a name and a content that could stand in front of any text. -/
theorem exists_of_readStartTag (h : readStartTag start inside = .ok (e, q)) :
    ∃ name content, IsTag name content e ∧ inside.Before (name ++ (content ++ ['>'])) q := by
  rw [readStartTag] at h
  split at h
  · cases h
  · next name r hname =>
    split at h
    · cases h
    · next content rest hsplit =>
      split at h
      · cases h
      · next event htag =>
        cases h
        obtain ⟨hwhole, hbefore, hstop⟩ := Name.whole_of_read? hname
        have hrest : r.rest = content ++ ['>'] ++ rest := by
          rw [List.append_assoc, List.singleton_append, append_of_splitTag? hsplit]
        rw [hrest, List.head?_append_of_ne_nil _ (by simp)] at hstop
        exact ⟨name, content, ⟨hwhole, hstop, splitTag?_of_splitTag? hsplit, ofTag_of_ofTag htag⟩,
          hbefore.trans (Place.before_past hrest)⟩

namespace IsTag

variable {name content : List Char}

/-- A tag is read as the same event in front of any text: its end is outside quotation marks. -/
theorem takes (h : IsTag name content e) (start : Nat) (rest : List Char) :
    Takes (readStartTag start) e (name ++ (content ++ ['>'])) rest := by
  intro p hp
  have hstop : ∀ c ∈ (content ++ ['>'] ++ rest).head?, Name.isPart c = false := by
    rw [List.head?_append_of_ne_nil _ (by simp)]
    exact h.apart
  rw [List.append_assoc] at hp
  rw [readStartTag, h.whole.read?_eq hp hstop]
  simp only [Place.past_rest]
  rw [List.append_assoc, List.singleton_append, h.split]
  simp only [h.event]
  exact ⟨_, rfl, rfl⟩

/-- Without its slash, a tag of an empty element opens the element. -/
theorem withoutSlash (h : IsTag name (content ++ ['/']) e)
    (hcontent : content.getLast? ≠ some '/') :
    ∃ attributes, e = .emptyTag (String.ofList name) attributes ∧
      IsTag name content (.startTag (String.ofList name) attributes) := by
  have happart : ∀ c ∈ (content ++ ['>']).head?, Name.isPart c = false := by
    cases content with
    | nil => simp; decide
    | cons c content => exact h.apart
  have hsplit : splitTag? none (content ++ "/>".toList) = some (content ++ ['/'], []) := by
    have hslash := h.split []
    rwa [List.append_assoc] at hslash
  have hevent := h.event 0
  simp only [ofTag, List.getLast?_concat, BEq.rfl, if_true, List.dropLast_concat] at hevent
  split at hevent
  · cases hevent
  · next hblank =>
    split at hevent
    · cases hevent
    · next attributes hlist =>
      cases hevent
      refine ⟨attributes, rfl, h.whole, happart, splitTag?_of_slash (by decide) hsplit,
        fun offset => ?_⟩
      simp [ofTag, hcontent, hblank, hlist]

end IsTag

theorem takes_of_readStartTag (h : readStartTag start inside = .ok (e, q)) :
    ∃ taken, inside.Before taken q ∧ (∃ c ∈ taken.head?, Name.isStart c = true) ∧
      ∀ start rest, Takes (readStartTag start) e taken rest := by
  obtain ⟨name, content, htag, hbefore⟩ := exists_of_readStartTag h
  obtain ⟨⟨c, tail, rfl, hc⟩, -⟩ := Name.isWhole_iff.1 htag.whole
  exact ⟨_, hbefore, ⟨c, rfl, hc⟩, htag.takes⟩

/-- The first characters of a start tag are those of no other kind of markup if a name follows. -/
theorem opening?_of_mem {mark : String} {opening : Opening} (hmark : (mark, opening) ∈ openings)
    {rest : List Char} (hp : p.rest = mark.toList ++ rest)
    (hname : opening = .startTag → ∃ c ∈ rest.head?, Name.isStart c = true) :
    opening? p = some (opening, p.past mark.toList rest) := by
  simp only [openings, List.mem_cons, Prod.mk.injEq, List.not_mem_nil, or_false] at hmark
  rcases hmark with ⟨rfl, rfl⟩ | ⟨rfl, rfl⟩ | ⟨rfl, rfl⟩ | ⟨rfl, rfl⟩ | ⟨rfl, rfl⟩ | ⟨rfl, rfl⟩
  case inr.inr.inr.inr.inr =>
    obtain ⟨c, hc, hstart⟩ := hname rfl
    obtain ⟨tail, rfl⟩ := List.head?_eq_some_iff.1 hc
    obtain ⟨hbang, hquestion, hslash⟩ := Name.ne_of_isStart hstart
    simp [opening?, openings, Place.after?, Text.after?, hp, Ne.symm hbang, Ne.symm hquestion,
      Ne.symm hslash]
  all_goals simp [opening?, openings, Place.after?, Text.after?, hp]

theorem opening?_eq_none (h : ∀ c ∈ p.rest.head?, c ≠ '<') : opening? p = none := by
  cases hp : p.rest with
  | nil => simp [opening?, openings, Place.after?, Text.after?, hp]
  | cons c rest =>
    have hc : '<' ≠ c := Ne.symm (h c (by rw [hp]; rfl))
    simp [opening?, openings, Place.after?, Text.after?, hp, hc]

theorem mem_openings_of_opening? {opening : Opening} (h : opening? p = some (opening, inside)) :
    ∃ mark, (mark, opening) ∈ openings ∧ p.Before mark.toList inside := by
  obtain ⟨⟨mark, kind⟩, hmem, hmark⟩ := List.exists_of_findSome?_eq_some h
  obtain ⟨r, hafter, heq⟩ := Option.map_eq_some_iff.1 hmark
  cases heq
  exact ⟨mark, hmem, Place.before_of_after? hafter⟩

/-- All kinds of markup together, by the opening that tells them apart. -/
theorem takes_of_readerOf {opening : Opening} (h : readerOf opening start inside = .ok (e, q)) :
    ∃ taken, inside.Before taken q ∧
      (opening = .startTag → ∃ c ∈ taken.head?, Name.isStart c = true) ∧
      ∀ start rest, Takes (readerOf opening start) e taken rest := by
  have hother : opening ≠ .startTag →
      (∃ taken, inside.Before taken q ∧ ∀ start rest, Takes (readerOf opening start) e taken rest) →
      ∃ taken, inside.Before taken q ∧
        (opening = .startTag → ∃ c ∈ taken.head?, Name.isStart c = true) ∧
        ∀ start rest, Takes (readerOf opening start) e taken rest :=
    fun hne ⟨taken, hbefore, htakes⟩ => ⟨taken, hbefore, fun heq => absurd heq hne, htakes⟩
  cases opening with
  | comment => exact hother nofun (takes_of_readDelimited h (by decide))
  | cdata => exact hother nofun (takes_of_readDelimited h (by decide))
  | doctype => exact hother nofun (takes_of_readDoctype h)
  | instruction => exact hother nofun (takes_of_readInstruction h)
  | endTag =>
    obtain ⟨taken, hbefore, htakes⟩ := takes_of_readEndTag h
    exact hother nofun ⟨taken, hbefore, fun _ => htakes⟩
  | startTag =>
    obtain ⟨taken, hbefore, hname, htakes⟩ := takes_of_readStartTag h
    exact ⟨taken, hbefore, fun _ => hname, htakes⟩

/-- What the reader of a kind of markup takes is read behind the characters that open this kind. -/
theorem takes_of_opened {mark : String} {opening : Opening} (hmark : (mark, opening) ∈ openings)
    {taken rest : List Char} (h : ∀ start, Takes (readerOf opening start) e taken rest)
    (hname : opening = .startTag → ∃ c ∈ taken.head?, Name.isStart c = true) :
    Takes read e (mark.toList ++ taken) rest := by
  intro p hp
  rw [List.append_assoc] at hp
  have hopen := opening?_of_mem hmark hp fun hstart => by
    obtain ⟨c, hc, hpart⟩ := hname hstart
    obtain ⟨tail, rfl⟩ := List.head?_eq_some_iff.1 hc
    exact ⟨c, rfl, hpart⟩
  rw [read_of_opening? hopen]
  exact h p.offset _ rfl

/-- What is read of a text is read of every text that starts alike; only where no markup opens, a
`<` or the end has to follow. -/
theorem takes_of_read (h : read p = .ok (e, q)) (hp : p.rest ≠ []) :
    ∃ taken, p.Before taken q ∧ taken ≠ [] ∧
      (opening? p = none → ∀ c ∈ q.rest.head?, c = '<') ∧
      ∀ rest, (opening? p = none → ∀ c ∈ rest.head?, c = '<') → Takes read e taken rest := by
  obtain ⟨piece, hpiece, hne⟩ := before_of_read h hp
  have hsame : ∀ {taken}, p.Before taken q → taken ≠ [] := fun hbefore => by
    rwa [List.append_cancel_right (hbefore.1.symm.trans hpiece.1)]
  cases hopen : opening? p with
  | none =>
    rw [read, hopen] at h
    cases h
    have hbefore := Place.before_skipWhile (· != '<') p
    have htaken : ∀ c ∈ p.rest.takeWhile (· != '<'), (c != '<') = true := fun c hc => by
      simpa using List.mem_takeWhile_imp hc
    refine ⟨_, hbefore, hsame hbefore, fun _ c hc => ?_, fun rest hrest p' hp' => ?_⟩
    · have hdrop := List.head?_dropWhile_not (· != '<') p.rest
      have hhead : (p.rest.dropWhile (· != '<')).head? = some c := hc
      rw [hhead] at hdrop
      simpa using hdrop
    · have hstop : ∀ c ∈ rest.head?, (c != '<') = false := fun c hc => by
        simpa using hrest rfl c hc
      have hopen' : opening? p' = none := by
        refine opening?_eq_none fun c hc => head_ne_of_opening?_eq_none hopen c ?_
        rw [hp', List.head?_append_of_ne_nil _ (hsame hbefore)] at hc
        rwa [hbefore.1, List.head?_append_of_ne_nil _ (hsame hbefore)]
      rw [read, hopen', Place.skipWhile_append htaken hp' hstop, hp',
        takeWhile_append_stop htaken hstop]
      exact ⟨_, rfl, rfl⟩
  | some found =>
    obtain ⟨opening, inside⟩ := found
    rw [read_of_opening? hopen] at h
    obtain ⟨mark, hmem, hmark⟩ := mem_openings_of_opening? hopen
    obtain ⟨taken, hbefore, hname, htakes⟩ := takes_of_readerOf h
    have hwhole := hmark.trans hbefore
    exact ⟨_, hwhole, hsame hwhole, fun hnone => absurd hnone (Option.some_ne_none _),
      fun rest _ => takes_of_opened hmem (htakes · rest) hname⟩

end Takes

end Event

end MarkupPath.Markup

namespace MarkupPath.Tree

open MarkupPath.Markup MarkupPath.Text

/-! ## Cutting a text in two -/

variable {p q : Place} {e : Event}

/-- What is taken from the front of a text stands for the event wherever it does. -/
theorem ReadsAs.of_takes {piece rest : List Char} (hne : piece ≠ [])
    (h : Event.Takes Event.read e piece rest) : ReadsAs piece [e] rest :=
  .single hne h

theorem exists_takes_of_read (h : Event.read p = .ok (e, q)) (hp : p.rest ≠ []) :
    ∃ taken, p.Before taken q ∧ taken ≠ [] ∧
      ∀ rest, rest.head? = q.rest.head? → Event.Takes Event.read e taken rest := by
  obtain ⟨taken, hbefore, hne, hstop, htakes⟩ := Event.takes_of_read h hp
  exact ⟨taken, hbefore, hne, fun rest hrest => htakes rest (hrest ▸ hstop)⟩

/-- No event from a place on starts before it. -/
theorem le_start_of_mem {p : Place} {e : Located} (h : e ∈ (transcriptFrom p).events) :
    p.offset ≤ e.start := by
  fun_induction transcriptFrom p with
  | case1 p hend => cases h
  | case2 p hrest e' hread => cases h
  | case3 p hrest event q hread later ih =>
    rcases List.mem_cons.1 h with rfl | hlater
    · exact Nat.le_refl _
    · obtain ⟨taken, hbefore, -⟩ := Event.before_of_read hread hrest
      exact Nat.le_trans (hbefore.2 ▸ Nat.le_add_right _ _) (ih hlater)

/-- A text without faults can be cut where one of its events starts: the first half is read as the
events before the cut in front of every text that starts as the second half does. -/
theorem exists_readsAs_of_start {front back : List Char} {e : Located}
    (hp : p.rest = front ++ back) (he : e ∈ (transcriptFrom p).events)
    (hstart : e.start = p.offset + byteLength front) :
    ∃ es q, Delivers p es q ∧ p.Before front q ∧
      ∀ rest, rest.head? = back.head? → ReadsAs front es rest := by
  induction p using transcriptFrom.induct generalizing front with
  | case1 p hend =>
    rw [transcriptFrom_of_end hend] at he
    cases he
  | case2 p hrest e' hread =>
    rw [transcriptFrom_of_error hrest hread] at he
    cases he
  | case3 p hrest event q hread ih =>
    rw [transcriptFrom_of_ok hrest hread] at he
    by_cases hfront : front = []
    · subst hfront
      exact ⟨[], p, .refl p, Place.before_refl p, fun rest _ => .nil rest⟩
    · obtain ⟨taken, hbefore, hne, htakes⟩ := exists_takes_of_read hread hrest
      have hpos := Nat.lt_of_lt_of_le (List.length_pos_iff.2 hfront) (length_le_byteLength front)
      have hlater : e ∈ (transcriptFrom q).events := by
        refine (List.mem_cons.1 he).resolve_left ?_
        rintro rfl
        exact absurd hstart (by dsimp only; omega)
      -- the cut is not inside of the first event, since a later one starts there
      have hle : byteLength taken ≤ byteLength front := by
        have hq := le_start_of_mem hlater
        rw [hbefore.2, hstart] at hq
        exact Nat.le_of_add_le_add_left hq
      obtain ⟨front', rfl, hq⟩ : ∃ front', front = taken ++ front' ∧ q.rest = front' ++ back := by
        have heq := hbefore.1.symm.trans hp
        rcases List.append_eq_append_iff.1 heq with hcut | ⟨more, hmore, hback⟩
        · exact hcut
        · rw [hmore, byteLength_append] at hle
          have hnil := length_le_byteLength more
          obtain rfl : more = [] := List.length_eq_zero_iff.1 (by omega)
          exact ⟨[], by rw [hmore, List.append_nil, List.append_nil], hback.symm⟩
      have hstart' : e.start = q.offset + byteLength front' := by
        rw [hstart, hbefore.2, byteLength_append, Nat.add_assoc]
      obtain ⟨es, r, hdelivers, hr, hfronts⟩ := ih hq hlater hstart'
      refine ⟨event :: es, r, (Delivers.read hrest hread).trans hdelivers, hbefore.trans hr,
        fun rest hhead => ?_⟩
      refine (ReadsAs.of_takes hne (htakes (front' ++ rest) ?_)).append (hfronts rest hhead)
      rw [hq, List.head?_append, List.head?_append, hhead]

/-- Where there is neither an event nor a fault there is no text. -/
theorem rest_eq_nil_of_transcriptFrom (hok : (transcriptFrom p).failure = none)
    (hevents : (transcriptFrom p).events = []) : p.rest = [] := by
  by_contra hrest
  cases hread : Event.read p with
  | error fault =>
    rw [transcriptFrom_of_error hrest hread] at hok
    cases hok
  | ok found =>
    rw [transcriptFrom_of_ok hrest hread] at hevents
    cases hevents

/-- The text is read without a fault, and its last event is all that stands in it from the front of
`back` on. -/
def EndsAs (back text : List Char) : Prop :=
  (transcript text).failure = none ∧
    (transcript text).events.getLast?.map (fun e => e.start + byteLength back) =
      some (byteLength text)

instance (back text : List Char) : Decidable (EndsAs back text) :=
  inferInstanceAs (Decidable (_ ∧ _))

/-- A text whose last event is what stands at its end is read as two pieces: the first one as the
other events, and the last one as this event. -/
theorem EndsAs.exists_readsAs {front back : List Char} (hback : back ≠ [])
    (h : EndsAs back (front ++ back)) :
    ∃ es e, (transcript (front ++ back)).events.map (·.event) = es ++ [e] ∧
      Event.Takes Event.read e back [] ∧
      ∀ rest, rest.head? = back.head? → ReadsAs front es rest := by
  obtain ⟨hok, hlast⟩ := h
  obtain ⟨e, he, hstart⟩ := Option.map_eq_some_iff.1 hlast
  rw [byteLength_append] at hstart
  have hplace : e.start = (Place.start (front ++ back)).offset + byteLength front :=
    (Nat.add_right_cancel hstart).trans (Nat.zero_add _).symm
  obtain ⟨es, q, ⟨located, rfl, hcut⟩, hq, hfronts⟩ :=
    exists_readsAs_of_start rfl (List.mem_of_getLast? he) hplace
  have hrest : q.rest = back := (List.append_cancel_left hq.1).symm
  rw [transcript, hcut] at hok he ⊢
  rw [← hrest] at hback hfronts ⊢
  cases hread : Event.read q with
  | error fault =>
    rw [transcriptFrom_of_error hback hread] at hok
    cases hok
  | ok found =>
    obtain ⟨event, r⟩ := found
    obtain ⟨taken, hbefore, hne, htakes⟩ := exists_takes_of_read hread hback
    rw [transcriptFrom_of_ok hback hread] at hok he ⊢
    -- a later event would be the last one, and it starts behind this one
    have hevents : (transcriptFrom r).events = [] := by
      by_contra hlater
      rw [← List.singleton_append, ← List.append_assoc,
        List.getLast?_append_of_ne_nil _ hlater] at he
      have hle := le_start_of_mem (List.mem_of_getLast? he)
      have hpos := List.length_pos_iff.2 hne
      have hbytes := length_le_byteLength taken
      rw [hbefore.2, hq.2, ← hplace] at hle
      omega
    have hr : r.rest = [] := rest_eq_nil_of_transcriptFrom hok hevents
    rw [hevents]
    refine ⟨located.map (·.event), event, by rw [List.map_append]; rfl, ?_, hfronts⟩
    rw [hbefore.1, hr, List.append_nil]
    exact htakes [] (by rw [hr])

end MarkupPath.Tree
