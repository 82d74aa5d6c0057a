import MarkupPath.Proofs.Markup.AttributeList
import MarkupPath.Proofs.Markup.AttributeNames
import MarkupPath.Proofs.Markup.Name
import Mathlib.Data.List.Nodup

/-!
# The grammar of attribute lists

An attribute is spelled by blanks, a name, an equals sign with blanks around it, and a value between
two quotes that holds neither its quote nor `<`. A list of attributes is read off a text just when
the text spells attributes with different names, one after another, and ends with blanks; there is
no other way to read them, and a text that is refused is refused at one of its bytes or at its end
(`lists`). The blanks before an attribute may be missing, also behind the quote of the one before
(`not_list_of_separated`).
-/

set_option autoImplicit false

namespace MarkupPath.Markup.Attribute

open MarkupPath.Text

/-! ## Spellings -/

/-- An attribute with everything that stands in its text. -/
@[ext]
structure Spelling where
  lead : List Char
  name : List Char
  beforeSign : List Char
  behindSign : List Char
  quote : Char
  value : List Char
  lead_blank : ∀ c ∈ lead, isMarkupBlank c = true
  name_start : ∃ c rest, name = c :: rest ∧ Name.isStart c = true
  name_part : ∀ c ∈ name, Name.isPart c = true
  beforeSign_blank : ∀ c ∈ beforeSign, isMarkupBlank c = true
  behindSign_blank : ∀ c ∈ behindSign, isMarkupBlank c = true
  quote_mark : quote = '"' ∨ quote = '\''
  value_plain : ∀ c ∈ value, c ≠ quote ∧ c ≠ '<'

namespace Spelling

variable (s : Spelling)

/-- The value between its quotes. -/
def quoted : List Char := s.quote :: (s.value ++ [s.quote])

/-- The text from the name on. -/
def body : List Char := s.name ++ (s.beforeSign ++ '=' :: (s.behindSign ++ s.quoted))

def text : List Char := s.lead ++ s.body

/-- The attribute that is spelled. -/
def toAttribute : Attribute := ⟨String.ofList s.name, String.ofList (Reference.expand s.value)⟩

theorem name_whole : Name.IsWhole s.name := Name.isWhole_iff.2 ⟨s.name_start, s.name_part⟩

theorem quoted_append (rest : List Char) :
    s.quoted ++ rest = s.quote :: (s.value ++ s.quote :: rest) := by
  rw [quoted, List.cons_append, List.append_assoc, List.singleton_append]

theorem body_append (rest : List Char) : s.body ++ rest =
    s.name ++ (s.beforeSign ++ '=' :: (s.behindSign ++ (s.quoted ++ rest))) := by
  simp only [body, List.append_assoc, List.cons_append]

theorem text_append (rest : List Char) : s.text ++ rest = s.lead ++ (s.body ++ rest) := by
  rw [text, List.append_assoc]

theorem forall_mem_oneBlank : ∀ c ∈ [' '], isMarkupBlank c = true :=
  List.forall_mem_singleton.2 rfl

theorem doubleQuote_mark : '"' = '"' ∨ '"' = '\'' := .inl rfl

/-- An attribute in double quotes, without blanks around the sign. -/
def plain (lead name value : List Char) (hlead : ∀ c ∈ lead, isMarkupBlank c = true)
    (hname : Name.IsWhole name) (hvalue : ∀ c ∈ value, c ≠ '"' ∧ c ≠ '<') : Spelling where
  lead := lead
  name := name
  beforeSign := []
  behindSign := []
  quote := '"'
  value := value
  lead_blank := hlead
  name_start := (Name.isWhole_iff.1 hname).1
  name_part := (Name.isWhole_iff.1 hname).2
  beforeSign_blank := List.forall_mem_nil _
  behindSign_blank := List.forall_mem_nil _
  quote_mark := doubleQuote_mark
  value_plain := hvalue

/-! Each part ends where the next one starts. -/

theorem not_isMarkupBlank_body {rest : List Char} :
    ∀ c ∈ (s.body ++ rest).head?, isMarkupBlank c = false := by
  obtain ⟨c, later, hname, hstart⟩ := s.name_start
  rw [body_append, hname]
  simpa using Name.not_isMarkupBlank hstart

/-- A name ends in front of the blanks or the sign behind it. -/
theorem not_isPart_behind {rest : List Char} :
    ∀ c ∈ (s.beforeSign ++ '=' :: rest).head?, Name.isPart c = false := by
  intro c hc
  cases hblanks : s.beforeSign with
  | nil =>
    rw [hblanks] at hc
    cases hc
    decide
  | cons b blanks =>
    rw [hblanks] at hc
    cases hc
    exact Name.not_isPart_of_isMarkupBlank (s.beforeSign_blank c (by simp [hblanks]))

theorem not_isMarkupBlank_quoted {rest : List Char} :
    ∀ c ∈ (s.quoted ++ rest).head?, isMarkupBlank c = false := by
  intro c hc
  cases hc
  rcases s.quote_mark with h | h <;> (rw [h]; decide)

theorem not_isMarkupBlank_sign {rest : List Char} :
    ∀ c ∈ ('=' :: rest).head?, isMarkupBlank c = false := by
  intro c hc
  cases hc
  decide

theorem value_stop : ∀ c ∈ s.value, (c != s.quote && c != '<') = true := by
  intro c hc
  rw [Bool.and_eq_true, bne_iff_ne, bne_iff_ne]
  exact s.value_plain c hc

theorem quote_stop {rest : List Char} :
    ∀ c ∈ (s.quote :: rest).head?, (c != s.quote && c != '<') = false := by
  intro c hc
  cases hc
  simp

end Spelling

/-- The text spells the attributes, with different names, and ends with blanks. -/
structure Spells (spellings : List Spelling) (text : List Char) : Prop where
  parts : ∃ tail, (∀ c ∈ tail, isMarkupBlank c = true) ∧
    text = spellings.flatMap Spelling.text ++ tail
  distinct : (spellings.map (·.name)).Nodup

/-! ## What is spelled is read -/

section

variable {p : Place} {rest : List Char}

theorem readValue_quoted (s : Spelling) (hp : p.rest = s.quoted ++ rest) :
    ∃ q, readValue p = .ok (s.value, q) ∧ q.rest = rest := by
  have hquote : (s.quote == '"' || s.quote == '\'') = true := by
    rw [Bool.or_eq_true, beq_iff_eq, beq_iff_eq]
    exact s.quote_mark
  rw [readValue, hp, s.quoted_append]
  simp only [if_pos hquote, takeWhile_append_stop s.value_stop s.quote_stop,
    dropWhile_append_stop s.value_stop s.quote_stop, beq_self_eq_true, if_true]
  exact ⟨_, rfl, rfl⟩

/-- An attribute is read from its spelling, up to the end of its value. -/
theorem read_spelling (s : Spelling) (hp : p.rest = s.body ++ rest) :
    ∃ q, read p = .ok (s.name, s.value, q) ∧ q.rest = rest := by
  -- each part is cut off where the next one starts
  rw [s.body_append] at hp
  have hname := s.name_whole.read?_eq hp s.not_isPart_behind
  rw [read, hname]
  simp only
  rw [Place.skipWhile_append s.beforeSign_blank (Place.past_rest _ _ _)
    Spelling.not_isMarkupBlank_sign, Place.after?_eq (List.singleton_append).symm]
  simp only
  rw [Place.skipWhile_append s.behindSign_blank (Place.past_rest _ _ _) s.not_isMarkupBlank_quoted]
  obtain ⟨q, hvalue, hq⟩ := readValue_quoted s (Place.past_rest _ _ _)
  rw [hvalue]
  exact ⟨q, rfl, hq⟩

end

/-- Attributes that are spelled with different names are read, behind those already known. -/
theorem readAll_spellings {spellings : List Spelling} {tail : List Char}
    (htail : ∀ c ∈ tail, isMarkupBlank c = true) {known : List Attribute}
    (hnodup : ((known ++ spellings.map Spelling.toAttribute).map (·.name)).Nodup) {p : Place}
    (hp : p.rest = spellings.flatMap Spelling.text ++ tail) :
    readAll known p = .ok (known ++ spellings.map Spelling.toAttribute) := by
  induction spellings generalizing known p with
  | nil =>
    have hskip := Place.skipWhile_append htail (hp.trans (List.append_nil tail).symm) (by simp)
    rw [readAll_of_end (by rw [hskip]; rfl), List.map_nil, List.append_nil]
  | cons s spellings ih =>
    rw [List.flatMap_cons, List.append_assoc, s.text_append] at hp
    have hskip := Place.skipWhile_append s.lead_blank hp s.not_isMarkupBlank_body
    have hne : (p.skipWhile isMarkupBlank).rest ≠ [] := by
      obtain ⟨c, later, hname, -⟩ := s.name_start
      rw [hskip, Place.past_rest, s.body_append, hname]
      simp
    obtain ⟨q, hread, hq⟩ := read_spelling s (congrArg Place.rest hskip)
    -- the name differs from those of all attributes read before
    have hnew : ¬ (known.any fun a => a.name == String.ofList s.name) = true := by
      rw [List.map_append, List.nodup_append] at hnodup
      rw [List.any_eq_true]
      rintro ⟨a, ha, hname⟩
      exact hnodup.2.2 a.name (List.mem_map_of_mem ha) s.toAttribute.name (by simp)
        (eq_of_beq hname)
    rw [readAll_of_ok hne hread, if_neg hnew, ih (by simpa [Spelling.toAttribute] using hnodup) hq]
    simp [Spelling.toAttribute]

/-- A text that spells attributes is read as their list. -/
theorem list_of_spells {spellings : List Spelling} {text : List Char} (h : Spells spellings text) :
    list text = .ok (spellings.map Spelling.toAttribute) := by
  obtain ⟨⟨tail, htail, htext⟩, hdistinct⟩ := h
  refine readAll_spellings htail ?_ htext
  have hnames : (spellings.map Spelling.toAttribute).map (·.name) =
      (spellings.map (·.name)).map String.ofList := by
    rw [List.map_map, List.map_map]
    rfl
  rw [List.nil_append, hnames]
  exact List.Nodup.map (fun _ _ => String.ofList_injective) hdistinct

/-! ## What is read is spelled -/

section

variable {p q : Place} {name value : List Char}

/-- A value that is read stands between two quotes and holds neither its quote nor `<`. -/
theorem exists_quote_of_readValue (h : readValue p = .ok (value, q)) :
    ∃ quote, (quote = '"' ∨ quote = '\'') ∧ (∀ c ∈ value, c ≠ quote ∧ c ≠ '<') ∧
      p.rest = quote :: (value ++ quote :: q.rest) := by
  rw [readValue] at h
  split at h
  · cases h
  · next quote text hrest =>
    split at h
    · next hquote =>
      rw [Bool.or_eq_true, beq_iff_eq, beq_iff_eq] at hquote
      simp only at h
      split at h
      · cases h
      · next stop later hdrop =>
        split at h
        · next hstop =>
          cases h
          refine ⟨quote, hquote, fun c hc => ?_, ?_⟩
          · have hplain := List.mem_takeWhile_imp hc
            rwa [Bool.and_eq_true, bne_iff_ne, bne_iff_ne] at hplain
          · have hvalue := (dropWhile_value hdrop).2
            rw [eq_of_beq hstop] at hvalue
            exact hrest.trans (congrArg (quote :: ·) hvalue)
        · cases h
    · cases h

/-- An attribute that is read is spelled there, with any blanks before it. -/
theorem exists_spelling_of_read (h : read p = .ok (name, value, q)) (lead : List Char)
    (hlead : ∀ c ∈ lead, isMarkupBlank c = true) :
    ∃ s : Spelling, s.lead = lead ∧ s.name = name ∧ s.value = value ∧
      p.rest = s.body ++ q.rest := by
  rw [read] at h
  split at h
  · cases h
  · next name' q' hname =>
    obtain ⟨hwhole, hbefore, -⟩ := Name.whole_of_read? hname
    obtain ⟨hstart, hpart⟩ := Name.isWhole_iff.1 hwhole
    simp only at h
    split at h
    · cases h
    · next r hsign =>
      split at h
      · cases h
      · next value' t hvalue =>
        cases h
        obtain ⟨quote, hquote, hplain, hrest⟩ := exists_quote_of_readValue hvalue
        have hblanks := Place.before_skipWhile isMarkupBlank q'
        have hbehind := Place.before_skipWhile isMarkupBlank r
        refine ⟨⟨lead, name, q'.rest.takeWhile isMarkupBlank, r.rest.takeWhile isMarkupBlank, quote,
          value, hlead, hstart, hpart, fun c hc => List.mem_takeWhile_imp hc,
          fun c hc => List.mem_takeWhile_imp hc, hquote, hplain⟩, rfl, rfl, rfl, ?_⟩
        rw [Spelling.body_append, Spelling.quoted_append]
        conv_lhs => rw [hbefore.1, hblanks.1, (Place.before_of_after? hsign).1, hbehind.1, hrest]
        rfl

end

/-- What is read up to the end of the text is spelled there. -/
theorem exists_spellings_of_readAll {known attributes : List Attribute} {p : Place}
    (h : readAll known p = .ok attributes) :
    ∃ spellings : List Spelling, ∃ tail, (∀ c ∈ tail, isMarkupBlank c = true) ∧
      p.rest = spellings.flatMap Spelling.text ++ tail ∧
      attributes = known ++ spellings.map Spelling.toAttribute := by
  fun_induction readAll known p with
  | case1 known p q hend =>
    cases h
    refine ⟨[], p.rest, ?_, rfl, (List.append_nil _).symm⟩
    exact List.dropWhile_eq_nil_iff.1 (List.isEmpty_iff.1 hend)
  | case2 known p q hrest e hread => cases h
  | case3 known p q hrest name value r hread name' hmet => cases h
  | case4 known p q hrest name value r hread name' hnew ih =>
    obtain ⟨spellings, tail, htail, hr, hattributes⟩ := ih h
    obtain ⟨s, hlead, hname, hvalue, hq⟩ := exists_spelling_of_read hread
      (p.rest.takeWhile isMarkupBlank) fun c hc => List.mem_takeWhile_imp hc
    refine ⟨s :: spellings, tail, htail, ?_, ?_⟩
    · rw [(Place.before_skipWhile isMarkupBlank p).1, hq, hr, List.flatMap_cons, List.append_assoc,
        s.text_append, hlead]
    · rw [hattributes, List.append_assoc, List.singleton_append, List.map_cons,
        Spelling.toAttribute, hname, hvalue]

theorem exists_spells_of_list {text : List Char} {attributes : List Attribute}
    (h : list text = .ok attributes) :
    ∃ spellings, Spells spellings text ∧ attributes = spellings.map Spelling.toAttribute := by
  obtain ⟨spellings, tail, htail, htext, rfl⟩ := exists_spellings_of_readAll h
  refine ⟨spellings, ⟨⟨tail, htail, htext⟩, ?_⟩, rfl⟩
  have hnodup := nodup_of_list h
  rw [List.nil_append, List.map_map] at hnodup
  exact List.Nodup.of_map String.ofList (by rwa [List.map_map])

/-! ## One spelling for each text -/

/-- Two runs of a class that end are the same at the front of the same text. -/
theorem append_stop_inj {class? : Char → Bool} {xs ys more later : List Char}
    (hxs : ∀ c ∈ xs, class? c = true) (hys : ∀ c ∈ ys, class? c = true)
    (hmore : ∀ c ∈ more.head?, class? c = false) (hlater : ∀ c ∈ later.head?, class? c = false)
    (h : xs ++ more = ys ++ later) : xs = ys ∧ more = later := by
  constructor
  · rw [← takeWhile_append_stop hxs hmore, h, takeWhile_append_stop hys hlater]
  · rw [← dropWhile_append_stop hxs hmore, h, dropWhile_append_stop hys hlater]

/-- A spelling ends where its value does, so a text has one spelling at its start at most. -/
theorem Spelling.text_append_inj {s t : Spelling} {more later : List Char}
    (h : s.text ++ more = t.text ++ later) : s = t ∧ more = later := by
  rw [s.text_append, t.text_append] at h
  obtain ⟨hlead, h⟩ := append_stop_inj s.lead_blank t.lead_blank s.not_isMarkupBlank_body
    t.not_isMarkupBlank_body h
  rw [s.body_append, t.body_append] at h
  obtain ⟨hname, h⟩ := append_stop_inj s.name_part t.name_part s.not_isPart_behind
    t.not_isPart_behind h
  obtain ⟨hbefore, h⟩ := append_stop_inj s.beforeSign_blank t.beforeSign_blank
    Spelling.not_isMarkupBlank_sign Spelling.not_isMarkupBlank_sign h
  obtain ⟨hbehind, h⟩ := append_stop_inj s.behindSign_blank t.behindSign_blank
    s.not_isMarkupBlank_quoted t.not_isMarkupBlank_quoted (List.cons.inj h).2
  rw [s.quoted_append, t.quoted_append] at h
  obtain ⟨hquote, h⟩ := List.cons.inj h
  obtain ⟨hvalue, h⟩ := append_stop_inj s.value_stop (hquote ▸ t.value_stop) s.quote_stop
    (hquote ▸ t.quote_stop) h
  exact ⟨Spelling.ext hlead hname hbefore hbehind hquote hvalue, (List.cons.inj h).2⟩

theorem flatMap_text_ne_blank {s : Spelling} {more tail : List Char}
    (htail : ∀ c ∈ tail, isMarkupBlank c = true) : s.text ++ more ≠ tail := by
  rintro rfl
  obtain ⟨c, later, hname, hstart⟩ := s.name_start
  have hblank := htail c (by simp [Spelling.text, Spelling.body, hname])
  rw [Name.not_isMarkupBlank hstart] at hblank
  cases hblank

/-- A text spells at most one list of attributes. -/
theorem eq_of_flatMap_text_append {spellings spellings' : List Spelling} {tail tail' : List Char}
    (htail : ∀ c ∈ tail, isMarkupBlank c = true) (htail' : ∀ c ∈ tail', isMarkupBlank c = true)
    (h : spellings.flatMap Spelling.text ++ tail = spellings'.flatMap Spelling.text ++ tail') :
    spellings = spellings' := by
  induction spellings generalizing spellings' with
  | nil =>
    cases spellings' with
    | nil => rfl
    | cons s spellings' =>
      rw [List.flatMap_cons, List.append_assoc] at h
      exact absurd h.symm (flatMap_text_ne_blank htail)
  | cons s spellings ih =>
    cases spellings' with
    | nil =>
      rw [List.flatMap_cons, List.append_assoc] at h
      exact absurd h (flatMap_text_ne_blank htail')
    | cons s' spellings' =>
      rw [List.flatMap_cons, List.flatMap_cons, List.append_assoc, List.append_assoc] at h
      obtain ⟨rfl, hrest⟩ := Spelling.text_append_inj h
      rw [ih hrest]

theorem Spells.unique {spellings spellings' : List Spelling} {text : List Char}
    (h : Spells spellings text) (h' : Spells spellings' text) : spellings = spellings' := by
  obtain ⟨tail, htail, htext⟩ := h.parts
  obtain ⟨tail', htail', htext'⟩ := h'.parts
  exact eq_of_flatMap_text_append htail htail' (htext.symm.trans htext')

/-! ## Where a text is refused -/

section

variable {p : Place} {text : List Char} {e : AttributeError}

/-- A fault in a value shows inside the text or at its end. -/
theorem offset_le_of_readValue (hp : p.In text) (h : readValue p = .error e) :
    e.offset ≤ byteLength text := by
  rw [readValue] at h
  split at h
  · cases h
    exact hp.offset_le
  · next quote later hrest =>
    split at h
    · simp only at h
      split at h
      · cases h
        exact hp.offset_le
      · next stop more hdrop =>
        split at h
        · cases h
        · -- the place is the one behind the value, where `<` stands
          cases h
          have hbefore : p.Before (quote :: later.takeWhile fun c => c != quote && c != '<')
              (p.past (quote :: later.takeWhile fun c => c != quote && c != '<') (stop :: more)) :=
            Place.before_past (by rw [hrest, List.cons_append, ← (dropWhile_value hdrop).2])
          exact (hp.of_before hbefore).offset_le
    · cases h
      exact hp.offset_le

/-- A fault in an attribute shows inside the text or at its end. -/
theorem offset_le_of_read (hp : p.In text) (h : read p = .error e) :
    e.offset ≤ byteLength text := by
  rw [read] at h
  split at h
  · cases h
    exact hp.offset_le
  · next name q hname =>
    have hq := (hp.of_before (Name.before_of_read? hname)).of_before
      (Place.before_skipWhile isMarkupBlank q)
    simp only at h
    split at h
    · cases h
      exact hq.offset_le
    · next r hsign =>
      have hr := (hq.of_before (Place.before_of_after? hsign)).of_before
        (Place.before_skipWhile isMarkupBlank r)
      split at h
      · next hvalue =>
        cases h
        exact offset_le_of_readValue hr hvalue
      · cases h

/-- A fault in a list of attributes shows inside the text or at its end, also for a name that is
there already. -/
theorem offset_le_of_readAll {known : List Attribute} (hp : p.In text)
    (h : readAll known p = .error e) : e.offset ≤ byteLength text := by
  fun_induction readAll known p with
  | case1 known p q hend => cases h
  | case2 known p q hrest e' hread =>
    cases h
    exact offset_le_of_read (hp.of_before (Place.before_skipWhile isMarkupBlank p)) hread
  | case3 known p q hrest name value r hread name' hmet =>
    cases h
    exact (hp.of_before (Place.before_skipWhile isMarkupBlank p)).offset_le
  | case4 known p q hrest name value r hread name' hnew ih =>
    obtain ⟨taken, hbefore, -⟩ := before_of_read hread
    exact ih ((hp.of_before (Place.before_skipWhile isMarkupBlank p)).of_before hbefore) h

end

/-! ## Whole texts -/

/-- A blank stands before each attribute. -/
def Separated (spellings : List Spelling) : Prop := ∀ s ∈ spellings, s.lead ≠ []

/-- How the attributes of a text are listed. -/
structure Lists (text : List Char) : Prop where
  /-- Among the bytes of the text they are listed as among its characters. -/
  byBytes : (Reader.readAttributes text).Ends (list text)
  /-- The attributes are those that the text spells, with their values decoded. -/
  listed : ∀ attributes, list text = .ok attributes ↔
    ∃ spellings, Spells spellings text ∧ attributes = spellings.map Spelling.toAttribute
  /-- A text spells attributes in one way at most. -/
  unique : ∀ spellings spellings', Spells spellings text → Spells spellings' text →
    spellings = spellings'
  /-- A text that spells none is refused, at one of its bytes or at its end. -/
  refused : (∀ spellings, ¬ Spells spellings text) →
    ∃ e, list text = .error e ∧ e.offset ≤ byteLength text
  /-- Where no attribute begins at the quote of the one before, they are separated by blanks. -/
  separated : (∀ c ∈ text.head?, isMarkupBlank c = true) →
    (∀ spellings, Spells spellings text → Separated spellings.tail) →
    ∀ attributes, list text = .ok attributes ↔ ∃ spellings, Spells spellings text ∧
      Separated spellings ∧ attributes = spellings.map Spelling.toAttribute

/-- The first attribute of a text that starts with a blank stands behind it. -/
theorem Spells.separated {spellings : List Spelling} {text : List Char} (h : Spells spellings text)
    (hblank : ∀ c ∈ text.head?, isMarkupBlank c = true) (htail : Separated spellings.tail) :
    Separated spellings := by
  cases spellings with
  | nil => exact List.forall_mem_nil _
  | cons s spellings =>
    refine List.forall_mem_cons.2 ⟨fun hlead => ?_, htail⟩
    obtain ⟨tail, -, rfl⟩ := h.parts
    obtain ⟨c, later, hname, hstart⟩ := s.name_start
    have hhead := hblank c (by simp [Spelling.text, Spelling.body, hlead, hname])
    rw [Name.not_isMarkupBlank hstart] at hhead
    cases hhead

/-- A list is read exactly from its spellings, and the bound on the offsets is one for all
faults. -/
theorem lists (text : List Char) : Lists text where
  byBytes := Reader.ends_readAttributes text
  listed attributes := by
    constructor
    · exact exists_spells_of_list
    · rintro ⟨spellings, hspells, rfl⟩
      exact list_of_spells hspells
  unique _ _ h h' := h.unique h'
  refused hnone := by
    cases hlist : list text with
    | ok attributes =>
      obtain ⟨spellings, hspells, -⟩ := exists_spells_of_list hlist
      exact absurd hspells (hnone spellings)
    | error e => exact ⟨e, rfl, offset_le_of_readAll (Place.in_start text) hlist⟩
  separated hblank htail attributes := by
    constructor
    · intro hlist
      obtain ⟨spellings, hspells, rfl⟩ := exists_spells_of_list hlist
      exact ⟨spellings, hspells, hspells.separated hblank (htail spellings hspells), rfl⟩
    · rintro ⟨spellings, hspells, -, rfl⟩
      exact list_of_spells hspells

/-- Both quotes, blanks around the sign and at the end, a reference, and the other quote in a
value. -/
theorem lists_bothQuotes :
    let text := "\ta = 'x\"&lt;' b:c=\"'\"\r\n".toList
    Lists text ∧ list text = .ok [⟨"a", "x\"<"⟩, ⟨"b:c", "'"⟩] := by
  intro text
  exact ⟨lists text, by decide +kernel⟩

/-! ## Attributes without a blank between them -/

/-- The blank before an attribute is not demanded. -/
theorem not_list_of_separated : ¬ ∀ text, (∀ c ∈ text.head?, isMarkupBlank c = true) →
    ∀ attributes, list text = .ok attributes ↔ ∃ spellings, Spells spellings text ∧
      Separated spellings ∧ attributes = spellings.map Spelling.toAttribute := by
  intro hall
  let first := Spelling.plain [' '] ['a'] ['1'] Spelling.forall_mem_oneBlank (by decide)
    (List.forall_mem_singleton.2 (by decide))
  let second := Spelling.plain [] ['b'] ['2'] (List.forall_mem_nil _) (by decide)
    (List.forall_mem_singleton.2 (by decide))
  have hblank : ∀ c ∈ " a=\"1\"b=\"2\"".toList.head?, isMarkupBlank c = true := by
    intro c hc
    cases hc
    decide
  have hspells : Spells [first, second] " a=\"1\"b=\"2\"".toList :=
    ⟨⟨[], List.forall_mem_nil _, by decide⟩, by decide⟩
  obtain ⟨spellings, hspells', hseparated, -⟩ :=
    (hall _ hblank _).1 (list_of_spells hspells)
  rw [hspells'.unique hspells] at hseparated
  exact hseparated second (by simp) rfl

end MarkupPath.Markup.Attribute
