import MarkupPath.Markup.Event.Read
import MarkupPath.Proofs.Markup.AttributeGrammar
import MarkupPath.Tree.Print

/-!
# Written markup is read back

Each piece that a printed document is made of is read as the event that it writes, whatever stands
behind it: tags with their attributes, texts, comments and sections of character data. `ReadsAs` is
that relation between a piece and events. It holds for names that are read whole and for bodies
without their own delimiter; attribute values and texts are arbitrary.
-/

set_option autoImplicit false

namespace MarkupPath.Markup

open MarkupPath.Text

/-! ## Tags up to their end -/

section SplitTag

variable {text more : List Char}

/-- Outside quotation marks the search for the end of a tag passes what is no mark itself. -/
theorem splitTag?_outside (h : ∀ c ∈ text, c ≠ '>' ∧ c ≠ '"' ∧ c ≠ '\'') (more : List Char) :
    Event.splitTag? none (text ++ more) =
      (Event.splitTag? none more).map fun halves => (text ++ halves.1, halves.2) := by
  induction text with
  | nil => simp
  | cons c text ih =>
    obtain ⟨⟨hend, hdouble, hsingle⟩, htext⟩ := List.forall_mem_cons.1 h
    have hquote : Event.openQuote none c = none := by simp [Event.openQuote, hdouble, hsingle]
    rw [List.cons_append, Event.splitTag?, if_neg (by simpa using hend), hquote, ih htext,
      Option.map_map]
    rfl

/-- Inside quotation marks it passes everything up to the closing mark. -/
theorem splitTag?_quoted (h : ∀ c ∈ text, c ≠ '"') (more : List Char) :
    Event.splitTag? (some '"') (text ++ '"' :: more) =
      (Event.splitTag? none more).map fun halves => (text ++ '"' :: halves.1, halves.2) := by
  induction text with
  | nil =>
    rw [List.nil_append, Event.splitTag?, if_neg (by simp)]
    rfl
  | cons c text ih =>
    obtain ⟨hc, htext⟩ := List.forall_mem_cons.1 h
    have hquote : Event.openQuote (some '"') c = some '"' := by
      simp [Event.openQuote, Ne.symm hc]
    rw [List.cons_append, Event.splitTag?, if_neg (by simp), hquote, ih htext, Option.map_map]
    rfl

end SplitTag

end MarkupPath.Markup

namespace MarkupPath.Tree

open MarkupPath.Markup MarkupPath.Text

/-! ## Attributes -/

section Attributes

variable {a : Attribute} {attributes : List Attribute} {rest : List Char}

theorem attributeText_append (a : Attribute) (rest : List Char) :
    attributeText a ++ rest = ' ' :: (a.name.toList ++ '=' :: '"' ::
      (Reference.escapeAttribute a.value.toList ++ '"' :: rest)) := by
  simp [attributeText]

/-- The attributes of a tag do not hold its end. -/
theorem splitTag?_attributes (h : ∀ a ∈ attributes, Name.IsWhole a.name.toList) (rest : List Char) :
    Event.splitTag? none (attributes.flatMap attributeText ++ rest) =
      (Event.splitTag? none rest).map
        fun halves => (attributes.flatMap attributeText ++ halves.1, halves.2) := by
  induction attributes with
  | nil => simp
  | cons a attributes ih =>
    obtain ⟨ha, hattributes⟩ := List.forall_mem_cons.1 h
    have hname : ∀ c ∈ ' ' :: (a.name.toList ++ ['=']), c ≠ '>' ∧ c ≠ '"' ∧ c ≠ '\'' := by
      intro c hc
      simp only [List.mem_cons, List.mem_append, List.not_mem_nil, or_false] at hc
      rcases hc with rfl | hc | rfl
      · decide
      · obtain ⟨hend, hdouble, hsingle, -⟩ := Name.ne_of_isPart ((Name.isWhole_iff.1 ha).2 c hc)
        exact ⟨hend, hdouble, hsingle⟩
      · decide
    have hvalue : ∀ c ∈ Reference.escapeAttribute a.value.toList, c ≠ '"' := fun c hc =>
      (Reference.ne_of_mem_escapeAttribute hc).2
    have hsplit : attributeText a ++ (attributes.flatMap attributeText ++ rest) =
        (' ' :: (a.name.toList ++ ['='])) ++ '"' :: (Reference.escapeAttribute a.value.toList ++
          '"' :: (attributes.flatMap attributeText ++ rest)) := by
      simp [attributeText]
    rw [List.flatMap_cons, List.append_assoc, hsplit, splitTag?_outside hname, Event.splitTag?,
      if_neg (by simp), show Event.openQuote none '"' = some '"' from rfl, splitTag?_quoted hvalue,
      ih hattributes]
    simp only [Option.map_map]
    congr 1
    funext halves
    simp [attributeText]

/-- A written attribute spells itself, behind one blank and in double quotes. -/
def writtenSpelling (a : Attribute) (ha : Name.IsWhole a.name.toList) : Attribute.Spelling :=
  .plain [' '] a.name.toList (Reference.escapeAttribute a.value.toList)
    Attribute.Spelling.forall_mem_oneBlank ha fun _ hc =>
      (Reference.ne_of_mem_escapeAttribute hc).symm

theorem writtenSpelling_toAttribute (a : Attribute) (ha : Name.IsWhole a.name.toList) :
    (writtenSpelling a ha).toAttribute = a := by
  change (⟨String.ofList a.name.toList, String.ofList (Reference.expand
    (Reference.escapeAttribute a.value.toList))⟩ : Attribute) = a
  rw [Reference.expand_escapeAttribute, String.ofList_toList, String.ofList_toList]

/-- The attributes that the printer writes are spellings, with one blank in front and no other
layout. -/
theorem exists_spellings_attributeText (h : ∀ a ∈ attributes, Name.IsWhole a.name.toList) :
    ∃ spellings : List Attribute.Spelling,
      spellings.flatMap Attribute.Spelling.text = attributes.flatMap attributeText ∧
        spellings.map Attribute.Spelling.toAttribute = attributes := by
  induction attributes with
  | nil => exact ⟨[], rfl, rfl⟩
  | cons a attributes ih =>
    obtain ⟨ha, hattributes⟩ := List.forall_mem_cons.1 h
    obtain ⟨spellings, htext, hread⟩ := ih hattributes
    refine ⟨writtenSpelling a ha :: spellings, ?_, ?_⟩
    · rw [List.flatMap_cons, List.flatMap_cons, htext, Attribute.Spelling.text_append,
        Attribute.Spelling.body_append, Attribute.Spelling.quoted_append, attributeText_append]
      rfl
    · rw [List.map_cons, writtenSpelling_toAttribute, hread]

/-- Written attributes with different names are read back. -/
theorem readAll_attributes (h : ∀ a ∈ attributes, Name.IsWhole a.name.toList)
    {known : List Attribute} (hnodup : ((known ++ attributes).map (·.name)).Nodup) {p : Place}
    (hp : p.rest = attributes.flatMap attributeText) :
    Attribute.readAll known p = .ok (known ++ attributes) := by
  obtain ⟨spellings, htext, hread⟩ := exists_spellings_attributeText h
  rw [← htext, ← List.append_nil (spellings.flatMap _)] at hp
  rw [← hread] at hnodup ⊢
  exact Attribute.readAll_spellings (List.forall_mem_nil _) hnodup hp

end Attributes

/-! ## Pieces and the events they write -/

/-- The events that stand between two places of a text. -/
def Delivers (p : Place) (es : List Event) (q : Place) : Prop :=
  ∃ located : List Located, located.map (·.event) = es ∧
    transcriptFrom p = ⟨located ++ (transcriptFrom q).events, (transcriptFrom q).failure⟩

theorem Delivers.refl (p : Place) : Delivers p [] p := ⟨[], rfl, rfl⟩

theorem Delivers.trans {p q r : Place} {es fs : List Event} (hpq : Delivers p es q)
    (hqr : Delivers q fs r) : Delivers p (es ++ fs) r := by
  obtain ⟨first, rfl, hp⟩ := hpq
  obtain ⟨second, rfl, hq⟩ := hqr
  exact ⟨first ++ second, List.map_append, by rw [hp, hq, List.append_assoc]⟩

theorem Delivers.read {p q : Place} {e : Event} (hrest : p.rest ≠ [])
    (h : Event.read p = .ok (e, q)) : Delivers p [e] q := by
  refine ⟨[⟨e, p.offset, q.offset⟩], rfl, ?_⟩
  rw [transcriptFrom_of_ok hrest h]
  rfl

/-- Wherever the piece stands before the rest, it is read as these events. -/
def ReadsAs (piece : List Char) (es : List Event) (rest : List Char) : Prop :=
  ∀ p : Place, p.rest = piece ++ rest → ∃ q, q.rest = rest ∧ Delivers p es q

section Pieces

variable {piece later rest : List Char} {es fs : List Event} {e : Event}

theorem ReadsAs.nil (rest : List Char) : ReadsAs [] [] rest := fun p hp => ⟨p, hp, .refl p⟩

theorem ReadsAs.append (hpiece : ReadsAs piece es (later ++ rest))
    (hlater : ReadsAs later fs rest) :
    ReadsAs (piece ++ later) (es ++ fs) rest := by
  intro p hp
  obtain ⟨q, hq, hpq⟩ := hpiece p (by rw [hp, List.append_assoc])
  obtain ⟨r, hr, hqr⟩ := hlater q hq
  exact ⟨r, hr, hpq.trans hqr⟩

theorem ReadsAs.single (hne : piece ≠ [])
    (h : ∀ p : Place, p.rest = piece ++ rest → ∃ q, Event.read p = .ok (e, q) ∧ q.rest = rest) :
    ReadsAs piece [e] rest := by
  intro p hp
  obtain ⟨q, hread, hq⟩ := h p hp
  exact ⟨q, hq, .read (by rw [hp]; simp [hne]) hread⟩

/-- A text that is read as a whole is a transcript without failure. -/
theorem ReadsAs.transcript_eq (h : ReadsAs piece es []) :
    (transcript piece).failure = none ∧ (transcript piece).events.map (·.event) = es := by
  obtain ⟨q, hq, located, rfl, htranscript⟩ := h (Place.start piece) (List.append_nil piece).symm
  rw [transcript, htranscript, transcriptFrom_of_end hq]
  exact ⟨rfl, by rw [List.append_nil]⟩

/-- A body between its delimiters is read whole if it does not hold the closing one. -/
theorem readDelimited_eq {start : Nat} {inside : Place} {close : String} {fault : ReadFault}
    {event : String → Event} {body : String} (hclose : Unbordered close.toList)
    (hbody : ¬ close.toList <:+: body.toList)
    (hinside : inside.rest = body.toList ++ close.toList ++ rest) :
    ∃ q, Event.readDelimited start inside close fault event = .ok (event body, q) ∧
      q.rest = rest := by
  rw [Event.readDelimited, Place.cut?_eq hclose hbody hinside]
  simp only [String.ofList_toList]
  exact ⟨_, rfl, rfl⟩

theorem readsAs_comment {body : String} (hbody : ¬ "-->".toList <:+: body.toList)
    (rest : List Char) :
    ReadsAs ("<!--".toList ++ body.toList ++ "-->".toList) [.comment body] rest := by
  refine .single (by simp) fun p hp => ?_
  have hopen : opening? p = some (.comment, p.past "<!--".toList
      (body.toList ++ "-->".toList ++ rest)) := by
    simp [opening?, openings, Place.after?, Text.after?, hp]
  rw [Event.read, hopen]
  exact readDelimited_eq (by decide) hbody rfl

theorem readsAs_cdata {body : String} (hbody : ¬ "]]>".toList <:+: body.toList)
    (rest : List Char) :
    ReadsAs ("<![CDATA[".toList ++ body.toList ++ "]]>".toList) [.cdata body] rest := by
  refine .single (by simp) fun p hp => ?_
  have hopen : opening? p = some (.cdata, p.past "<![CDATA[".toList
      (body.toList ++ "]]>".toList ++ rest)) := by
    simp [opening?, openings, Place.after?, Text.after?, hp]
  rw [Event.read, hopen]
  exact readDelimited_eq (by decide) hbody rfl

/-- A text is read up to the next tag or marker. -/
theorem readsAs_text {text : String} (hne : text.toList ≠ []) (hrest : rest.head? = some '<') :
    ReadsAs (Reference.escapeText text.toList) [.text text] rest := by
  have hwritten : Reference.escapeText text.toList ≠ [] := fun h =>
    hne (Reference.escapeText_eq_nil_iff.1 h)
  refine .single hwritten fun p hp => ?_
  have hinside : ∀ c ∈ Reference.escapeText text.toList, (c != '<') = true := fun c hc => by
    simpa using Reference.ne_of_mem_escapeText hc
  have hstop : ∀ c ∈ rest.head?, (c != '<') = false := by simp [hrest]
  have hopen : opening? p = none := by
    obtain ⟨c, tail, hc⟩ := List.exists_cons_of_ne_nil hwritten
    have hne : '<' ≠ c := Ne.symm (Reference.ne_of_mem_escapeText (hc ▸ List.mem_cons_self))
    simp [opening?, openings, Place.after?, Text.after?, hp, hc, hne]
  rw [Event.read, hopen, Place.skipWhile_append hinside hp hstop, hp,
    takeWhile_append_stop hinside hstop]
  simp only [Reference.expand_escapeText, String.ofList_toList]
  exact ⟨_, rfl, rfl⟩

/-- What the declaration of a document says, between its target and its end. -/
def declarationBody : List Char := ' ' :: "version=\"1.0\" encoding=\"UTF-8\"".toList

theorem readsAs_declaration (rest : List Char) : ReadsAs declarationText [.declaration] rest := by
  refine .single (by decide) fun p hp => ?_
  have hsplit : declarationText =
      "<?".toList ++ ("xml".toList ++ (declarationBody ++ "?>".toList)) := by decide
  rw [hsplit, List.append_assoc, List.append_assoc] at hp
  have hopen : opening? p = some (.instruction, p.past "<?".toList
      ("xml".toList ++ (declarationBody ++ "?>".toList ++ rest))) := by
    simp [opening?, openings, Place.after?, Text.after?, hp]
  have hname : Name.IsWhole "xml".toList := by decide
  have hblank : ∀ c ∈ (declarationBody ++ "?>".toList ++ rest).head?, Name.isPart c = false := by
    intro c hc
    rw [declarationBody, List.cons_append, List.cons_append, List.head?_cons] at hc
    cases hc
    decide
  rw [Event.read, hopen]
  simp only
  rw [Event.readInstruction, hname.read?_eq rfl hblank]
  simp only
  rw [Place.cut?_eq (by decide) (by decide) rfl]
  exact ⟨_, if_pos (by decide), rfl⟩

theorem readsAs_closeText {name : String} (hname : Name.IsWhole name.toList) (rest : List Char) :
    ReadsAs (closeText name) [.endTag name] rest := by
  refine .single (by simp [closeText]) fun p hp => ?_
  have hopen : opening? p = some (.endTag, p.past "</".toList (name.toList ++ '>' :: rest)) := by
    simp [opening?, openings, Place.after?, Text.after?, hp, closeText]
  have hread := hname.read?_eq (p := p.past "</".toList (name.toList ++ '>' :: rest)) rfl
    (by simp; decide)
  rw [Event.read, hopen]
  simp only
  rw [Event.readEndTag, hread]
  simp only
  rw [Place.skipWhile_eq_self (by simp; decide), Place.after?_eq List.singleton_append.symm]
  exact ⟨_, by rw [String.ofList_toList], rfl⟩

end Pieces

/-! ## Tags that open an element -/

section Tags

variable {n : Node} {rest : List Char}

/-- The names of a node are read whole, and no two of its attributes have the same name. -/
structure Tagged (n : Node) : Prop where
  name : Name.IsWhole n.name.toList
  attribute_names : ∀ a ∈ n.attributes, Name.IsWhole a.name.toList
  nodup : (n.attributes.map (·.name)).Nodup

/-- The attributes of a tag do not end in a slash, which would make the element empty. -/
theorem getLast?_attributes (attributes : List Attribute) :
    ((attributes.flatMap attributeText).getLast? == some '/') = false := by
  rcases List.eq_nil_or_concat attributes with rfl | ⟨before, a, rfl⟩
  · rfl
  · rw [List.concat_eq_append, List.flatMap_append, List.flatMap_singleton, attributeText,
      ← List.append_assoc, List.getLast?_concat]
    rfl

/-- The attributes of a tag are set off by a blank. -/
theorem head?_attributes (attributes : List Attribute) :
    ((attributes.flatMap attributeText).head?.any fun c => !isAsciiBlank c) = false := by
  cases attributes with
  | nil => rfl
  | cons a attributes =>
    rw [List.flatMap_cons, attributeText_append]
    rfl

theorem Tagged.list_eq (h : Tagged n) :
    Attribute.list (n.attributes.flatMap attributeText) = .ok n.attributes :=
  readAll_attributes h.attribute_names h.nodup rfl

theorem Tagged.ofTag_start (h : Tagged n) (offset : Nat) :
    Event.ofTag n.name.toList (n.attributes.flatMap attributeText) offset =
      .ok (.startTag n.name n.attributes) := by
  rw [Event.ofTag]
  simp only [getLast?_attributes, head?_attributes, Bool.false_eq_true, if_false, h.list_eq,
    String.ofList_toList]

theorem Tagged.ofTag_empty (h : Tagged n) (offset : Nat) :
    Event.ofTag n.name.toList (n.attributes.flatMap attributeText ++ ['/']) offset =
      .ok (.emptyTag n.name n.attributes) := by
  rw [Event.ofTag]
  simp only [List.getLast?_concat, BEq.rfl, if_true, List.dropLast_concat, head?_attributes,
    Bool.false_eq_true, if_false, h.list_eq, String.ofList_toList]

/-- A tag is read as its event if its content, up to the end that is found, is. -/
theorem Tagged.readsAs (h : Tagged n) {close content : List Char} {event : Event}
    (hclose : ∀ c ∈ (close ++ rest).head?, Name.isPart c = false)
    (hsplit : Event.splitTag? none (close ++ rest) = some (content, rest))
    (hevent : ∀ offset, Event.ofTag n.name.toList (n.attributes.flatMap attributeText ++ content)
      offset = .ok event) : ReadsAs (openText n ++ close) [event] rest := by
  refine .single (by simp [openText]) fun p hp => ?_
  obtain ⟨c, name, hc, hstart⟩ := (Name.isWhole_iff.1 h.name).1
  obtain ⟨hbang, hquestion, hslash⟩ := Name.ne_of_isStart hstart
  have hopen : opening? p = some (.startTag, p.past ['<']
      (n.name.toList ++ (n.attributes.flatMap attributeText ++ (close ++ rest)))) := by
    simp [opening?, openings, Place.after?, Text.after?, hp, openText, hc, Ne.symm hbang,
      Ne.symm hquestion, Ne.symm hslash]
  have hstop : ∀ c ∈ (n.attributes.flatMap attributeText ++ (close ++ rest)).head?,
      Name.isPart c = false := by
    cases n.attributes with
    | nil => exact hclose
    | cons a attributes =>
      rw [List.flatMap_cons, List.append_assoc, attributeText_append]
      simp
      decide
  rw [Event.read, hopen]
  simp only
  rw [Event.readStartTag, h.name.read?_eq rfl hstop]
  simp only [Place.past_rest]
  rw [splitTag?_attributes h.attribute_names, hsplit]
  simp only [Option.map_some, hevent]
  exact ⟨_, rfl, rfl⟩

theorem Tagged.readsAs_start (h : Tagged n) (rest : List Char) :
    ReadsAs (openText n ++ ['>']) [.startTag n.name n.attributes] rest :=
  h.readsAs (by simp; decide) rfl fun offset => by rw [List.append_nil, h.ofTag_start]

theorem Tagged.readsAs_empty (h : Tagged n) (rest : List Char) :
    ReadsAs (openText n ++ "/>".toList) [.emptyTag n.name n.attributes] rest :=
  h.readsAs (by simp; decide) rfl h.ofTag_empty

end Tags

end MarkupPath.Tree
