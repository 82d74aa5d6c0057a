import MarkupPath.Markup.Event

/-!
# Reading events

`Event.read` reads the event that stands at a place of a text, told by the characters it opens with,
and `transcript` reads a whole text. Each event takes a nonempty part of the text and the parts join
without a gap; `Event.before_of_read` says so, and by it reading comes to an end.
-/

set_option autoImplicit false

namespace MarkupPath.Markup

open MarkupPath.Text

/-! ## Openings -/

/-- The kinds of markup, told by their first characters. -/
inductive Opening where
  | comment
  | cdata
  | doctype
  | instruction
  | endTag
  | startTag
  deriving DecidableEq, Repr

/-- The characters that open each kind of markup; of two that fit the earlier one counts. -/
def openings : List (String × Opening) :=
  [("<!--", .comment), ("<![CDATA[", .cdata), ("<!DOCTYPE", .doctype), ("<?", .instruction),
    ("</", .endTag), ("<", .startTag)]

/-- The markup that opens at `p`, and the place behind its opening characters. -/
def opening? (p : Place) : Option (Opening × Place) :=
  openings.findSome? fun entry => (p.after? entry.1.toList).map fun q => (entry.2, q)

namespace Event

/-! ## Pieces of markup -/

/-- An event with one content from `inside` up to `close`; without a close, `fault` shows at the
start of the event. -/
def readDelimited (start : Nat) (inside : Place) (close : String) (fault : ReadFault)
    (event : String → Event) : Except ReadError (Event × Place) :=
  match inside.cut? close.toList with
  | some (content, q) => .ok (event (String.ofList content), q)
  | none => .error ⟨fault, start⟩

/-- The text up to the first `>` that is not in brackets, that one included, and the rest. Brackets
nest to the given depth, and a closing one too many is ignored. -/
def splitDoctype? : Nat → List Char → Option (List Char × List Char)
  | _, [] => none
  | depth, c :: rest =>
      if c == '>' && depth == 0 then some ([c], rest)
      else
        let depth := if c == '[' then depth + 1 else if c == ']' then depth - 1 else depth
        (splitDoctype? depth rest).map fun halves => (c :: halves.1, halves.2)

/-- A document type declaration, whose content is kept with its delimiters. -/
def readDoctype (start : Nat) (inside : Place) : Except ReadError (Event × Place) :=
  match splitDoctype? 0 inside.rest with
  | some (content, rest) =>
      .ok (.doctype ("<!DOCTYPE" ++ String.ofList content), inside.past content rest)
  | none => .error ⟨.openDoctype, start⟩

/-- A processing instruction, or the declaration of the document if its target is `xml` in any mix
of cases. -/
def readInstruction (start : Nat) (inside : Place) : Except ReadError (Event × Place) :=
  match Name.read? inside with
  | none => .error ⟨.instructionTarget, start⟩
  | some (target, q) =>
      match q.cut? "?>".toList with
      | none => .error ⟨.openInstruction, start⟩
      | some (content, r) =>
          if target.map Char.toLower == "xml".toList then .ok (.declaration, r)
          else
            let data := trim content
            .ok (.instruction (String.ofList target)
              (if data.isEmpty then none else some (String.ofList data)), r)

/-- An end tag: a name and optional blanks. -/
def readEndTag (inside : Place) : Except ReadError (Event × Place) :=
  match Name.read? inside with
  | none => .error ⟨.endTagName, inside.offset⟩
  | some (name, q) =>
      let q := q.skipWhile isMarkupBlank
      match q.after? ['>'] with
      | none => .error ⟨.openEndTag, q.offset⟩
      | some r => .ok (.endTag (String.ofList name), r)

/-- The quote that is open behind `c`, given the one that is open before it. -/
def openQuote (quote : Option Char) (c : Char) : Option Char :=
  match quote with
  | none => if c == '"' || c == '\'' then some c else none
  | some mark => if mark == c then none else some mark

/-- The text up to the first `>` outside quotes, and the text behind it. -/
def splitTag? : Option Char → List Char → Option (List Char × List Char)
  | _, [] => none
  | quote, c :: rest =>
      if quote.isNone && c == '>' then some ([], rest)
      else (splitTag? (openQuote quote c) rest).map fun halves => (c :: halves.1, halves.2)

/-- The event of a tag with a name and the content between that name and the closing `>`, which
starts at the byte `offset`: attributes set off by a blank, then a slash if the element is empty. -/
def ofTag (name content : List Char) (offset : Nat) : Except ReadError Event :=
  -- the slash counts even where an unquoted value would end with it
  let empty := content.getLast? == some '/'
  let listed := if empty then content.dropLast else content
  if listed.head?.any fun c => !isAsciiBlank c then .error ⟨.nameCharacter, offset⟩
  else
    match Attribute.list listed with
    | .error e => .error ⟨.attribute e.fault, offset + e.offset⟩
    | .ok attributes =>
        let name := String.ofList name
        .ok (if empty then .emptyTag name attributes else .startTag name attributes)

/-- A tag that opens an element, up to the first `>` outside quotes. -/
def readStartTag (start : Nat) (inside : Place) : Except ReadError (Event × Place) :=
  match Name.read? inside with
  | none => .error ⟨.startTagName, inside.offset⟩
  | some (name, q) =>
      match splitTag? none q.rest with
      | none => .error ⟨.openTag, start⟩
      | some (content, rest) =>
          match ofTag name content q.offset with
          | .error e => .error e
          | .ok event => .ok (event, q.past (content ++ ['>']) rest)

/-! ## Whole texts -/

/-- The event that stands at `p`, and the place behind it. -/
def read (p : Place) : Except ReadError (Event × Place) :=
  match opening? p with
  | none =>
      .ok (.text (String.ofList (Reference.expand (p.rest.takeWhile (· != '<')))),
        p.skipWhile (· != '<'))
  | some (.comment, q) => readDelimited p.offset q "-->" .openComment .comment
  | some (.cdata, q) => readDelimited p.offset q "]]>" .openCData .cdata
  | some (.doctype, q) => readDoctype p.offset q
  | some (.instruction, q) => readInstruction p.offset q
  | some (.endTag, q) => readEndTag q
  | some (.startTag, q) => readStartTag p.offset q

/-- What is read up to a closing mark is the text in front of the place behind it. -/
theorem before_of_readDelimited {start : Nat} {inside q : Place} {close : String}
    {fault : ReadFault} {event : String → Event} {e : Event}
    (h : readDelimited start inside close fault event = .ok (e, q)) :
    ∃ taken, inside.Before taken q := by
  unfold readDelimited at h
  split at h
  · next hcut =>
      cases h
      exact ⟨_, Place.before_of_cut? hcut⟩
  · cases h

/-- The split takes nothing away. -/
theorem append_of_splitDoctype? {depth : Nat} {text content rest : List Char}
    (h : splitDoctype? depth text = some (content, rest)) : content ++ rest = text := by
  induction text generalizing depth content rest with
  | nil => cases h
  | cons c text ih =>
      simp only [splitDoctype?] at h
      split at h
      · cases h
        rfl
      · obtain ⟨⟨before, after⟩, hsplit, heq⟩ := Option.map_eq_some_iff.1 h
        cases heq
        simp [ih hsplit]

theorem before_of_readDoctype {start : Nat} {inside q : Place} {e : Event}
    (h : readDoctype start inside = .ok (e, q)) : ∃ taken, inside.Before taken q := by
  unfold readDoctype at h
  split at h
  · next hsplit =>
      cases h
      exact ⟨_, Place.before_past (append_of_splitDoctype? hsplit).symm⟩
  · cases h

theorem before_of_readInstruction {start : Nat} {inside q : Place} {e : Event}
    (h : readInstruction start inside = .ok (e, q)) : ∃ taken, inside.Before taken q := by
  unfold readInstruction at h
  split at h
  · cases h
  · next hname =>
      split at h
      · cases h
      · next hcut =>
          have := (Name.before_of_read? hname).trans (Place.before_of_cut? hcut)
          split at h <;> (cases h; exact ⟨_, this⟩)

theorem before_of_readEndTag {inside q : Place} {e : Event}
    (h : readEndTag inside = .ok (e, q)) : ∃ taken, inside.Before taken q := by
  unfold readEndTag at h
  split at h
  · cases h
  · next hname =>
      simp only at h
      split at h
      · cases h
      · next hafter =>
          cases h
          exact ⟨_, (Name.before_of_read? hname).trans
            ((Place.before_skipWhile _ _).trans (Place.before_of_after? hafter))⟩

/-- The split takes away the `>` alone. -/
theorem append_of_splitTag? {quote : Option Char} {text content rest : List Char}
    (h : splitTag? quote text = some (content, rest)) : content ++ '>' :: rest = text := by
  induction text generalizing quote content rest with
  | nil => cases h
  | cons c text ih =>
      simp only [splitTag?] at h
      split at h
      · next hc =>
          cases h
          simp_all
      · obtain ⟨⟨before, after⟩, hsplit, heq⟩ := Option.map_eq_some_iff.1 h
        cases heq
        simp [ih hsplit]

theorem before_of_readStartTag {start : Nat} {inside q : Place} {e : Event}
    (h : readStartTag start inside = .ok (e, q)) : ∃ taken, inside.Before taken q := by
  unfold readStartTag at h
  split at h
  · cases h
  · next hname =>
      split at h
      · cases h
      · next hsplit =>
          split at h
          · cases h
          · cases h
            exact ⟨_, (Name.before_of_read? hname).trans
              (Place.before_past (by simp [append_of_splitTag? hsplit]))⟩

/-- Markup opens with at least one character. -/
theorem before_of_opening? {p q : Place} {opening : Opening}
    (h : opening? p = some (opening, q)) : ∃ mark, p.Before mark q ∧ mark ≠ [] := by
  obtain ⟨entry, hentry, hmark⟩ := List.exists_of_findSome?_eq_some h
  obtain ⟨q', hafter, heq⟩ := Option.map_eq_some_iff.1 hmark
  cases heq
  refine ⟨_, Place.before_of_after? hafter, ?_⟩
  simp only [openings, List.mem_cons, List.not_mem_nil, or_false] at hentry
  rcases hentry with rfl | rfl | rfl | rfl | rfl | rfl <;> simp

/-- Where no markup opens, the text does not go on with `<`. -/
theorem head_ne_of_opening?_eq_none {p : Place} (h : opening? p = none) :
    ∀ c ∈ p.rest.head?, c ≠ '<' := by
  intro c hc heq
  subst heq
  have := List.findSome?_eq_none_iff.1 h ("<", .startTag) (by simp [openings])
  cases hrest : p.rest with
  | nil => simp [hrest] at hc
  | cons d rest =>
      simp only [hrest, List.head?_cons, Option.mem_def, Option.some.injEq] at hc
      simp [Place.after?, Text.after?, hrest, hc] at this

theorem before_of_opened {p inside q : Place} {opening : Opening}
    (hopen : opening? p = some (opening, inside)) (h : ∃ taken, inside.Before taken q) :
    ∃ taken, p.Before taken q ∧ taken ≠ [] := by
  obtain ⟨mark, hmark, hne⟩ := before_of_opening? hopen
  obtain ⟨taken, htaken⟩ := h
  exact ⟨_, hmark.trans htaken, by simp [hne]⟩

/-- An event takes a nonempty part of the text. -/
theorem before_of_read {p q : Place} {e : Event} (h : read p = .ok (e, q)) (hp : p.rest ≠ []) :
    ∃ taken, p.Before taken q ∧ taken ≠ [] := by
  unfold read at h
  split at h
  · next hopen =>
      cases h
      refine ⟨_, Place.before_skipWhile _ _, ?_⟩
      cases hrest : p.rest with
      | nil => exact absurd hrest hp
      | cons c rest =>
          have := head_ne_of_opening?_eq_none hopen c (by simp [hrest])
          simp [this]
  · next hopen => exact before_of_opened hopen (before_of_readDelimited h)
  · next hopen => exact before_of_opened hopen (before_of_readDelimited h)
  · next hopen => exact before_of_opened hopen (before_of_readDoctype h)
  · next hopen => exact before_of_opened hopen (before_of_readInstruction h)
  · next hopen => exact before_of_opened hopen (before_of_readEndTag h)
  · next hopen => exact before_of_opened hopen (before_of_readStartTag h)

theorem length_of_read {p q : Place} {e : Event} (h : read p = .ok (e, q)) (hp : p.rest ≠ []) :
    q.rest.length < p.rest.length := by
  obtain ⟨taken, hbefore, hne⟩ := before_of_read h hp
  have := hbefore.length
  have := List.length_pos_iff.2 hne
  omega

end Event

/-- The events from a place to the end of the text. -/
def transcriptFrom (p : Place) : Transcript :=
  if _hp : p.rest = [] then ⟨[], none⟩
  else
    match _h : Event.read p with
    | .error e => ⟨[], some e⟩
    | .ok (event, q) =>
        let later := transcriptFrom q
        ⟨⟨event, p.offset, q.offset⟩ :: later.events, later.failure⟩
termination_by p.rest.length
decreasing_by exact Event.length_of_read _h _hp

theorem transcriptFrom_of_end {p : Place} (hrest : p.rest = []) :
    transcriptFrom p = ⟨[], none⟩ := by
  rw [transcriptFrom, dif_pos hrest]

theorem transcriptFrom_of_error {p : Place} {e : ReadError} (hrest : p.rest ≠ [])
    (hread : Event.read p = .error e) : transcriptFrom p = ⟨[], some e⟩ := by
  rw [transcriptFrom, dif_neg hrest]
  split <;> simp_all

theorem transcriptFrom_of_ok {p q : Place} {e : Event} (hrest : p.rest ≠ [])
    (hread : Event.read p = .ok (e, q)) :
    transcriptFrom p =
      ⟨⟨e, p.offset, q.offset⟩ :: (transcriptFrom q).events, (transcriptFrom q).failure⟩ := by
  rw [transcriptFrom, dif_neg hrest]
  split <;> simp_all

/-- The events of a text. -/
def transcript (text : List Char) : Transcript := transcriptFrom (Place.start text)

end MarkupPath.Markup
