import MarkupPath.Proofs.Markup.AttributeList

/-!
# Reading bytes is safe

A call at a place of a text does what is done there among its characters: it reads the event that
stands at the place and goes to the place behind it, or finds the same fault (`ends_nextEvent`). By
induction on the calls a session follows the transcript of its text (`follows_sessionFrom`), whose
events join without a gap, each of them not empty (`tiles_transcriptFrom`). So, by `safe_session`,
the reader never leaves the boundaries of a text, not even in one that is malformed or cut short,
and it comes to an end.
-/

set_option autoImplicit false

namespace MarkupPath.Markup.Reader

open MarkupPath.Text Run

variable {text mark : List Char} {p inside : Place}

/-- An event and the cursor of a text that stands behind it. -/
def landed (text : List Char) (found : Event × Place) : Event × Cursor :=
  (found.1, ⟨text, found.2.offset⟩)

/-- Comments, sections and the like: the byte search for the closing mark ends where the split of
the characters does. -/
theorem ends_readDelimited (hp : p.In text) (hopen : p.Before mark inside) {close : String}
    (hne : close.toList ≠ []) (hclose : IsAscii close.toList) (fault : ReadFault)
    (event : String → Event) :
    Ends (readDelimited ⟨text, p.offset⟩ p.offset (byteLength mark) close fault event)
      ((Event.readDelimited p.offset inside close fault event).map (landed text)) := by
  have hinside := hp.of_before hopen
  refine (ends_hold_advance hp hopen).bind ?_
  refine (ends_find hinside hne hclose).bind ?_
  rw [Event.readDelimited, Place.cut?]
  cases hcut : cut? close.toList inside.rest with
  | none => exact .fail _
  | some halves =>
      obtain ⟨content, rest⟩ := halves
      have hrest : inside.rest = content ++ (close.toList ++ rest) := by
        rw [← List.append_assoc, append_of_cut? hcut]
      have hcontent := Place.before_past hrest
      have hclosing := inside.before_past_append content close.toList rest
      rw [← hopen.2]
      refine (ends_slice hinside hcontent).bind ?_
      exact (ends_hold_seek_add (hinside.of_before hcontent) hclosing _).bind (.pure _)

/-- The loop over the bytes of a declaration counts brackets as the one over characters. -/
theorem ends_readDoctype (hp : p.In text) (hopen : p.Before "<!DOCTYPE".toList inside) :
    Ends (readDoctype ⟨text, p.offset⟩ p.offset)
      ((Event.readDoctype p.offset inside).map (landed text)) := by
  have hinside := hp.of_before hopen
  have hoffset : inside.offset = p.offset + 9 := hopen.2
  have hstop := stopIndex?_doctypeStep 0 inside.rest
  rw [readDoctype, ← hoffset, hinside.drop_utf8, Event.readDoctype]
  cases hsplit : Event.splitDoctype? 0 inside.rest with
  | none =>
      rw [hsplit, Option.map_none, Option.map_eq_none_iff] at hstop
      rw [hstop]
      exact .fail _
  | some halves =>
      obtain ⟨content, rest⟩ := halves
      rw [hsplit, Option.map_some] at hstop
      obtain ⟨i, hi, hlength⟩ := Option.map_eq_some_iff.1 hstop
      have hcontent : inside.Before content (inside.past content rest) :=
        Place.before_past (Event.append_of_splitDoctype? hsplit).symm
      have hwhole := hopen.trans hcontent
      have hbehind : inside.offset + i + 1 = (inside.past content rest).offset :=
        congrArg (inside.offset + ·) hlength
      rw [hi]
      dsimp only
      rw [hbehind]
      refine (ends_hold_seek (hinside.of_before hcontent) _).bind ?_
      refine (ends_slice hp hwhole).bind ?_
      rw [String.ofList_append]
      exact .pure _

/-- An instruction ends at its mark; what stands between the target and the mark is a slice of the
text. -/
theorem ends_readInstruction (hp : p.In text) (hopen : p.Before "<?".toList inside) :
    Ends (readInstruction ⟨text, p.offset⟩ p.offset)
      ((Event.readInstruction p.offset inside).map (landed text)) := by
  have hinside := hp.of_before hopen
  refine (ends_hold_advance hp hopen).bind ?_
  refine (ends_readName hinside).bind ?_
  rw [Event.readInstruction]
  cases hname : Name.read? inside with
  | none => exact .fail _
  | some found =>
      obtain ⟨target, q⟩ := found
      have hq := hinside.of_before (Name.before_of_read? hname)
      refine (ends_find hq (by decide) (by decide)).bind ?_
      dsimp only
      rw [Place.cut?]
      cases hcut : cut? "?>".toList q.rest with
      | none => exact .fail _
      | some halves =>
          obtain ⟨content, rest⟩ := halves
          have hrest : q.rest = content ++ ("?>".toList ++ rest) := by
            rw [← List.append_assoc, append_of_cut? hcut]
          have hcontent := Place.before_past hrest
          have hclosing := q.before_past_append content "?>".toList rest
          refine (ends_slice hq hcontent).bind ?_
          refine (ends_hold_seek_add (hq.of_before hcontent) hclosing _).bind ?_
          split <;> exact .pure _

/-- An end tag takes blanks behind its name and nothing else. -/
theorem ends_readEndTag (hp : p.In text) (hopen : p.Before "</".toList inside) :
    Ends (readEndTag ⟨text, p.offset⟩) ((Event.readEndTag inside).map (landed text)) := by
  have hinside := hp.of_before hopen
  refine (ends_hold_advance hp hopen).bind ?_
  refine (ends_readName hinside).bind ?_
  rw [Event.readEndTag]
  cases hname : Name.read? inside with
  | none => exact .fail _
  | some found =>
      obtain ⟨name, q⟩ := found
      have hq := hinside.of_before (Name.before_of_read? hname)
      have hclose := hq.of_before (Place.before_skipWhile isMarkupBlank q)
      refine (ends_skipBlanks hq).bind ?_
      rw [Cursor.peek_bne hclose (by decide)]
      dsimp only
      cases hafter : (q.skipWhile isMarkupBlank).after? ['>'] with
      | none => exact .fail _
      | some r =>
          have hbehind := Place.before_of_after? hafter
          exact (ends_hold_advance hclose hbehind).bind (.pure _)

/-- The byte before the end of a tag is a slash if the last character is one. -/
theorem ends_endsWithSlash {ε : Type} (hp : p.In text) {content : List Char} {q : Place}
    (hpq : p.Before content q) : Ends (ε := ε) (endsWithSlash text p.offset q.offset)
      (.ok (content.getLast? == some '/')) := by
  obtain ⟨before, htext, hoffset⟩ := hp.eq_append
  rcases List.eq_nil_or_concat content with rfl | ⟨init, c, rfl⟩
  · rw [endsWithSlash, hpq.2, byteLength_nil, Nat.add_zero, if_neg (Nat.lt_irrefl _)]
    exact .pure _
  · have hlt : p.offset < q.offset := by
      have hpos := c.utf8Size_pos
      rw [hpq.2, List.concat_eq_append, byteLength_append, byteLength_cons]
      omega
    -- the byte before `q` need not be a character, but a byte of one tells if that is a slash
    obtain ⟨b, hb, hbyte⟩ := exists_getElem?_utf8_sub_one (before ++ init) c q.rest
    have hstop : byteLength (before ++ init ++ [c]) = q.offset := by
      rw [hpq.2, hoffset, List.concat_eq_append, List.append_assoc, byteLength_append]
    have hwhole : before ++ init ++ [c] ++ q.rest = text := by
      rw [htext, hpq.1, List.concat_eq_append]
      simp only [List.append_assoc]
    rw [hstop, hwhole] at hbyte
    rw [endsWithSlash, if_pos hlt, hbyte, List.concat_eq_append, List.getLast?_concat,
      Option.some_beq_some, ← beq_of_mem_utf8EncodeChar hb (by decide)]
    exact (Ends.unwrap b).bind (.pure _)

/-- The content of a tag without its slash. -/
theorem exists_listed {content : List Char} {q : Place} (hpq : p.Before content q) :
    ∃ r, p.Before (if content.getLast? == some '/' then content.dropLast else content) r ∧
      r.offset = if content.getLast? == some '/' then q.offset - 1 else q.offset := by
  by_cases hslash : content.getLast? = some '/'
  · obtain ⟨init, rfl⟩ := List.getLast?_eq_some_iff.1 hslash
    rw [if_pos (beq_iff_eq.2 hslash), if_pos (beq_iff_eq.2 hslash), List.dropLast_concat]
    refine ⟨p.past init ('/' :: q.rest), Place.before_past ?_, ?_⟩
    · rw [hpq.1, List.append_assoc, List.singleton_append]
    · rw [hpq.2, byteLength_append]
      rfl
  · rw [if_neg (by simpa using hslash), if_neg (by simpa using hslash)]
    exact ⟨q, hpq, rfl⟩

/-- A start tag: its name, then its end, then the attributes from the slice between them. -/
theorem ends_readStartTag (hp : p.In text) (hopen : p.Before "<".toList inside) :
    Ends (readStartTag ⟨text, p.offset⟩ p.offset)
      ((Event.readStartTag p.offset inside).map (landed text)) := by
  have hinside := hp.of_before hopen
  refine (ends_hold_advance hp hopen).bind ?_
  refine (ends_readName hinside).bind ?_
  rw [Event.readStartTag]
  cases hname : Name.read? inside with
  | none => exact .fail _
  | some found =>
      obtain ⟨name, q⟩ := found
      have hq := hinside.of_before (Name.before_of_read? hname)
      refine (ends_findTagEnd hq).bind ?_
      dsimp only
      cases hsplit : Event.splitTag? none q.rest with
      | none => exact .fail _
      | some halves =>
          obtain ⟨content, rest⟩ := halves
          have hrest : q.rest = content ++ (['>'] ++ rest) :=
            (Event.append_of_splitTag? hsplit).symm
          have hcontent := Place.before_past hrest
          have hclosing := q.before_past_append content ['>'] rest
          obtain ⟨r, hlisted, hr⟩ := exists_listed hcontent
          refine (ends_endsWithSlash hq hcontent).bind ?_
          have hslice := ends_slice (ε := ReadError) hq hlisted
          rw [hr] at hslice
          refine hslice.bind ?_
          simp only [Event.ofTag]
          generalize (if content.getLast? == some '/' then content.dropLast else content) = listed
          split
          · exact .fail _
          · have hattributes := (ends_readAttributes listed).mapFault fun e =>
              ReadError.mk (.attribute e.fault) (q.offset + e.offset)
            cases hlist : Attribute.list listed with
            | error e =>
                rw [hlist] at hattributes
                exact hattributes.bind_error
            | ok attributes =>
                rw [hlist] at hattributes
                refine hattributes.bind ?_
                exact (ends_hold_seek_add (hq.of_before hcontent) hclosing _).bind (.pure _)

/-- Where no `<` stands, no markup opens. -/
theorem opening?_eq_none (h : p.after? ['<'] = none) : opening? p = none := by
  have hrest : Text.after? ['<'] p.rest = none := Option.map_eq_none_iff.1 h
  have hmark : ∀ mark, Text.after? ('<' :: mark) p.rest = none := by
    intro mark
    cases hcs : p.rest with
    | nil => rfl
    | cons c rest =>
        rw [hcs, Text.after?, Text.after?] at hrest
        rw [Text.after?]
        split
        · next hc => rw [if_pos hc] at hrest; cases hrest
        · rfl
  refine List.findSome?_eq_none_iff.2 ?_
  simp only [openings, List.forall_mem_cons, Option.map_eq_none_iff, Place.after?]
  exact ⟨hmark _, hmark _, hmark _, hmark _, hmark _, hmark _, List.forall_mem_nil _⟩

theorem ends_readText (hp : p.In text) (htag : p.after? ['<'] = none) :
    Ends (readText ⟨text, p.offset⟩) ((Event.read p).map (landed text)) := by
  have hcontent := Place.before_skipWhile (· != '<') p
  rw [Event.read, opening?_eq_none htag]
  refine (ends_nextMarkup hp).bind ?_
  refine (ends_hold_seek (hp.of_before hcontent) _).bind ?_
  refine (ends_slice hp hcontent).bind ?_
  exact (ends_expand _).bind (.pure _)

/-- A program that goes two ways, depending on how the text goes on. -/
theorem ends_startsWith_ite {ε α : Type} (hp : p.In text) (mark : String) {m m' : Run ε α}
    {outcome : Except ε α} (hyes : ∀ inside, p.after? mark.toList = some inside → m.Ends outcome)
    (hno : p.after? mark.toList = none → m'.Ends outcome) :
    Ends (startsWith ⟨text, p.offset⟩ mark >>= fun found => if found = true then m else m')
      outcome := by
  refine (ends_startsWith hp mark).bind ?_
  cases hafter : p.after? mark.toList with
  | some inside => exact hyes inside hafter
  | none => exact hno hafter

/-- The next bytes tell which kind of markup it is, in the order in which they are compared. -/
theorem ends_readMarkup (hp : p.In text) (htag : p.after? ['<'] = some inside) :
    Ends (readMarkup ⟨text, p.offset⟩) ((Event.read p).map (landed text)) := by
  have htag' : p.after? "<".toList = some inside := htag
  -- in order, the openings are tried at which the model looks for the first that fits
  rw [Event.read, opening?]
  refine ends_startsWith_ite hp _ (fun inside h₁ => ?_) fun h₁ => ?_
  · simp only [openings, List.findSome?_cons, h₁, Option.map_some]
    exact ends_readDelimited hp (Place.before_of_after? h₁) (by decide) (by decide) _ _
  refine ends_startsWith_ite hp _ (fun inside h₂ => ?_) fun h₂ => ?_
  · simp only [openings, List.findSome?_cons, h₁, h₂, Option.map_some, Option.map_none]
    exact ends_readDelimited hp (Place.before_of_after? h₂) (by decide) (by decide) _ _
  refine ends_startsWith_ite hp _ (fun inside h₃ => ?_) fun h₃ => ?_
  · simp only [openings, List.findSome?_cons, h₁, h₂, h₃, Option.map_some, Option.map_none]
    exact ends_readDoctype hp (Place.before_of_after? h₃)
  refine ends_startsWith_ite hp _ (fun inside h₄ => ?_) fun h₄ => ?_
  · simp only [openings, List.findSome?_cons, h₁, h₂, h₃, h₄, Option.map_some, Option.map_none]
    exact ends_readInstruction hp (Place.before_of_after? h₄)
  refine ends_startsWith_ite hp _ (fun inside h₅ => ?_) fun h₅ => ?_
  · simp only [openings, List.findSome?_cons, h₁, h₂, h₃, h₄, h₅, Option.map_some,
      Option.map_none]
    exact ends_readEndTag hp (Place.before_of_after? h₅)
  · simp only [openings, List.findSome?_cons, h₁, h₂, h₃, h₄, h₅, htag', Option.map_some,
      Option.map_none]
    exact ends_readStartTag hp (Place.before_of_after? htag')

/-- The reader reads the event that stands at its place, and with the same fault fails to. -/
theorem ends_readEvent (hp : p.In text) :
    Ends (readEvent ⟨text, p.offset⟩) ((Event.read p).map (landed text)) := by
  rw [readEvent, Cursor.peek_bne hp (by decide)]
  cases htag : p.after? ['<'] with
  | none => exact ends_readText hp htag
  | some inside => exact ends_readMarkup hp htag

theorem ends_nextEvent_of_end (hp : p.In text) (hrest : p.rest = []) :
    Ends (nextEvent ⟨text, p.offset⟩) (.ok (none, ⟨text, p.offset⟩)) := by
  rw [nextEvent, Cursor.isAtEnd_of_in hp, if_pos (by simpa using hrest)]
  exact .pure _

/-- An event is text up to the next markup, or markup; either way the cursor stops where the
characters say. -/
theorem ends_nextEvent (hp : p.In text) (hrest : p.rest ≠ []) :
    Ends (nextEvent ⟨text, p.offset⟩) ((Event.read p).map fun found =>
      (some found.1, ⟨text, found.2.offset⟩)) := by
  have hread := ends_readEvent hp
  rw [nextEvent, Cursor.isAtEnd_of_in hp, if_neg (by simpa using hrest)]
  cases hevent : Event.read p with
  | error e =>
      rw [hevent] at hread
      exact hread.bind_error
  | ok found =>
      rw [hevent] at hread
      exact hread.bind (.pure _)

/-! ## Spans -/

/-- The spans of events join from one byte to another, and none is empty. -/
def Tiles : Nat → List Located → Nat → Prop
  | start, [], stop => start = stop
  | start, e :: events, stop => e.start = start ∧ e.start < e.stop ∧ Tiles e.stop events stop

/-- Each event takes a byte at least. -/
theorem Tiles.add_length_le {start stop : Nat} {events : List Located}
    (h : Tiles start events stop) : start + events.length ≤ stop := by
  induction events generalizing start with
  | nil => exact Nat.le_of_eq h
  | cons e events ih =>
      obtain ⟨rfl, hlt, hlater⟩ := h
      have hle := ih hlater
      rw [List.length_cons]
      omega

/-- The first events of a tiling tile a first part of the text. -/
theorem Tiles.take {start stop : Nat} {events : List Located} (h : Tiles start events stop)
    (count : Nat) : ∃ stop' ≤ stop, Tiles start (events.take count) stop' := by
  induction events generalizing start count with
  | nil => exact ⟨stop, Nat.le_refl _, by rwa [List.take_nil]⟩
  | cons e events ih =>
      cases count with
      | zero => exact ⟨start, Nat.le_trans (Nat.le_add_right _ _) h.add_length_le, rfl⟩
      | succ count =>
          obtain ⟨hstart, hlt, hlater⟩ := h
          obtain ⟨stop', hle, htiles⟩ := ih hlater count
          exact ⟨stop', hle, hstart, hlt, htiles⟩

/-- The events from a place on join, and reach the end of the text if no fault comes between. -/
theorem tiles_transcriptFrom (hp : p.In text) :
    ∃ stop ≤ byteLength text, Tiles p.offset (transcriptFrom p).events stop ∧
      ((transcriptFrom p).failure = none → stop = byteLength text) := by
  fun_induction transcriptFrom p with
  | case1 p hend =>
      exact ⟨p.offset, hp.offset_le, rfl, fun _ => hp.offset_eq_of_end hend⟩
  | case2 p hrest e hread => exact ⟨p.offset, hp.offset_le, rfl, fun h => nomatch h⟩
  | case3 p hrest event q hread later ih =>
      obtain ⟨taken, hbefore, hne⟩ := Event.before_of_read hread hrest
      obtain ⟨stop, hle, htiles, hstop⟩ := ih (hp.of_before hbefore)
      refine ⟨stop, hle, ⟨rfl, ?_, htiles⟩, hstop⟩
      have htaken := List.length_pos_iff.2 hne
      have hbytes := length_le_byteLength taken
      have hoffset := hbefore.2
      dsimp only
      omega

/-! ## Sessions -/

/-- How a session ends whose calls suffice. -/
def endingOf (text : List Char) : Option ReadError → Ending
  | none => .atEnd (byteLength text)
  | some e => .halted (.fault e)

/-- The session gives the events of a transcript as far as its calls suffice, and on the way does
with positions nothing but what is fine. -/
structure Session.Follows (s : Session) (text : List Char) (calls : Nat) (t : Transcript) :
    Prop where
  fine : ∀ access ∈ s.accesses, access.Fine
  events_eq : s.events = t.events.take calls
  ending_eq : s.ending = if t.events.length < calls then endingOf text t.failure else .more

/-- A call at a place gives the event that the transcript from there begins with. -/
theorem follows_sessionFrom (hp : p.In text) (calls : Nat) :
    (sessionFrom calls ⟨text, p.offset⟩).Follows text calls (transcriptFrom p) := by
  have hhere : ∀ {q : Place}, q.In text → (Access.position text q.offset).Fine :=
    fun hq => ⟨hq.offset_le, hq.isBoundary⟩
  induction calls generalizing p with
  | zero => exact ⟨List.forall_mem_singleton.2 (hhere hp), rfl, rfl⟩
  | succ calls ih =>
      -- the session and the transcript make the same three-way choice at a place
      rw [sessionFrom]
      by_cases hrest : p.rest = []
      · obtain ⟨hfine, hresult⟩ := ends_nextEvent_of_end hp hrest
        rw [transcriptFrom_of_end hrest]
        simp only [hresult, Except.mapError]
        refine ⟨List.forall_mem_cons.2 ⟨hhere hp, hfine⟩, rfl, ?_⟩
        rw [hp.offset_eq_of_end hrest]
        exact (if_pos (Nat.succ_pos calls)).symm
      · obtain ⟨hfine, hresult⟩ := ends_nextEvent hp hrest
        cases hread : Event.read p with
        | error e =>
            rw [hread] at hresult
            rw [transcriptFrom_of_error hrest hread]
            simp only [hresult, Except.map, Except.mapError]
            exact ⟨List.forall_mem_cons.2 ⟨hhere hp, hfine⟩, rfl,
              (if_pos (Nat.succ_pos calls)).symm⟩
        | ok found =>
            obtain ⟨event, q⟩ := found
            obtain ⟨taken, hbefore, -⟩ := Event.before_of_read hread hrest
            obtain ⟨hlater, hevents, hending⟩ := ih (hp.of_before hbefore)
            rw [hread] at hresult
            rw [transcriptFrom_of_ok hrest hread]
            simp only [hresult, Except.map, Except.mapError]
            refine ⟨?_, ?_, ?_⟩
            · exact List.forall_mem_append.2
                ⟨List.forall_mem_cons.2 ⟨hhere hp, hfine⟩, hlater⟩
            · rw [List.take_succ_cons, hevents]
            · rw [hending, List.length_cons]
              exact if_congr (Nat.add_lt_add_iff_right).symm rfl rfl

/-- What is right with a session with a text. It holds boundaries only and takes slices between
boundaries, it neither panics nor loops for ever, the spans of its events join from the first byte
on, and it finds no further event only at the end of the text. -/
structure Session.Safe (s : Session) (text : List Char) : Prop where
  fine : ∀ access ∈ s.accesses, access.Fine
  not_panic : s.ending ≠ .halted .panic
  not_endless : s.ending ≠ .halted .endless
  tiles : ∃ stop ≤ byteLength text, Tiles 0 s.events stop
  tiles_of_atEnd : ∀ offset, s.ending = .atEnd offset →
    offset = byteLength text ∧ Tiles 0 s.events offset
  length_le : s.events.length ≤ byteLength text

namespace Session.Follows

variable {s : Session} {calls : Nat}

/-- A session only ends for lack of calls, at the end of the text or with a fault. -/
theorem ending_ne_halted {t : Transcript} (h : s.Follows text calls t) {why : Halt ReadError}
    (hwhy : ∀ e, why ≠ .fault e) : s.ending ≠ .halted why := by
  intro hending
  rw [h.ending_eq] at hending
  split at hending
  · cases hfailure : t.failure with
    | none =>
        rw [hfailure] at hending
        cases hending
    | some e =>
        rw [hfailure] at hending
        exact hwhy e (Ending.halted.inj hending).symm
  · cases hending

/-- A session that follows the transcript is safe: its events tile the text, and its cursor only
moves forward. -/
theorem safe (h : s.Follows text calls (transcript text)) : s.Safe text := by
  obtain ⟨stop, hstop, htiles, hend⟩ := tiles_transcriptFrom (Place.in_start text)
  obtain ⟨stop', hle, htaken⟩ := htiles.take calls
  have htaken' : Tiles 0 s.events stop' := h.events_eq ▸ htaken
  have hstop' := Nat.le_trans hle hstop
  refine ⟨h.fine, h.ending_ne_halted nofun, h.ending_ne_halted nofun, ⟨stop', hstop', htaken'⟩,
    fun offset hoffset => ?_, ?_⟩
  · rw [h.ending_eq] at hoffset
    split at hoffset
    · -- there were calls left, so these are all events of the text
      next hcalls =>
      cases hfailure : (transcript text).failure with
      | none =>
          rw [hfailure] at hoffset
          cases hoffset
          refine ⟨rfl, ?_⟩
          rw [h.events_eq, List.take_of_length_le (Nat.le_of_lt hcalls), ← hend hfailure]
          exact htiles
      | some e =>
          rw [hfailure] at hoffset
          cases hoffset
    · cases hoffset
  · have hlength := htaken'.add_length_le
    omega

end Session.Follows

/-- A text has at most as many events as bytes. -/
theorem length_events_le (text : List Char) :
    (transcript text).events.length ≤ byteLength text := by
  obtain ⟨stop, hstop, htiles, -⟩ := tiles_transcriptFrom (Place.in_start text)
  have hlength : 0 + (transcript text).events.length ≤ stop := htiles.add_length_le
  omega

/-- With more calls than bytes a session gives all events of the text, and its fault if it has
one. -/
theorem session_eq (text : List Char) {calls : Nat} (hcalls : byteLength text < calls) :
    (session calls text).events = (transcript text).events ∧
      (session calls text).ending = endingOf text (transcript text).failure := by
  have hfollows : (session calls text).Follows text calls (transcript text) :=
    follows_sessionFrom (Place.in_start text) calls
  have hlt := Nat.lt_of_le_of_lt (length_events_le text) hcalls
  exact ⟨hfollows.events_eq.trans (List.take_of_length_le (Nat.le_of_lt hlt)),
    hfollows.ending_eq.trans (if_pos hlt)⟩

/-- Every session with the reader is safe; and with more calls than bytes it comes to an end, with
the events of the text and its fault if it has one. -/
theorem safe_session (text : List Char) (calls : Nat) :
    (session calls text).Safe text ∧
      (byteLength text < calls → (session calls text).events = (transcript text).events ∧
        (session calls text).ending = endingOf text (transcript text).failure) := by
  have hfollows : (session calls text).Follows text calls (transcript text) :=
    follows_sessionFrom (Place.in_start text) calls
  exact ⟨hfollows.safe, session_eq text⟩

/-- The reader stops inside a tag, behind a name that ends with a character of two bytes. -/
example : (session 9 "é<a ü='ö".toList).ending = .halted (.fault ⟨.openTag, 2⟩) := by
  decide +kernel

end MarkupPath.Markup.Reader
