import MarkupPath.Markup.Event.Read

/-!
# Reading further on

Nothing that is read depends on how much text came before. At a place with more bytes before it the
readers find the same, and all positions that they tell, those of faults included, are further on by
that number of bytes (`Event.read_shift`). So a whole text has the same transcript further on
(`transcriptFrom_shift`), which is what is left of a longer text behind its first event
(`transcript_of_read`).
-/

set_option autoImplicit false

namespace MarkupPath.Text.Place

variable (count : Nat) (p : Place)

/-- The place with so many more bytes before it. -/
def shift : Place := ⟨p.offset + count, p.rest⟩

@[simp] theorem offset_shift : (p.shift count).offset = p.offset + count := rfl

@[simp] theorem rest_shift : (p.shift count).rest = p.rest := rfl

@[simp] theorem past_shift (taken rest : List Char) :
    (p.shift count).past taken rest = (p.past taken rest).shift count := by
  simp only [past, shift, Nat.add_right_comm]

@[simp] theorem skipWhile_shift (class? : Char → Bool) :
    (p.shift count).skipWhile class? = (p.skipWhile class?).shift count := by
  rw [skipWhile, skipWhile, past_shift, rest_shift]

@[simp] theorem after?_shift (mark : List Char) :
    (p.shift count).after? mark = (p.after? mark).map (shift count) := by
  rw [after?, after?, rest_shift, Option.map_map]
  exact congrArg (Option.map · _) (funext fun rest => p.past_shift count mark rest)

@[simp] theorem cut?_shift (mark : List Char) :
    (p.shift count).cut? mark = (p.cut? mark).map (Prod.map id (shift count)) := by
  rw [cut?, cut?, rest_shift, Option.map_map]
  refine congrArg (Option.map · _) (funext fun halves => ?_)
  rw [past_shift]
  rfl

end MarkupPath.Text.Place

namespace MarkupPath.Markup

open MarkupPath.Text

/-! ## Faults and events further on -/

section

variable (count : Nat)

/-- The error at a byte further on. -/
def ReadError.shift (e : ReadError) : ReadError := { e with offset := e.offset + count }

/-- The event at bytes further on. -/
def Located.shift (e : Located) : Located := ⟨e.event, e.start + count, e.stop + count⟩

/-- The transcript with all its positions further on. -/
def Transcript.shift (t : Transcript) : Transcript :=
  ⟨t.events.map (Located.shift count), t.failure.map (ReadError.shift count)⟩

variable {α β : Type}

/-- What is found further on: a fault shows there, and a value is moved. -/
def relocate (move : α → β) (m : Except ReadError α) : Except ReadError β :=
  (m.map move).mapError (ReadError.shift count)

@[simp] theorem relocate_ok (move : α → β) (a : α) :
    relocate count move (.ok a) = .ok (move a) := rfl

@[simp] theorem relocate_error (move : α → β) (e : ReadError) :
    relocate count move (.error e) = .error (e.shift count) := rfl

/-- What is found further on leads to what is found from it. -/
theorem relocate_bind {γ δ : Type} {move : α → β} {move' : γ → δ} {f : α → Except ReadError γ}
    {f' : β → Except ReadError δ} (m : Except ReadError α)
    (h : ∀ a, f' (move a) = relocate count move' (f a)) :
    (relocate count move m >>= f') = relocate count move' (m >>= f) := by
  cases m with
  | ok a => exact h a
  | error e => rfl

end

theorem Name.read?_shift (count : Nat) (p : Place) :
    Name.read? (p.shift count) = (Name.read? p).map (Prod.map id (Place.shift count)) := by
  rw [read?, read?, Place.rest_shift, Place.skipWhile_shift]
  split
  · rfl
  · split <;> rfl

/-! ## Readers further on -/

namespace Event

section

variable (count : Nat)

theorem readDelimited_shift (start : Nat) (inside : Place) (close : String) (fault : ReadFault)
    (event : String → Event) :
    readDelimited (start + count) (inside.shift count) close fault event =
      relocate count (Prod.map id (Place.shift count))
        (readDelimited start inside close fault event) := by
  rw [readDelimited, readDelimited, Place.cut?_shift]
  cases inside.cut? close.toList <;> rfl

theorem readDoctype_shift (start : Nat) (inside : Place) :
    readDoctype (start + count) (inside.shift count) =
      relocate count (Prod.map id (Place.shift count)) (readDoctype start inside) := by
  rw [readDoctype, readDoctype, Place.rest_shift]
  simp only [Place.past_shift]
  cases splitDoctype? 0 inside.rest <;> rfl

/-- An instruction is the same further on, offsets and faults included. -/
theorem readInstruction_shift (start : Nat) (inside : Place) :
    readInstruction (start + count) (inside.shift count) =
      relocate count (Prod.map id (Place.shift count)) (readInstruction start inside) := by
  rw [readInstruction, readInstruction, Name.read?_shift]
  cases Name.read? inside with
  | none => rfl
  | some found =>
    obtain ⟨target, q⟩ := found
    simp only [Option.map_some, Prod.map_apply, id, Place.cut?_shift]
    cases q.cut? "?>".toList with
    | none => rfl
    | some halves =>
      simp only [Option.map_some]
      split <;> rfl

theorem readEndTag_shift (inside : Place) :
    readEndTag (inside.shift count) =
      relocate count (Prod.map id (Place.shift count)) (readEndTag inside) := by
  rw [readEndTag, readEndTag, Name.read?_shift]
  cases Name.read? inside with
  | none => rfl
  | some found =>
    obtain ⟨name, q⟩ := found
    simp only [Option.map_some, Prod.map_apply, id, Place.skipWhile_shift, Place.after?_shift]
    cases (q.skipWhile isMarkupBlank).after? ['>'] <;> rfl

/-- The attributes of a tag are read from a text of their own, whose place enters only into the
offset of a fault. -/
theorem ofTag_shift (name content : List Char) (offset : Nat) :
    ofTag name content (offset + count) = relocate count id (ofTag name content offset) := by
  unfold ofTag
  extract_lets empty listed
  split
  · rfl
  · cases Attribute.list listed with
    | ok attributes => rfl
    | error e =>
      -- the list of attributes is read as a text of its own, and its faults are moved once more
      have hoffset := Nat.add_right_comm offset count e.offset
      exact congrArg (fun stop => Except.error (ReadError.mk (.attribute e.fault) stop)) hoffset

/-- A start tag is the same further on, with the offsets of its attributes. -/
theorem readStartTag_shift (start : Nat) (inside : Place) :
    readStartTag (start + count) (inside.shift count) =
      relocate count (Prod.map id (Place.shift count)) (readStartTag start inside) := by
  rw [readStartTag, readStartTag, Name.read?_shift]
  cases Name.read? inside with
  | none => rfl
  | some found =>
    obtain ⟨name, q⟩ := found
    simp only [Option.map_some, Prod.map_apply, id, Place.rest_shift, Place.offset_shift,
      Place.past_shift, ofTag_shift]
    cases splitTag? none q.rest with
    | none => rfl
    | some halves =>
      obtain ⟨content, rest⟩ := halves
      simp only
      cases ofTag name content q.offset <;> rfl

theorem opening?_shift (p : Place) :
    opening? (p.shift count) = (opening? p).map (Prod.map id (Place.shift count)) := by
  rw [opening?, opening?, List.map_findSome?]
  refine congrArg (List.findSome? · openings) (funext fun entry => ?_)
  simp only [Place.after?_shift, Function.comp, Option.map_map]
  rfl

/-- Further on the same event is read, or the same fault found. -/
theorem read_shift (p : Place) :
    read (p.shift count) = relocate count (Prod.map id (Place.shift count)) (read p) := by
  rw [read, read, opening?_shift]
  cases opening? p with
  | none => simp [Prod.map]
  | some found =>
    obtain ⟨opening, q⟩ := found
    cases opening with
    | comment => exact readDelimited_shift count p.offset q "-->" .openComment .comment
    | cdata => exact readDelimited_shift count p.offset q "]]>" .openCData .cdata
    | doctype => exact readDoctype_shift count p.offset q
    | instruction => exact readInstruction_shift count p.offset q
    | endTag => exact readEndTag_shift count q
    | startTag => exact readStartTag_shift count p.offset q

end

end Event

/-! ## Transcripts further on -/

/-- Further on a text has the same transcript, with all positions further on. -/
theorem transcriptFrom_shift (count : Nat) (p : Place) :
    transcriptFrom (p.shift count) = (transcriptFrom p).shift count := by
  induction p using transcriptFrom.induct with
  | case1 p hp =>
    rw [transcriptFrom_of_end hp, transcriptFrom_of_end (by simpa using hp)]
    rfl
  | case2 p hp e he =>
    have he' := Event.read_shift count p
    rw [he] at he'
    rw [transcriptFrom_of_error hp he, transcriptFrom_of_error (by simpa using hp) he']
    rfl
  | case3 p hp event q hq ih =>
    have hq' := Event.read_shift count p
    rw [hq] at hq'
    rw [transcriptFrom_of_ok hp hq, transcriptFrom_of_ok (by simpa using hp) hq', ih]
    rfl

/-- Behind its first event a text goes on as a text of its own, further on. -/
theorem transcript_of_read {first text : List Char} {event : Event} (hne : first ≠ [])
    (hread : Event.read (Place.start (first ++ text)) =
      .ok (event, (Place.start text).shift (byteLength first))) :
    transcript (first ++ text) =
      ⟨⟨event, 0, byteLength first⟩ :: ((transcript text).shift (byteLength first)).events,
        ((transcript text).shift (byteLength first)).failure⟩ := by
  have hrest : (Place.start (first ++ text)).rest ≠ [] := List.append_ne_nil_of_left_ne_nil hne _
  rw [transcript, transcriptFrom_of_ok hrest hread, transcriptFrom_shift, Place.offset_shift]
  simp [Place.start, transcript]

end MarkupPath.Markup
