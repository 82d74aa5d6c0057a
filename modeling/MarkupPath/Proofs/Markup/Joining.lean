import MarkupPath.Proofs.Markup.Reader
import MarkupPath.Proofs.Markup.Relocation
import MarkupPath.Proofs.Tree.Boundary

/-!
# Reading one text behind another

Where the events of a text end without a fault, any other text can stand behind it, and is read as
by itself, further on; only a text event has to be ended by a `<` (`transcript_append`). No event
looks behind its own end, so the induction is on the events of the first text, each of which is read
in front of what is left of it together with all of the second text (`read_followedBy`).

`reading_append` says this of the reader of bytes as well.
-/

set_option autoImplicit false

namespace MarkupPath.Text

/-- The place with more text behind what is left. -/
def Place.followedBy (p : Place) (more : List Char) : Place := ⟨p.offset, p.rest ++ more⟩

end MarkupPath.Text

namespace MarkupPath.Markup

open MarkupPath.Text

/-- The event is a stretch of text. -/
def Event.isText : Event → Bool
  | .text _ => true
  | _ => false

/-- The events of both transcripts, and the fault of the second one. -/
def Transcript.append (t later : Transcript) : Transcript :=
  ⟨t.events ++ later.events, later.failure⟩

instance : Append Transcript := ⟨Transcript.append⟩

/-- Text may stand behind the events: they do not end with a stretch of text, or a `<` ends it. -/
def Ended (events : List Located) (more : List Char) : Prop :=
  (∀ c ∈ more.head?, c = '<') ∨ ∀ e ∈ events.getLast?, e.event.isText = false

section Joining

variable {p q : Place} {event : Event} {more : List Char}

theorem Ended.tail {e : Located} {events : List Located} (h : Ended (e :: events) more) :
    Ended events more := by
  refine h.imp id fun hlast e' he' => hlast e' ?_
  rw [List.getLast?_cons, Option.mem_def.1 he']
  rfl

/-- Behind a stretch of text that is the last event there has to be a `<`. -/
theorem Ended.stop_of_last {e : Located} (h : Ended [e] more) (htext : e.event.isText = true) :
    ∀ c ∈ more.head?, c = '<' := by
  rcases h with hmore | hlast
  · exact hmore
  · have hother := hlast e rfl
    rw [htext] at hother
    cases hother

/-- An event is read as before if more text stands behind. -/
theorem read_followedBy (hread : Event.read p = .ok (event, q)) (hp : p.rest ≠ [])
    (hended : q.rest = [] → event.isText = true → ∀ c ∈ more.head?, c = '<') :
    Event.read (p.followedBy more) = .ok (event, q.followedBy more) := by
  obtain ⟨taken, hbefore, hne, hstop, htakes⟩ := Event.takes_of_read hread hp
  have hfollowed : (p.followedBy more).rest = taken ++ (q.rest ++ more) := by
    rw [Place.followedBy, hbefore.1, List.append_assoc]
  have hends : opening? p = none → ∀ c ∈ (q.rest ++ more).head?, c = '<' := by
    intro hopen
    have htext : event.isText = true := by
      rw [Event.read, hopen] at hread
      cases hread
      rfl
    by_cases hq : q.rest = []
    · rw [hq]
      exact hended hq htext
    · rw [List.head?_append_of_ne_nil _ hq]
      exact hstop hopen
  obtain ⟨q', hread', hq'⟩ := htakes _ hends _ hfollowed
  -- the event takes the same text, so it ends at the same byte
  obtain ⟨taken', hbefore', -⟩ := Event.before_of_read hread' (by simp [hfollowed, hne])
  have htaken : taken = taken' := by
    have heq := hfollowed.symm.trans hbefore'.1
    rw [hq'] at heq
    exact List.append_cancel_right heq
  have hoffset : q'.offset = q.offset := by
    rw [hbefore'.2, hbefore.2, htaken]
    rfl
  rw [hread', Place.followedBy, ← hoffset, ← hq']

/-- Behind a place from which all is read without a fault, more text is read as it is there by
itself. -/
theorem transcriptFrom_followedBy (hok : (transcriptFrom p).failure = none)
    (hended : Ended (transcriptFrom p).events more) :
    transcriptFrom (p.followedBy more) =
      transcriptFrom p ++ transcriptFrom (p.past p.rest more) := by
  induction p using transcriptFrom.induct with
  | case1 p hend =>
    have hhere : p.past p.rest more = p.followedBy more := by
      rw [Place.past, Place.followedBy, hend]
      rfl
    rw [hhere, transcriptFrom_of_end hend]
    rfl
  | case2 p hrest fault hread =>
    rw [transcriptFrom_of_error hrest hread] at hok
    cases hok
  | case3 p hrest event q hread ih =>
    have hp := transcriptFrom_of_ok hrest hread
    rw [hp] at hok hended
    obtain ⟨taken, hbefore, -⟩ := Event.before_of_read hread hrest
    have hstop : q.rest = [] → event.isText = true → ∀ c ∈ more.head?, c = '<' := fun hq htext => by
      rw [transcriptFrom_of_end hq] at hended
      exact hended.stop_of_last htext
    have hread' := read_followedBy hread hrest hstop
    have hpast : p.past p.rest more = q.past q.rest more := by
      rw [Place.past, Place.past, hbefore.2, Nat.add_assoc, ← byteLength_append, ← hbefore.1]
    have hrest' : (p.followedBy more).rest ≠ [] := by simp [Place.followedBy, hrest]
    rw [transcriptFrom_of_ok hrest' hread', hp, ih hok hended.tail, hpast]
    rfl

end Joining

/-- A text without a fault is read in front of another one, and this one further on. -/
theorem transcript_append {x y : List Char} (hok : (transcript x).failure = none)
    (hended : Ended (transcript x).events y) :
    transcript (x ++ y) = transcript x ++ (transcript y).shift (byteLength x) := by
  have hshift : (Place.start x).past x y = (Place.start y).shift (byteLength x) := by
    rw [Place.shift, Place.past, Place.start, Place.start, Nat.add_comm]
  calc
    transcript (x ++ y) = transcriptFrom ((Place.start x).followedBy y) := rfl
    _ = transcript x ++ transcriptFrom ((Place.start x).past x y) :=
      transcriptFrom_followedBy hok hended
    _ = transcript x ++ (transcript y).shift (byteLength x) := by
      rw [hshift, transcriptFrom_shift]
      rfl

namespace Reader

/-- The same end, further on. -/
def Ending.shift (count : Nat) : Ending → Ending
  | .atEnd offset => .atEnd (offset + count)
  | .halted (.fault e) => .halted (.fault (e.shift count))
  | ending => ending

theorem endingOf_append (x y : List Char) (failure : Option ReadError) :
    endingOf (x ++ y) (failure.map (ReadError.shift (byteLength x))) =
      (endingOf y failure).shift (byteLength x) := by
  cases failure with
  | none => rw [Option.map_none, endingOf, endingOf, byteLength_append, Nat.add_comm, Ending.shift]
  | some e => rfl

/-- If a text `x` is read without a fault, and `y` is empty or starts with a `<`, or `x` is empty or
its last event is not a stretch of text, then `x` and `y` together are read as the events of `x`
and then the events and the fault of `y`, with all their positions further on by the bytes of `x`.
The same holds of what a session with the reader of bytes gives that is asked for events until it
ends. -/
theorem reading_append {x y : List Char} (hx : (transcript x).failure = none)
    (hy : y = [] ∨ y.head? = some '<' ∨ x = [] ∨
      ∀ e ∈ (transcript x).events.getLast?, e.event.isText = false) :
    transcript (x ++ y) = transcript x ++ (transcript y).shift (byteLength x) ∧
      ∀ calls, byteLength (x ++ y) < calls →
        (session calls (x ++ y)).events =
            (session calls x).events ++
              (session calls y).events.map (Located.shift (byteLength x)) ∧
          (session calls (x ++ y)).ending =
            (session calls y).ending.shift (byteLength x) := by
  have hended : Ended (transcript x).events y := by
    rcases hy with rfl | hy | rfl | hlast
    · exact .inl nofun
    · refine .inl fun c hc => ?_
      rw [hy] at hc
      cases hc
      rfl
    · have hnone : transcript [] = ⟨[], none⟩ := transcriptFrom_of_end rfl
      rw [hnone]
      exact .inr nofun
    · exact .inr hlast
  have hjoined := transcript_append hx hended
  refine ⟨hjoined, fun calls hcalls => ?_⟩
  obtain ⟨hcallsX, hcallsY⟩ : byteLength x < calls ∧ byteLength y < calls := by
    rw [byteLength_append] at hcalls
    omega
  obtain ⟨hevents, hending⟩ := session_eq (x ++ y) hcalls
  obtain ⟨heventsX, -⟩ := session_eq x hcallsX
  obtain ⟨heventsY, hendingY⟩ := session_eq y hcallsY
  rw [hevents, hending, heventsX, heventsY, hendingY, hjoined, ← endingOf_append]
  exact ⟨rfl, rfl⟩

/-- A text that ends behind a tag, in front of one that starts with a text and ends inside a tag. -/
theorem reading_append_openEndTag :
    transcript "é<b>".toList = ⟨[⟨.text "é", 0, 2⟩, ⟨.startTag "b" [], 2, 5⟩], none⟩ ∧
      transcript "c</b".toList = ⟨[⟨.text "c", 0, 1⟩], some ⟨.openEndTag, 4⟩⟩ ∧
      transcript "é<b>c</b".toList =
        ⟨[⟨.text "é", 0, 2⟩, ⟨.startTag "b" [], 2, 5⟩, ⟨.text "c", 5, 6⟩],
          some ⟨.openEndTag, 9⟩⟩ ∧
      (session 10 "é<b>c</b".toList).ending = .halted (.fault ⟨.openEndTag, 9⟩) := by
  have hfirst : transcript "é<b>".toList =
      ⟨[⟨.text "é", 0, 2⟩, ⟨.startTag "b" [], 2, 5⟩], none⟩ := by decide +kernel
  have hsecond : transcript "c</b".toList = ⟨[⟨.text "c", 0, 1⟩], some ⟨.openEndTag, 4⟩⟩ := by
    decide +kernel
  have hlast : ∀ e ∈ (transcript "é<b>".toList).events.getLast?, e.event.isText = false := by
    rw [hfirst]
    decide +kernel
  have hwhole : "é<b>c</b".toList = "é<b>".toList ++ "c</b".toList := by decide +kernel
  obtain ⟨hjoined, hsession⟩ := reading_append (congrArg Transcript.failure hfirst)
    (.inr (.inr (.inr hlast)))
  rw [hwhole]
  refine ⟨hfirst, hsecond, ?_, ?_⟩
  · rw [hjoined, hfirst, hsecond]
    decide +kernel
  · rw [(hsession 10 (by decide +kernel)).2]
    decide +kernel

end Reader

end MarkupPath.Markup
