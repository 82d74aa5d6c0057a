import MarkupPath.Proofs.Tree.Copy

/-!
# What is read can be written

Whatever is read of a text can be written again: names are read whole, and the body of a comment or
of a section of character data ends before the first mark that ends it. Each reader of a piece of
markup gives such events (`Event.spelled_of_read`), so all events of a text are of that kind
(`spelled_of_mem_transcript`), and the nodes that the events make inherit it
(`fromMarkup_of_ofMarkup`), together with what the options say about them.
-/

set_option autoImplicit false

namespace MarkupPath.Markup

open MarkupPath.Text

/-! ## Events -/

/-- The name of an attribute that was read could be written again. -/
theorem Attribute.isWhole_of_read {p q : Place} {name value : List Char}
    (h : read p = .ok (name, value, q)) : Name.IsWhole name := by
  rw [read] at h
  split at h
  · cases h
  · next hname =>
    simp only at h
    split at h
    · cases h
    · split at h <;> cases h
      exact Name.isWhole_of_read? hname

/-- Reading on behind attributes whose names are whole gives such attributes. -/
theorem Attribute.isWhole_of_readAll {known attributes : List Attribute} {p : Place}
    (hknown : ∀ a ∈ known, Name.IsWhole a.name.toList) (h : readAll known p = .ok attributes) :
    ∀ a ∈ attributes, Name.IsWhole a.name.toList := by
  fun_induction readAll known p with
  | case1 known p q hend =>
    cases h
    exact hknown
  | case2 known p q hrest e hread => cases h
  | case3 known p q hrest name value r hread name' hmet => cases h
  | case4 known p q hrest name value r hread name' hnew ih =>
    -- behind the attributes so far stands one whose name was read
    refine ih (fun a ha => ?_) h
    rcases List.mem_append.1 ha with hold | hlast
    · exact hknown a hold
    · rw [List.mem_singleton.1 hlast]
      simpa [name'] using isWhole_of_read hread

namespace Event

/-- The event can be written: the names of a tag are whole, and a body does not hold its own end. -/
def Spelled : Event → Prop
  | .startTag name attributes | .emptyTag name attributes =>
      Name.IsWhole name.toList ∧ ∀ a ∈ attributes, Name.IsWhole a.name.toList
  | .comment body => ¬ "-->".toList <:+: body.toList
  | .cdata body => ¬ "]]>".toList <:+: body.toList
  | _ => True

variable {inside p q : Place} {start : Nat} {e : Event}

/-- So could a tag with all its attributes. -/
theorem spelled_of_ofTag {name content : List Char} {offset : Nat} (hname : Name.IsWhole name)
    (h : ofTag name content offset = .ok e) : e.Spelled := by
  unfold ofTag at h
  extract_lets empty listed at h
  split at h
  · cases h
  · split at h
    · cases h
    · next attributes hlist =>
      have hnames := Attribute.isWhole_of_readAll (List.forall_mem_nil _) hlist
      have hwhole : Name.IsWhole (String.ofList name).toList := by rwa [String.toList_ofList]
      cases h
      split <;> exact ⟨hwhole, hnames⟩

/-- A start tag that was read has names that can be written. -/
theorem spelled_of_readStartTag (h : readStartTag start inside = .ok (e, q)) : e.Spelled := by
  rw [readStartTag] at h
  split at h
  · cases h
  · next hname =>
    split at h
    · cases h
    · split at h
      · cases h
      · next htag =>
        cases h
        exact spelled_of_ofTag (Name.isWhole_of_read? hname) htag

/-- A body is cut off before the first mark that ends it. -/
theorem spelled_of_readDelimited {close : String} {fault : ReadFault} {event : String → Event}
    (h : readDelimited start inside close fault event = .ok (e, q)) (hclose : close.toList ≠ [])
    (hevent : ∀ body : String, ¬ close.toList <:+: body.toList → (event body).Spelled) :
    e.Spelled := by
  rw [readDelimited] at h
  split at h
  · next hcut =>
    cases h
    obtain ⟨halves, hhalves, heq⟩ := Option.map_eq_some_iff.1 hcut
    cases heq
    refine hevent _ ?_
    rw [String.toList_ofList]
    exact not_infix_of_cut? hclose hhalves
  · cases h

theorem spelled_of_readDoctype (h : readDoctype start inside = .ok (e, q)) : e.Spelled := by
  rw [readDoctype] at h
  split at h <;> cases h
  trivial

theorem spelled_of_readInstruction (h : readInstruction start inside = .ok (e, q)) :
    e.Spelled := by
  rw [readInstruction] at h
  split at h
  · cases h
  · split at h
    · cases h
    · split at h <;> cases h <;> trivial

theorem spelled_of_readEndTag (h : readEndTag inside = .ok (e, q)) : e.Spelled := by
  rw [readEndTag] at h
  split at h
  · cases h
  · simp only at h
    split at h <;> cases h
    trivial

/-- An event that is read can be written. -/
theorem spelled_of_read (h : read p = .ok (e, q)) : e.Spelled := by
  rw [read] at h
  split at h
  · cases h
    trivial
  · exact spelled_of_readDelimited h (by decide) fun _ hbody => hbody
  · exact spelled_of_readDelimited h (by decide) fun _ hbody => hbody
  · exact spelled_of_readDoctype h
  · exact spelled_of_readInstruction h
  · exact spelled_of_readEndTag h
  · exact spelled_of_readStartTag h

end Event

theorem spelled_of_mem_transcriptFrom {p : Place} {e : Located}
    (h : e ∈ (transcriptFrom p).events) : e.event.Spelled := by
  fun_induction transcriptFrom p with
  | case1 p hend => cases h
  | case2 p hrest e' hread => cases h
  | case3 p hrest event q hread later ih =>
    rcases List.mem_cons.1 h with rfl | hlater
    · exact Event.spelled_of_read hread
    · exact ih hlater

/-- Every event of a text can be written. -/
theorem spelled_of_mem_transcript {text : List Char} {e : Located}
    (h : e ∈ (transcript text).events) : e.event.Spelled :=
  spelled_of_mem_transcriptFrom h

end MarkupPath.Markup

namespace MarkupPath.Tree

open MarkupPath.Markup MarkupPath.Text

/-! ## Nodes -/

/-- The text is empty or layout only. -/
def isBlankText (text : String) : Bool := text.toList.all isAsciiBlank

/-- What holds of the nodes of a document that was read with the options. The text of an element is
blank only if sections of character data were joined to it. -/
structure Node.FromMarkup (options : ReadOptions) (n : Node) : Prop where
  spelled : n.Spelled
  comment : n.kind = .comment → options.keepComments = true
  cdata : n.kind = .cdata → options.keepCData = true
  body : n.isElement = false → ∃ body, n.text = some body
  text : n.isElement = true → options.keepCData = true →
    ∀ text, n.text = some text → isBlankText text = false

section Reading

variable {options : ReadOptions}

/-- Where sections of character data are nodes, an own text consists of segments none of which is
blank. -/
theorem Part.not_isBlankText_of_ownText (hkeep : options.keepCData = true) {parts : List Part}
    {text : String} (h : ownText options parts = some text) : isBlankText text = false := by
  -- of the two sorts of segments there are only texts, and blank ones are dropped
  have hsegments : ∀ s ∈ parts.filterMap (segment? options), isBlankText s = false := by
    intro s hs
    obtain ⟨p, -, hp⟩ := List.mem_filterMap.1 hs
    cases p with
    | text content =>
      rw [segment?] at hp
      split at hp
      · cases hp
      · next hblank =>
        cases hp
        exact Bool.eq_false_iff.2 hblank
    | cdata content =>
      rw [segment?, if_pos hkeep] at hp
      cases hp
    | comment content => cases hp
    | element name attributes parts => cases hp
  rw [ownText] at h
  cases hall : parts.filterMap (segment? options) with
  | nil =>
    rw [hall] at h
    cases h
  | cons s segments =>
    rw [hall] at h hsegments
    cases h
    -- the first segment alone has a character that is no blank
    have hfirst := hsegments s List.mem_cons_self
    rw [isBlankText, List.all_eq_false] at hfirst ⊢
    obtain ⟨c, hc, hblank⟩ := hfirst
    refine ⟨c, ?_, hblank⟩
    rw [String.toList_join, List.flatMap_cons]
    exact List.mem_append_left _ hc

/-- A kept marker whose body does not hold its end is a node of a read document. -/
theorem Node.fromMarkup_marker {n : Node} (hspelled : n.Spelled)
    (hcomment : n.kind = .comment → options.keepComments = true)
    (hcdata : n.kind = .cdata → options.keepCData = true) (hmarker : n.isElement = false)
    {body : String} (hbody : n.text = some body) : n.FromMarkup options where
  spelled := hspelled
  comment := hcomment
  cdata := hcdata
  body _ := ⟨body, hbody⟩
  text helement := by
    rw [hmarker] at helement
    cases helement

/-- An element whose own text is that of its parts is one that a text can hold. -/
theorem Node.fromMarkup_element {name : String} {attributes : List Attribute} (parts : List Part)
    (hname : Name.IsWhole name.toList) (hattributes : ∀ a ∈ attributes, Name.IsWhole a.name.toList)
    (children : List NodeId) (parent : Option NodeId) :
    Node.FromMarkup options
      ⟨.element name attributes children, Part.ownText options parts, parent⟩ where
  spelled := ⟨hname, hattributes⟩
  comment h := nomatch h
  cdata h := nomatch h
  body h := nomatch h
  text _ hkeep _ htext := Part.not_isBlankText_of_ownText hkeep htext

/-- The nodes of an event that opens and closes nothing are those of a read document. -/
theorem fromMarkup_of_mem_nodesOf_partsOf {e : Event} (he : e.Spelled) {parent : Option NodeId}
    {id : NodeId} {n : Node} (hn : n ∈ Part.nodesOf options parent id (partsOf e)) :
    n.FromMarkup options := by
  cases e with
  | comment body =>
    rw [partsOf, Part.nodesOf, Part.nodesOf, List.append_nil, Part.nodes] at hn
    split at hn
    · next hkeep =>
      cases List.mem_singleton.1 hn
      exact Node.fromMarkup_marker he (fun _ => hkeep) (by intro h; cases h) rfl rfl
    · cases hn
  | cdata body =>
    rw [partsOf, Part.nodesOf, Part.nodesOf, List.append_nil, Part.nodes] at hn
    split at hn
    · next hkeep =>
      cases List.mem_singleton.1 hn
      exact Node.fromMarkup_marker he (by intro h; cases h) (fun _ => hkeep) rfl rfl
    · cases hn
  | emptyTag name attributes =>
    cases List.mem_singleton.1 hn
    exact Node.fromMarkup_element [] he.1 he.2 _ _
  | _ => cases hn

/-- The nodes that events make are those of a read document. -/
theorem Writes.fromMarkup {es : List Event} {ps : List Part} (h : Writes es ps)
    (hes : ∀ e ∈ es, e.Spelled) {parent : Option NodeId} {id : NodeId} :
    ∀ n ∈ Part.nodesOf options parent id ps, n.FromMarkup options := by
  induction h generalizing parent id with
  | nil => exact List.forall_mem_nil _
  | single _ _ ih =>
    obtain ⟨he, hes⟩ := List.forall_mem_cons.1 hes
    rw [Part.nodesOf_append]
    exact List.forall_mem_append.2 ⟨fun n hn => fromMarkup_of_mem_nodesOf_partsOf he hn, ih hes⟩
  | @tagged name attributes inside es parts ps _ _ ihinside ih =>
    obtain ⟨hopen, hrest⟩ := List.forall_mem_cons.1 hes
    obtain ⟨hinside, hrest⟩ := List.forall_mem_append.1 hrest
    rw [Part.nodesOf, Part.nodes]
    refine List.forall_mem_append.2 ⟨List.forall_mem_cons.2 ⟨?_, ihinside hinside⟩,
      ih (List.forall_mem_cons.1 hrest).2⟩
    exact Node.fromMarkup_element parts hopen.1 hopen.2 _ _

/-- All nodes of a document that was read can be written again, are of kinds that the options keep,
and have a blank text only where sections of character data were joined to it. -/
theorem fromMarkup_of_ofMarkup {text : List Char} {doc : Document}
    (h : Document.ofMarkup options text = .ok doc) {id : NodeId} {n : Node}
    (hn : doc.node? id = some n) : n.FromMarkup options := by
  obtain ⟨-, p, ⟨before, inside, after, hevents, -, hinside, -⟩, rfl⟩ := ofMarkup_eq_ok_iff.1 h
  have hspelled : ∀ e ∈ inside, e.Spelled := by
    intro e he
    have hmem : e ∈ (transcript text).events.map (·.event) := by
      rw [hevents]
      exact List.mem_append_left _ (List.mem_append_right _ he)
    obtain ⟨located, hlocated, rfl⟩ := List.mem_map.1 hmem
    exact spelled_of_mem_transcript hlocated
  have hall : ∀ n ∈ Part.nodesOf options none 0 [p], n.FromMarkup options :=
    hinside.writes.fromMarkup hspelled
  rw [Part.nodesOf, Part.nodesOf, List.append_nil] at hall
  rw [Part.document, Document.node?, List.getElem?_toArray] at hn
  exact hall n (List.mem_of_getElem? hn)

end Reading

end MarkupPath.Tree
