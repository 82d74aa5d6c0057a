import MarkupPath.Proofs.Tree.Boundary
import MarkupPath.Proofs.Tree.Options
import MarkupPath.Proofs.Tree.Outside

/-!
# Markers put last

A comment or a section of character data that is created under an element is printed in front of
the element's end tag (`exists_toMarkup_pushChild`), with its body as it is. When the output is read
again the marker is the last child of the root, and nothing else has changed, provided that the body
does not hold its own end, that the end tag is read as one tag, and that the tag printed last was
read as such before (`created_markers_read_back`). The rest of the output may be anything that is
read: other names and bodies may stand for more, or less, than they were meant to.

What was read in front of the end tag is read in front of the marker as well
(`exists_ofMarkup_marked`), and a document with one more part, a marker, is the document in which
this marker is created (`document_append`).
-/

set_option autoImplicit false

namespace MarkupPath.Tree

open MarkupPath.Markup MarkupPath.Text

/-! ## The last tag -/

/-- Nothing stands in the element, so it is printed as one tag. -/
def Node.isHollow (n : Node) : Bool := n.text.isNone && n.children.isEmpty

/-- The tag that is printed last of an element: its end tag, or its only one. -/
def lastTag (n : Node) : List Char :=
  if n.isHollow then openText n ++ "/>".toList else closeText n.name

section Tags

variable {e : Event}

/-- Where two whole names start a text and nothing continues them, they are the same. -/
theorem append_inj_of_isWhole {first second rest later : List Char} (h : Name.IsWhole first)
    (h' : Name.IsWhole second) (heq : first ++ rest = second ++ later)
    (hrest : ∀ c ∈ rest.head?, Name.isPart c = false)
    (hlater : ∀ c ∈ later.head?, Name.isPart c = false) : first = second ∧ rest = later := by
  have hread := h.read?_eq (p := Place.start (first ++ rest)) rfl hrest
  rw [h'.read?_eq heq hlater] at hread
  cases hread
  exact ⟨rfl, List.append_cancel_left heq⟩

/-- An end tag that is printed and read whole has a whole name, and maybe blanks behind it. -/
theorem exists_of_takes_closeText {name : String}
    (h : Event.Takes Event.read e (closeText name) []) :
    ∃ whole blanks, e = .endTag (String.ofList whole) ∧ Name.IsWhole whole ∧
      (∀ c ∈ blanks, isMarkupBlank c = true) ∧ name.toList = whole ++ blanks := by
  obtain ⟨q, hread, hq⟩ := h (Place.start (closeText name)) (List.append_nil _).symm
  have hopen : opening? (Place.start (closeText name)) =
      some (.endTag, (Place.start (closeText name)).past "</".toList (name.toList ++ ['>'])) :=
    Event.opening?_of_mem (by decide) (List.append_assoc _ _ _) nofun
  rw [Event.read_of_opening? hopen] at hread
  obtain ⟨whole, blanks, rfl, hwhole, hblanks, hbefore⟩ := Event.exists_of_readEndTag hread
  have htext := hbefore.1
  rw [hq, List.append_nil, Place.past_rest, ← List.append_assoc] at htext
  exact ⟨whole, blanks, rfl, hwhole, hblanks, List.append_cancel_right htext⟩

section Attributes

variable {blanks : List Char} (hblanks : ∀ c ∈ blanks, isMarkupBlank c = true)
  (attributes : List Attribute)

include hblanks

/-- What follows a name in a tag is a blank, or the slash. -/
theorem not_isPart_of_head?_attributes :
    ∀ c ∈ (blanks ++ attributes.flatMap attributeText ++ "/>".toList).head?,
      Name.isPart c = false := by
  cases blanks with
  | cons blank blanks =>
    simpa using Name.not_isPart_of_isMarkupBlank (hblanks blank List.mem_cons_self)
  | nil =>
    cases attributes with
    | nil => simp; decide
    | cons a attributes =>
      rw [List.nil_append, List.flatMap_cons, List.append_assoc, attributeText_append]
      simp
      decide

/-- Neither blanks nor attributes end in a slash. -/
theorem getLast?_attributes_ne :
    (blanks ++ attributes.flatMap attributeText).getLast? ≠ some '/' := by
  intro hslash
  rw [List.getLast?_append] at hslash
  have hattributes := getLast?_attributes attributes
  cases hend : (attributes.flatMap attributeText).getLast? with
  | none =>
    rw [hend, Option.none_or] at hslash
    exact absurd (hblanks _ (List.mem_of_getLast? hslash)) (by decide)
  | some d =>
    rw [hend, Option.some_or] at hslash
    rw [hend, hslash] at hattributes
    exact absurd hattributes (by decide)

end Attributes

/-- A tag that is printed of an element with nothing in it and read whole opens the same element
without its slash. -/
theorem exists_of_takes_emptyText {n : Node} {whole blanks : List Char}
    (hwhole : Name.IsWhole whole) (hblanks : ∀ c ∈ blanks, isMarkupBlank c = true)
    (hname : n.name.toList = whole ++ blanks)
    (h : Event.Takes Event.read e (openText n ++ "/>".toList) []) :
    ∃ attributes, e = .emptyTag (String.ofList whole) attributes ∧ ∀ rest,
      Event.Takes Event.read (.startTag (String.ofList whole) attributes)
        (openText n ++ ['>']) rest := by
  obtain ⟨c, tail, hc, hstart⟩ := (Name.isWhole_iff.1 hwhole).1
  obtain ⟨q, hread, hq⟩ := h (Place.start (openText n ++ "/>".toList)) (List.append_nil _).symm
  have hrest : (Place.start (openText n ++ "/>".toList)).rest = "<".toList ++
      (whole ++ (blanks ++ n.attributes.flatMap attributeText ++ "/>".toList)) := by
    simp [Place.start, openText, hname]
  have hmark : ("<", Opening.startTag) ∈ openings := by decide
  have hopen := Event.opening?_of_mem hmark hrest
    fun _ => ⟨c, by rw [hc]; rfl, hstart⟩
  rw [Event.read_of_opening? hopen] at hread
  obtain ⟨name, content, htag, hbefore⟩ := Event.exists_of_readStartTag hread
  have htext := hbefore.1
  rw [hq, List.append_nil, Place.past_rest] at htext
  obtain ⟨rfl, hcontent⟩ := append_inj_of_isWhole hwhole htag.whole htext
    (not_isPart_of_head?_attributes hblanks n.attributes) htag.apart
  obtain rfl : content = blanks ++ n.attributes.flatMap attributeText ++ ['/'] := by
    refine List.append_cancel_right (hcontent.symm.trans ?_)
    simp
  obtain ⟨attributes, rfl, hopened⟩ := htag.withoutSlash
    (getLast?_attributes_ne hblanks n.attributes)
  refine ⟨attributes, rfl, fun rest => ?_⟩
  have htakes := Event.takes_of_opened hmark (hopened.takes · rest)
    fun _ => ⟨c, by rw [hc]; rfl, hstart⟩
  have hsplit : openText n ++ ['>'] =
      "<".toList ++ (whole ++ (blanks ++ n.attributes.flatMap attributeText ++ ['>'])) := by
    simp [openText, hname]
  rwa [hsplit]

end Tags

/-! ## Events with one more in front of the last -/

section Holding

variable {es : List Event} {m : Event} {name : String} {attributes : List Attribute} {p : Part}

/-- An event that counts is the last one of the element. -/
theorem HoldsElement.exists_of_last {e : Event} (h : HoldsElement (es ++ [e]) p)
    (he : isSignificant e = true) :
    ∃ before inside, es ++ [e] = before ++ inside ∧ (∀ b ∈ before, isSignificant b = false) ∧
      WritesElement inside p := by
  obtain ⟨before, inside, after, hes, hbefore, hinside, hafter⟩ := h
  rcases List.eq_nil_or_concat after with rfl | ⟨first, last, rfl⟩
  · exact ⟨before, inside, by rw [hes, List.append_nil], hbefore, hinside⟩
  · rw [List.concat_eq_append, ← List.append_assoc] at hes
    obtain ⟨-, hlast⟩ := List.append_inj' hes rfl
    cases hlast
    have hnot := hafter e (by rw [List.concat_eq_append]; exact List.mem_concat_self)
    rw [he] at hnot
    cases hnot

/-- In front of the end tag one more event can be written. -/
theorem HoldsElement.putLast (h : HoldsElement (es ++ [.endTag name]) p)
    (hm : isBracket m = false) :
    ∃ attributes parts, p = .element name attributes parts ∧
      HoldsElement (es ++ [m, .endTag name]) (.element name attributes (parts ++ partsOf m)) := by
  obtain ⟨before, inside, hes, hbefore, hinside⟩ := h.exists_of_last rfl
  cases hinside with
  | empty name' attributes =>
    cases (List.append_inj' hes rfl).2
  | @tagged name' attributes inner parts hinner =>
    rw [← List.cons_append, ← List.append_assoc] at hes
    obtain ⟨rfl, hlast⟩ := List.append_inj' hes rfl
    cases hlast
    have hwrites := hinner.append (.single hm .nil)
    rw [List.append_nil] at hwrites
    refine ⟨attributes, parts, rfl, before, _, [], ?_, hbefore, .tagged hwrites,
      List.forall_mem_nil _⟩
    simp

/-- An element with nothing in it can be written with one event in it. -/
theorem HoldsElement.putInside (h : HoldsElement (es ++ [.emptyTag name attributes]) p)
    (hm : isBracket m = false) :
    p = .element name attributes [] ∧
      HoldsElement (es ++ [.startTag name attributes, m, .endTag name])
        (.element name attributes (partsOf m)) := by
  obtain ⟨before, inside, hes, hbefore, hinside⟩ := h.exists_of_last rfl
  cases hinside with
  | empty name' attributes' =>
    obtain ⟨rfl, hlast⟩ := List.append_inj' hes rfl
    cases hlast
    have hwrites := Writes.single hm .nil
    rw [List.append_nil] at hwrites
    refine ⟨rfl, es, _, [], ?_, hbefore, .tagged hwrites, List.forall_mem_nil _⟩
    simp
  | @tagged name' attributes' inner parts hinner =>
    rw [← List.cons_append, ← List.append_assoc] at hes
    cases (List.append_inj' hes rfl).2

end Holding

/-! ## A document with a marker put last -/

namespace Document

variable {doc : Document} {p : NodeId} {m : Node}

/-- The new node is the last one, its parent has one child more, and nothing else has changed. -/
theorem node?_pushChild (hp : p < doc.size) (j : NodeId) :
    (doc.pushChild p m).node? j =
      if j = doc.size then some { m with parent := some p }
      else if j = p then (doc.node? p).map (Node.mapChildren (· ++ [doc.size]))
      else doc.node? j := by
  have hne : doc.size ≠ p := Ne.symm (Nat.ne_of_lt hp)
  rw [pushChild]
  split
  · next hnew =>
    rw [hnew, node?_attach, node?_modify, if_pos rfl, node?_modify_of_ne _ hne, node?_push,
      if_pos rfl]
    rfl
  · next hnew =>
    split
    · next hj =>
      rw [hj, node?_attach, node?_modify_of_ne _ hne.symm, node?_modify, if_pos rfl, node?_push,
        if_neg hne.symm]
    · next hj =>
      rw [node?_attach_of_ne _ hj hnew, node?_push, if_neg hnew]

/-- Which element is the document element makes no difference to a new node. -/
theorem pushChild_withRoot {root : NodeId} (hroot : root < doc.size) :
    ({ doc with documentElement := some root } : Document).pushChild p m =
      { doc.pushChild p m with documentElement := some root } := by
  have hne : root ≠ doc.size := Nat.ne_of_lt hroot
  rw [pushChild, pushChild, attach, attach]
  split
  · next hnew =>
    exact absurd (Option.some.inj (eq_of_beq hnew)) hne
  · split <;> rfl

theorem createUnder_eq_ok (hp : doc.isElement p = true) :
    doc.createUnder p m = .ok (doc.size, doc.pushChild p m) := by
  obtain ⟨n, hn⟩ := doc.isElement_iff.1 hp
  rw [createUnder, needElement_eq_ok_iff.2 hn]
  rfl

end Document

/-- The node is a marker, and its text is read as an event that writes it, whatever follows. -/
structure Node.Marks (m : Node) (event : Event) (part : Part) : Prop where
  fresh : m.Fresh
  bracket : isBracket event = false
  parts : partsOf event = [part]
  nodes : ∀ parent id, part.nodes keepAll (some parent) id = [{ m with parent := some parent }]
  segment : part.segment? keepAll = none
  reads : ∀ rest, ReadsAs (nodeText m) [event] rest
  shows : ∀ {doc : Document} {id : NodeId} {parent : Option NodeId},
    doc.node? id = some { m with parent := parent } → Shows doc id (nodeText m) part

/-- A comment whose body does not close it early is written and read as itself. -/
theorem Node.marks_ofComment {body : String} (hbody : ¬ "-->".toList <:+: body.toList) :
    (Node.ofComment body).Marks (.comment body) (.comment body) where
  fresh := Node.fresh_ofComment body
  bracket := rfl
  parts := rfl
  nodes _ _ := rfl
  segment := rfl
  reads := readsAs_comment hbody
  shows hnode := by
    have hshows := Shows.comment hnode
    exact hshows

/-- So is a section of character data. -/
theorem Node.marks_ofCData {body : String} (hbody : ¬ "]]>".toList <:+: body.toList) :
    (Node.ofCData body).Marks (.cdata body) (.cdata body) where
  fresh := Node.fresh_ofCData body
  bracket := rfl
  parts := rfl
  nodes _ _ := rfl
  segment := rfl
  reads := readsAs_cdata hbody
  shows hnode := by
    have hshows := Shows.cdata hnode
    exact hshows

/-- The document of an element with one more part, a marker, has this marker as a new last child. -/
theorem document_append {m : Node} {event : Event} {part : Part} (h : m.Marks event part)
    (name : String) (attributes : List Attribute) (parts : List Part) :
    (Part.element name attributes (parts ++ [part])).document keepAll =
      ((Part.element name attributes parts).document keepAll).pushChild 0 m := by
  have hroot := Assembly.inside_withRoot name attributes 0
  have hgrown := Assembly.document_of_root keepAll name attributes [(0, 0)]
  -- the element grows by its parts one after the other, and only then becomes the document element
  have hmarked := Document.grow_grow keepAll _ hroot.known parts [part]
  rw [hgrown, hgrown] at hmarked
  generalize hbuilt : (⟨((Part.element name attributes parts).nodes keepAll none 0).toArray,
    none⟩ : Document) = built at hmarked
  have hsize : 0 < built.size := by
    rw [← hbuilt]
    exact Nat.succ_pos _
  have hnone : built.documentElement = none := by rw [← hbuilt]
  have hcopy : (Part.element name attributes parts).document keepAll =
      { built with documentElement := some 0 } := by
    rw [← hbuilt]
    rfl
  rw [← Document.grow_single keepAll _ hsize hnone part (h.nodes 0 _) h.segment] at hmarked
  rw [hcopy, Document.pushChild_withRoot hsize, hmarked]
  rfl

/-! ## What is printed -/

section Printing

variable {doc doc' : Document}

mutual

/-- A subtree in which no node changes is shown in the same way. -/
theorem Shows.congr (hwf : doc.WellFormed) {id : NodeId} {cs : List Char} {part : Part} :
    Shows doc id cs part → (∀ x, doc.Within id x → doc'.node? x = doc.node? x) →
    Shows doc' id cs part
  | .comment hnode, hsame => .comment ((hsame id (.refl doc id)).trans hnode)
  | .cdata hnode, hsame => .cdata ((hsame id (.refl doc id)).trans hnode)
  | .leaf hnode, hsame => .leaf ((hsame id (.refl doc id)).trans hnode)
  | .element hnode hall, hsame => .element ((hsame id (.refl doc id)).trans hnode)
      (hall.congr hwf (hwf.forall_within_children hnode hsame))

theorem ShowsAll.congr (hwf : doc.WellFormed) {ids : List NodeId} {cs : List Char}
    {ps : List Part} :
    ShowsAll doc ids cs ps → (∀ id ∈ ids, ∀ x, doc.Within id x → doc'.node? x = doc.node? x) →
    ShowsAll doc' ids cs ps
  | .nil, _ => .nil
  | .cons hfirst hlater, hsame =>
      .cons (hfirst.congr hwf (List.forall_mem_cons.1 hsame).1)
        (hlater.congr hwf (List.forall_mem_cons.1 hsame).2)

end

/-- One child more behind the others. -/
theorem ShowsAll.concat {ids : List NodeId} {id : NodeId} {cs ds : List Char} {ps : List Part}
    {part : Part} (h : ShowsAll doc ids cs ps) (hlast : Shows doc id ds part) :
    ShowsAll doc (ids ++ [id]) (cs ++ ds) (ps ++ [part]) := by
  induction ids generalizing cs ps with
  | nil =>
    cases h
    have hsingle := ShowsAll.cons hlast .nil
    rwa [List.append_nil] at hsingle
  | cons first ids ih =>
    cases h with
    | cons hfirst hlater =>
      rw [List.append_assoc]
      exact .cons hfirst (ih hlater)

/-- Without indentation a node is printed as it is shown. -/
theorem Shows.toMarkup_eq (hwf : doc.WellFormed) {id : NodeId} {cs : List Char} {part : Part}
    (h : Shows doc id cs part) (declaration : Bool) :
    doc.toMarkup ⟨none, declaration⟩ id =
      .ok (String.ofList ((if declaration then declarationText else []) ++ cs)) := by
  obtain ⟨n, hn⟩ := Document.exists_node?_of_lt h.lt_size
  have hlaid : Lays doc ⟨none, declaration⟩ 0 id cs part := h.lays rfl 0
  have hprint := hlaid.print_eq (h.size_le hwf)
  rw [lineBreak_eq_nil rfl, List.nil_append] at hprint
  rw [Document.toMarkup, Document.need_eq_ok_iff.2 hn, hprint]
  rfl

section Marked

variable {p : NodeId} {m : Node} {event : Event} {part : Part} {name : String}
  {attributes : List Attribute} {children : List NodeId} {text : Option String}
  {parent : Option NodeId}

/-- A marker created under an element is printed behind its own text and its children, in front of
its end tag. -/
theorem ShowsAll.shows_pushChild (hwf : doc.WellFormed)
    (hp : doc.node? p = some ⟨.element name attributes children, text, parent⟩)
    (hm : m.Marks event part) {cs : List Char} {ps : List Part}
    (hall : ShowsAll doc children cs ps) :
    Shows (doc.pushChild p m) p
      (openText ⟨.element name attributes children, text, parent⟩ ++
        '>' :: (Reference.escapeText (text.getD "").toList ++ cs) ++ nodeText m ++ closeText name)
      (.element name attributes (leadParts text ++ (ps ++ [part]))) := by
  have hlt := Document.lt_size_of_node? hp
  have hnode := doc.node?_pushChild (m := m) hlt p
  rw [if_neg (Nat.ne_of_lt hlt), if_pos rfl, hp] at hnode
  have hnew := doc.node?_pushChild (m := m) hlt doc.size
  rw [if_pos rfl] at hnew
  -- nothing changes below the children, since neither the element nor the new node is there
  have hsame : ∀ c ∈ children, ∀ x, doc.Within c x → (doc.pushChild p m).node? x = doc.node? x := by
    intro c hc x hx
    have hchild : doc.parent? c = some p := by
      refine hwf.mem_children_iff.1 ?_
      rw [Document.children, hp]
      exact hc
    have hne : x ≠ p := by
      rintro rfl
      exact hwf.acyclic x ((Document.Ancestor.parent hchild).trans_within hx)
    have hlt' := Document.lt_size_of_within (Document.lt_size_of_parent? hchild) hx
    rw [Document.node?_pushChild hlt, if_neg (Nat.ne_of_lt hlt'), if_neg hne]
  have hshown := (hall.congr hwf hsame).concat (hm.shows hnew)
  obtain ⟨first, later, hfirst⟩ : ∃ first later, children ++ [doc.size] = first :: later :=
    List.exists_cons_of_ne_nil (by simp)
  have hchanged : (Node.mapChildren (· ++ [doc.size])
      ⟨.element name attributes children, text, parent⟩) =
      ⟨.element name attributes (first :: later), text, parent⟩ := by
    rw [← hfirst]
    rfl
  rw [Option.map_some, hchanged] at hnode
  rw [hfirst] at hshown
  have hshows := Shows.element hnode hshown
  simpa [nodeText, Node.kind, Node.children, Node.name, Node.attributes, openText] using hshows

/-- An element with something in it is printed with its own text and its children between two
tags. -/
theorem ShowsAll.exists_shows_filled
    (hp : doc.node? p = some ⟨.element name attributes children, text, parent⟩)
    (hfilled : Node.isHollow ⟨.element name attributes children, text, parent⟩ = false)
    {cs : List Char} {ps : List Part} (hall : ShowsAll doc children cs ps) :
    ∃ q, Shows doc p (openText ⟨.element name attributes children, text, parent⟩ ++
      '>' :: (Reference.escapeText (text.getD "").toList ++ cs) ++ closeText name) q := by
  cases children with
  | nil =>
    cases hall
    cases text with
    | none => cases hfilled
    | some text =>
      have hshows := Shows.leaf hp
      exact ⟨_, by simpa [nodeText, Node.kind, Node.children, Node.name, openText] using hshows⟩
  | cons first later =>
    have hshows := Shows.element hp hall
    exact ⟨_, by simpa [nodeText, Node.kind, Node.children, Node.name, openText] using hshows⟩

/-- With a marker created under it, an element is printed as before up to its end tag, and then the
marker stands in front of the end tag. If nothing was in the element, its only tag becomes two. -/
theorem exists_toMarkup_pushChild (hwf : doc.WellFormed) {n : Node} (hp : doc.node? p = some n)
    (helement : n.isElement = true) (hm : m.Marks event part) (declaration : Bool) :
    ∃ front, doc.toMarkup ⟨none, declaration⟩ p = .ok (String.ofList (front ++ lastTag n)) ∧
      (doc.pushChild p m).toMarkup ⟨none, declaration⟩ p =
        .ok (String.ofList ((if n.isHollow then front ++ (openText n ++ ['>']) else front) ++
          (nodeText m ++ closeText n.name))) := by
  have hisElement := doc.isElement_iff.2 ⟨n, hp, helement⟩
  have hpushed := hwf.pushChild hisElement hm.fresh
  rcases n with ⟨⟨name, attributes, children⟩ | _ | _, text, parent⟩
  case comment => cases helement
  case cdata => cases helement
  have hchildren : doc.children p = children := by
    rw [Document.children, hp]
    rfl
  obtain ⟨cs, ps, hall⟩ := ShowsAll.exists_of_forall fun c (hc : c ∈ children) =>
    Shows.exists_of_wellFormed hwf c (hwf.child_lt_size (hchildren ▸ hc))
  have hafter := (hall.shows_pushChild hwf hp hm).toMarkup_eq hpushed declaration
  by_cases hhollow : Node.isHollow ⟨.element name attributes children, text, parent⟩ = true
  · obtain ⟨htext, hnone⟩ := Bool.and_eq_true_iff.1 hhollow
    obtain rfl : text = none := Option.isNone_iff_eq_none.1 htext
    obtain rfl : children = [] := List.isEmpty_iff.1 hnone
    cases hall
    refine ⟨if declaration then declarationText else [],
      ((Shows.leaf hp).toMarkup_eq hwf declaration).trans rfl, hafter.trans ?_⟩
    rw [if_pos hhollow]
    simp [Node.name]
  · obtain ⟨q, hshows⟩ := hall.exists_shows_filled hp (Bool.eq_false_iff.2 hhollow)
    refine ⟨(if declaration then declarationText else []) ++
      (openText ⟨.element name attributes children, text, parent⟩ ++
        '>' :: (Reference.escapeText (text.getD "").toList ++ cs)), ?_, hafter.trans ?_⟩
    · rw [hshows.toMarkup_eq hwf declaration, lastTag, if_neg hhollow]
      simp [Node.name]
    · rw [if_neg hhollow]
      simp [Node.name]

end Marked

end Printing

/-! ## What is read -/

section Reading

variable {m n : Node} {event : Event} {part : Part} {front : List Char} {copy : Document}

/-- A text that is read as the events of one element is that of a document. -/
theorem ofMarkup_of_readsAs {text : List Char} {es : List Event} {p : Part}
    (h : ReadsAs text es []) (hholds : HoldsElement es p) (options : ReadOptions) :
    Document.ofMarkup options text = .ok (p.document options) := by
  obtain ⟨hok, hevents⟩ := h.transcript_eq
  exact ofMarkup_eq_ok_iff.2 ⟨hok, p, hevents ▸ hholds, rfl⟩

theorem lastTag_ne_nil (n : Node) : lastTag n ≠ [] := by
  rw [lastTag]
  split
  · simp
  · simp [closeText]

theorem head?_lastTag (n : Node) : (lastTag n).head? = some '<' := by
  rw [lastTag]
  split <;> rfl

/-- A marker in front of the last tag is read as one more part of the element, behind its others. -/
theorem exists_ofMarkup_marked (hm : m.Marks event part)
    (hread : Document.ofMarkup keepAll (front ++ lastTag n) = .ok copy)
    (hlast : EndsAs (lastTag n) (front ++ lastTag n))
    (hclose : EndsAs (closeText n.name) (closeText n.name)) :
    ∃ name attributes parts, copy = (Part.element name attributes parts).document keepAll ∧
      Document.ofMarkup keepAll ((if n.isHollow then front ++ (openText n ++ ['>']) else front) ++
          (nodeText m ++ closeText n.name)) =
        .ok ((Part.element name attributes (parts ++ [part])).document keepAll) := by
  obtain ⟨es, e, hevents, htakes, hfront⟩ := hlast.exists_readsAs (lastTag_ne_nil n)
  obtain ⟨-, p, hholds, rfl⟩ := ofMarkup_eq_ok_iff.1 hread
  rw [hevents] at hholds
  have hne : closeText n.name ≠ [] := by simp [closeText]
  -- the marker and the end tag behind it
  have hmarked : ∀ {name}, Event.Takes Event.read (.endTag name) (closeText n.name) [] →
      ReadsAs (nodeText m ++ closeText n.name) [event, .endTag name] [] := fun hend =>
    (hm.reads (closeText n.name ++ [])).append (.of_takes hne hend)
  rw [head?_lastTag] at hfront
  by_cases hhollow : n.isHollow = true
  · obtain ⟨-, d, -, hend, -⟩ := @EndsAs.exists_readsAs [] (closeText n.name) hne hclose
    obtain ⟨whole, blanks, rfl, hwhole, hblanks, hname⟩ := exists_of_takes_closeText hend
    rw [lastTag, if_pos hhollow] at htakes
    obtain ⟨attributes, rfl, hopened⟩ := exists_of_takes_emptyText hwhole hblanks hname htakes
    obtain ⟨rfl, hnew⟩ := hholds.putInside hm.bracket
    rw [hm.parts] at hnew
    have hopen := ReadsAs.of_takes (by simp) (hopened (nodeText m ++ closeText n.name ++ []))
    have hreads := (hfront _ (by rfl)).append (hopen.append (hmarked hend))
    refine ⟨_, attributes, [], rfl, ?_⟩
    rw [if_pos hhollow, List.append_assoc]
    exact ofMarkup_of_readsAs hreads hnew keepAll
  · rw [lastTag, if_neg hhollow] at htakes
    obtain ⟨whole, -, rfl, -⟩ := exists_of_takes_closeText htakes
    obtain ⟨attributes, parts, rfl, hnew⟩ := hholds.putLast hm.bracket
    rw [hm.parts] at hnew
    have hhead : (nodeText m ++ closeText n.name ++ []).head? = some '<' := by
      rw [List.append_assoc, List.head?_append, head?_nodeText]
      rfl
    have hreads := (hfront _ hhead).append (hmarked htakes)
    refine ⟨_, attributes, parts, rfl, ?_⟩
    rw [if_neg hhollow]
    exact ofMarkup_of_readsAs hreads hnew keepAll

end Reading

/-! ## Creating markers -/

/-- `create` puts the marker under the element, and in what is then read of its output the marker is
created as well: there is one node more than in the copy, the last child of the root. -/
def CreatedAlike (create : Document → NodeId → Except TreeError (NodeId × Document)) (m : Node)
    (doc : Document) (p : NodeId) (declaration : Bool) (copy : Document) : Prop :=
  ∃ id edited s marked root,
    create doc p = .ok (id, edited) ∧ edited.toMarkup ⟨none, declaration⟩ p = .ok s ∧
    Document.ofMarkup ⟨true, true⟩ s.toList = .ok marked ∧
    marked.size = copy.size + 1 ∧ marked.documentElement = some root ∧
    (marked.children root).getLast? = some copy.size ∧
    marked.node? copy.size = some { m with parent := some root } ∧
    create copy root = .ok (copy.size, marked)

section Creating

variable {doc copy : Document} {p : NodeId} {n m : Node} {event : Event} {part : Part}
  {declaration : Bool} {s : String}

/-- A marker that is created last in an element is written in front of the closing tag and read back
there: the copy gains it, too. -/
theorem Node.Marks.createdAlike (hm : m.Marks event part) (hwf : doc.WellFormed)
    (hp : doc.node? p = some n) (helement : n.isElement = true)
    (hprint : doc.toMarkup ⟨none, declaration⟩ p = .ok s)
    (hread : Document.ofMarkup ⟨true, true⟩ s.toList = .ok copy)
    (hlast : EndsAs (lastTag n) s.toList) (hclose : EndsAs (closeText n.name) (closeText n.name)) :
    CreatedAlike (·.createUnder · m) m doc p declaration copy := by
  obtain ⟨front, hbefore, hafter⟩ := exists_toMarkup_pushChild hwf hp helement hm declaration
  obtain rfl : s = String.ofList (front ++ lastTag n) :=
    Except.ok.inj (hprint.symm.trans hbefore)
  rw [String.toList_ofList] at hread hlast
  obtain ⟨name, attributes, parts, rfl, hmarked⟩ := exists_ofMarkup_marked hm hread hlast hclose
  have hroot : ((Part.element name attributes parts).document keepAll).isElement 0 = true := rfl
  have hlt := Document.lt_size_of_isElement hroot
  rw [document_append hm] at hmarked
  refine ⟨_, _, _, _, 0, Document.createUnder_eq_ok (doc.isElement_iff.2 ⟨n, hp, helement⟩), hafter,
    by rwa [String.toList_ofList], Document.size_pushChild .., rfl, ?_, ?_,
    Document.createUnder_eq_ok hroot⟩
  · have hchildren : ((Part.element name attributes parts).document keepAll).node? 0 =
        some ⟨.element name attributes (Part.heads keepAll 1 parts), Part.ownText keepAll parts,
          none⟩ := rfl
    rw [Document.children, Document.node?_pushChild hlt, if_neg (Nat.ne_of_lt hlt), if_pos rfl,
      hchildren]
    exact List.getLast?_concat
  · rw [Document.node?_pushChild hlt, if_pos rfl]

/-- Let the output of an element be read, in such a way that its last tag is an event of its own and
that its end tag is read whole. Then a comment or a section of character data that is created under
the element comes back when the new output is read, unless its body holds its own end: there is one
node more, the last child of the root is the marker with this body, and nothing else has changed. -/
theorem created_markers_read_back (h : Reachable doc) (hp : doc.node? p = some n)
    (helement : n.isElement = true) (hprint : doc.toMarkup ⟨none, declaration⟩ p = .ok s)
    (hread : Document.ofMarkup ⟨true, true⟩ s.toList = .ok copy)
    (hlast : EndsAs (lastTag n) s.toList) (hclose : EndsAs (closeText n.name) (closeText n.name))
    (body : String) :
    (¬ "-->".toList <:+: body.toList →
      CreatedAlike (·.createComment · body) (Node.ofComment body) doc p declaration copy) ∧
    (¬ "]]>".toList <:+: body.toList →
      CreatedAlike (·.createCData · body) (Node.ofCData body) doc p declaration copy) := by
  have hmarked : ∀ {m : Node} {event : Event} {part : Part}, m.Marks event part →
      CreatedAlike (·.createUnder · m) m doc p declaration copy := fun hm =>
    hm.createdAlike h.wellFormed hp helement hprint hread hlast hclose
  exact ⟨fun hbody => hmarked (Node.marks_ofComment hbody),
    fun hbody => hmarked (Node.marks_ofCData hbody)⟩

end Creating

/-- An element with an attribute, a text, a child with nothing in it, and a comment. -/
def annotatedDocument : Document :=
  [Edit.setAttribute 0 "k" "/>", .setText 0 "]]>", .createChild 0 (.named "b") (.named "b"),
    .createComment 0 "<b>"].foldl Document.after (Document.withRoot (.named "a"))

theorem created_markers_read_back_annotated :
    annotatedDocument.toMarkup ⟨none, false⟩ 0 =
        .ok "<a k=\"/&gt;\">]]&gt;<b/><!--<b>--></a>" ∧
      CreatedAlike (·.createComment · "->]]></a>-") (Node.ofComment "->]]></a>-")
        annotatedDocument 0 false annotatedDocument ∧
      annotatedDocument.toMarkup ⟨none, true⟩ 1 =
        .ok "<?xml version=\"1.0\" encoding=\"UTF-8\"?><b/>" ∧
      CreatedAlike (·.createCData · "<!---->]]") (Node.ofCData "<!---->]]")
        annotatedDocument 1 true (Document.withRoot (.named "b")) := by
  have hreachable : Reachable annotatedDocument := (Reachable.withRoot (.named "a")).run _
  have hprint : annotatedDocument.toMarkup ⟨none, false⟩ 0 =
      .ok "<a k=\"/&gt;\">]]&gt;<b/><!--<b>--></a>" := by decide +kernel
  have hprint' : annotatedDocument.toMarkup ⟨none, true⟩ 1 =
      .ok "<?xml version=\"1.0\" encoding=\"UTF-8\"?><b/>" := by decide +kernel
  have hnode : annotatedDocument.node? 0 =
      some ⟨.element "a" [⟨"k", "/>"⟩] [1, 2], some "]]>", none⟩ := by decide +kernel
  have hnode' : annotatedDocument.node? 1 = some ⟨.element "b" [] [], none, some 0⟩ := by
    decide +kernel
  have hread : Document.ofMarkup ⟨true, true⟩
      "<a k=\"/&gt;\">]]&gt;<b/><!--<b>--></a>".toList = .ok annotatedDocument := by decide +kernel
  have hread' : Document.ofMarkup ⟨true, true⟩
      "<?xml version=\"1.0\" encoding=\"UTF-8\"?><b/>".toList =
        .ok (Document.withRoot (.named "b")) := by decide +kernel
  have hfilled := created_markers_read_back hreachable hnode rfl hprint hread (by decide +kernel)
    (by decide +kernel) "->]]></a>-"
  have hhollow := created_markers_read_back hreachable hnode' rfl hprint' hread' (by decide +kernel)
    (by decide +kernel) "<!---->]]"
  exact ⟨hprint, hfilled.1 (by decide), hprint', hhollow.2 (by decide)⟩

/-- The output of an element of a reachable document is read into as many nodes as its subtree
has. -/
structure ReadsInto (doc : Document) (p : NodeId) (s : String) (copy : Document) : Prop where
  reachable : Reachable doc
  element : doc.isElement p = true
  print : doc.toMarkup ⟨none, false⟩ p = .ok s
  read : Document.ofMarkup ⟨true, true⟩ s.toList = .ok copy
  size : copy.size = (doc.preorder p).length

/-- With a comment created under the element, its output is read into one node more than the copy
has, and the last child of the root is a comment with this body. -/
def GainsComment (doc : Document) (p : NodeId) (copy : Document) (body : String) : Prop :=
  ∃ id edited s marked root last,
    doc.createComment p body = .ok (id, edited) ∧ edited.toMarkup ⟨none, false⟩ p = .ok s ∧
    Document.ofMarkup ⟨true, true⟩ s.toList = .ok marked ∧ marked.size = copy.size + 1 ∧
    marked.documentElement = some root ∧ (marked.children root).getLast? = some last ∧
    marked.kind? last = some .comment ∧ marked.text? last = some body

/-- The last child of the copy is the comment with its body. -/
theorem GainsComment.exists_read {doc edited copy : Document} {p id : NodeId} {body s : String}
    (h : GainsComment doc p copy body) (hcreate : doc.createComment p body = .ok (id, edited))
    (hprint : edited.toMarkup ⟨none, false⟩ p = .ok s) :
    ∃ marked root last, Document.ofMarkup ⟨true, true⟩ s.toList = .ok marked ∧
      marked.documentElement = some root ∧ (marked.children root).getLast? = some last ∧
      marked.text? last = some body := by
  obtain ⟨id', edited', s', marked, root, last, hcreate', hprint', hread, -, hroot, hlast, -,
    htext⟩ := h
  rw [hcreate] at hcreate'
  cases hcreate'
  rw [hprint] at hprint'
  cases hprint'
  exact ⟨marked, root, last, hread, hroot, hlast, htext⟩

/-- A body that holds its own end is cut off there. -/
theorem not_gainsComment_ownEnd :
    ¬ GainsComment (Document.withRoot (.named "a")) 0 (Document.withRoot (.named "a")) "-->" := by
  intro h
  have hprint : ((Document.withRoot (.named "a")).pushChild 0 (Node.ofComment "-->")).toMarkup
      ⟨none, false⟩ 0 = .ok "<a><!---->--></a>" := by decide +kernel
  have hread : Document.ofMarkup ⟨true, true⟩ "<a><!---->--></a>".toList = .ok
      ⟨#[⟨.element "a" [] [1], some "-->", none⟩, ⟨.comment, some "", some 0⟩], some 0⟩ := by
    decide +kernel
  obtain ⟨marked, root, last, hmarked, hroot, hlast, htext⟩ :=
    h.exists_read (Document.createUnder_eq_ok (by decide +kernel)) hprint
  rw [hread] at hmarked
  cases hmarked
  cases hroot
  cases hlast
  exact absurd htext (by decide)

/-- A new output that is not read has no marker to show. -/
theorem not_gainsComment_of_fault {doc copy : Document} {p : NodeId} {body s : String}
    (helement : doc.isElement p = true)
    (hprint : (doc.pushChild p (Node.ofComment body)).toMarkup ⟨none, false⟩ p = .ok s)
    (hfault : (Document.ofMarkup ⟨true, true⟩ s.toList).isOk = false) :
    ¬ GainsComment doc p copy body := by
  intro h
  obtain ⟨marked, -, -, hmarked, -⟩ := h.exists_read (Document.createUnder_eq_ok helement) hprint
  rw [hmarked] at hfault
  cases hfault

/-- A name that is read as a name and an attribute. -/
def splitName : Document := Document.withRoot (.named "a x=\"1\"")

/-- What is read of its only tag. -/
def splitNameCopy : Document := ⟨#[⟨.element "a" [⟨"x", "1"⟩] [], none, none⟩], some 0⟩

/-- A section of character data whose body holds its own end and an end tag, and then opens a
comment that the printed end tag closes. -/
def swallowedTag : Document :=
  (Document.withRoot (.named "a--")).after (.createCData 0 "]]></a--><!--")

/-- What is read up to the end tag in the body. -/
def swallowedTagCopy : Document :=
  ⟨#[⟨.element "a--" [] [1], none, none⟩, ⟨.cdata, some "", some 0⟩], some 0⟩

/-- None of the conditions can be left out. A body that holds its own end is cut off there. With a
name that is not read whole, an only tag may be read, but not the end tag that the marker needs. And
an earlier marker may swallow the end tag. -/
theorem not_gainsComment :
    (ReadsInto (Document.withRoot (.named "a")) 0 "<a/>" (Document.withRoot (.named "a")) ∧
      EndsAs "<a/>".toList "<a/>".toList ∧ EndsAs (closeText "a") (closeText "a") ∧
      ¬ GainsComment (Document.withRoot (.named "a")) 0 (Document.withRoot (.named "a")) "-->") ∧
    (ReadsInto splitName 0 "<a x=\"1\"/>" splitNameCopy ∧
      EndsAs "<a x=\"1\"/>".toList "<a x=\"1\"/>".toList ∧
      ¬ GainsComment splitName 0 splitNameCopy "") ∧
    ReadsInto swallowedTag 0 "<a--><![CDATA[]]></a--><!--]]></a-->" swallowedTagCopy ∧
      EndsAs (closeText "a--") (closeText "a--") ∧
      ¬ GainsComment swallowedTag 0 swallowedTagCopy "" := by
  have hplain : ReadsInto (Document.withRoot (.named "a")) 0 "<a/>"
      (Document.withRoot (.named "a")) :=
    ⟨.withRoot (.named "a"), by decide +kernel, by decide +kernel, by decide +kernel,
      by decide +kernel⟩
  have hsplit : ReadsInto splitName 0 "<a x=\"1\"/>" splitNameCopy :=
    ⟨.withRoot (.named _), by decide +kernel, by decide +kernel, by decide +kernel,
      by decide +kernel⟩
  have hswallowed : ReadsInto swallowedTag 0 "<a--><![CDATA[]]></a--><!--]]></a-->"
      swallowedTagCopy :=
    ⟨.edit _ (.withRoot (.named _)), by decide +kernel, by decide +kernel, by decide +kernel,
      by decide +kernel⟩
  have hsplitPrint : (splitName.pushChild 0 (Node.ofComment "")).toMarkup ⟨none, false⟩ 0 =
      .ok "<a x=\"1\"><!----></a x=\"1\">" := by decide +kernel
  have hswallowedPrint : (swallowedTag.pushChild 0 (Node.ofComment "")).toMarkup ⟨none, false⟩ 0 =
      .ok "<a--><![CDATA[]]></a--><!--]]><!----></a-->" := by decide +kernel
  exact ⟨⟨hplain, by decide +kernel, by decide +kernel, not_gainsComment_ownEnd⟩,
    ⟨hsplit, by decide +kernel,
      not_gainsComment_of_fault hsplit.element hsplitPrint (by decide +kernel)⟩,
    hswallowed, by decide +kernel,
      not_gainsComment_of_fault hswallowed.element hswallowedPrint (by decide +kernel)⟩

end MarkupPath.Tree
