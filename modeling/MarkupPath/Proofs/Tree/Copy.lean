import MarkupPath.Proofs.Tree.Layout
import MarkupPath.Proofs.Tree.Reachable

/-!
# Printed documents are read back

What is printed of an element without indentation is read as a copy of its subtree, provided that
its names are read whole and its markers do not hold their own end (`ofMarkup_toMarkup_copies`).

`Shows` relates a node to the text that is printed of it and to the part that this text is read as.
It is the layout without line breaks (`Shows.lays`), and the nodes of the part are those of the
subtree, numbered by their places in the walk (`Shows.nodes_eq`).
-/

set_option autoImplicit false

namespace MarkupPath.Tree

open MarkupPath.Markup MarkupPath.Text

mutual

/-- The node is printed as the text, which is read as the part. -/
inductive Shows (doc : Document) : NodeId → List Char → Part → Prop where
  | comment {id : NodeId} {text : Option String} {parent : Option NodeId} :
      doc.node? id = some ⟨.comment, text, parent⟩ →
      Shows doc id (nodeText ⟨.comment, text, parent⟩) (.comment (text.getD ""))
  | cdata {id : NodeId} {text : Option String} {parent : Option NodeId} :
      doc.node? id = some ⟨.cdata, text, parent⟩ →
      Shows doc id (nodeText ⟨.cdata, text, parent⟩) (.cdata (text.getD ""))
  | leaf {id : NodeId} {name : String} {attributes : List Attribute} {text : Option String}
      {parent : Option NodeId} :
      doc.node? id = some ⟨.element name attributes [], text, parent⟩ →
      Shows doc id (nodeText ⟨.element name attributes [], text, parent⟩)
        (.element name attributes (leadParts text))
  | element {id first : NodeId} {name : String} {attributes : List Attribute}
      {later : List NodeId} {text : Option String} {parent : Option NodeId} {cs : List Char}
      {ps : List Part} :
      doc.node? id = some ⟨.element name attributes (first :: later), text, parent⟩ →
      ShowsAll doc (first :: later) cs ps →
      Shows doc id
        (nodeText ⟨.element name attributes (first :: later), text, parent⟩ ++ cs ++ closeText name)
        (.element name attributes (leadParts text ++ ps))

/-- The nodes are printed one after the other as the text, which is read as the parts. -/
inductive ShowsAll (doc : Document) : List NodeId → List Char → List Part → Prop where
  | nil : ShowsAll doc [] [] []
  | cons {id : NodeId} {ids : List NodeId} {cs ds : List Char} {p : Part} {ps : List Part} :
      Shows doc id cs p → ShowsAll doc ids ds ps → ShowsAll doc (id :: ids) (cs ++ ds) (p :: ps)

end

section Showing

variable {doc : Document}

theorem Shows.lt_size {id : NodeId} {cs : List Char} {p : Part} (h : Shows doc id cs p) :
    id < doc.size := by
  cases h with
  | comment hnode => exact Document.lt_size_of_node? hnode
  | cdata hnode => exact Document.lt_size_of_node? hnode
  | leaf hnode => exact Document.lt_size_of_node? hnode
  | element hnode _ => exact Document.lt_size_of_node? hnode

theorem ShowsAll.exists_of_forall {ids : List NodeId}
    (h : ∀ id ∈ ids, ∃ cs p, Shows doc id cs p) : ∃ cs ps, ShowsAll doc ids cs ps := by
  induction ids with
  | nil => exact ⟨[], [], .nil⟩
  | cons id ids ih =>
    obtain ⟨hid, hids⟩ := List.forall_mem_cons.1 h
    obtain ⟨cs, p, hfirst⟩ := hid
    obtain ⟨ds, ps, hlater⟩ := ih hids
    exact ⟨cs ++ ds, p :: ps, .cons hfirst hlater⟩

/-- Every node of a well-formed document is printed. -/
theorem Shows.exists_of_wellFormed (hwf : doc.WellFormed) (id : NodeId) (hid : id < doc.size) :
    ∃ cs p, Shows doc id cs p := by
  induction id using hwf.child_induction with
  | step id ih =>
    cases hnode : doc.node? id with
    | none => exact absurd hid (Nat.not_lt.2 (doc.node?_eq_none_iff.1 hnode))
    | some n =>
      rcases n with ⟨⟨name, attributes, children⟩ | _ | _, text, parent⟩
      · cases children with
        | nil => exact ⟨_, _, .leaf hnode⟩
        | cons first later =>
          have hchildren : doc.children id = first :: later := by
            rw [Document.children, hnode]
            rfl
          have hshown : ∀ c ∈ first :: later, ∃ cs p, Shows doc c cs p := by
            intro c hc
            rw [← hchildren] at hc
            exact ih c (hwf.mem_children_iff.1 hc) (hwf.child_lt_size hc)
          obtain ⟨cs, ps, hall⟩ := ShowsAll.exists_of_forall hshown
          exact ⟨_, _, .element hnode hall⟩
      · exact ⟨_, _, .comment hnode⟩
      · exact ⟨_, _, .cdata hnode⟩

/-! ## The layout in one line -/

variable {layout : PrintOptions}

theorem lineBreak_eq_nil (h : layout.indent = none) (started : Bool) (level : Nat) :
    layout.lineBreak started level = [] := by
  rw [PrintOptions.lineBreak, h]

theorem leadParts_getD (text : Option String) :
    leadParts (some (text.getD "")) = leadParts text := by
  cases text <;> rfl

mutual

/-- Without indentation a node is laid out as it is shown, at any level. -/
theorem Shows.lays (hindent : layout.indent = none) {id : NodeId} {cs : List Char} {p : Part} :
    Shows doc id cs p → ∀ level, Lays doc layout level id cs p
  | .comment hnode, _ => .comment hnode
  | .cdata hnode, _ => .cdata hnode
  | .leaf hnode, _ => .leaf hnode
  | .element hnode hall, level => by
      have hlaid := Lays.element hnode (hall.lays hindent level _)
      rw [leadParts_getD] at hlaid
      simpa [nodeText, Node.kind, Node.children, Node.name] using hlaid

/-- Without line breaks the layout is what is shown, with the text in front. -/
theorem ShowsAll.lays (hindent : layout.indent = none) {ids : List NodeId} {cs : List Char}
    {ps : List Part} :
    ShowsAll doc ids cs ps → ∀ level lead,
      LaysAll doc layout level lead ids (Reference.escapeText lead.toList ++ cs)
        (leadParts (some lead) ++ ps)
  | .nil, level, lead => by
      have hlaid := @LaysAll.nil doc layout level lead
      simpa [lineBreak_eq_nil hindent] using hlaid
  | .cons hfirst hlater, level, lead => by
      have hlaid := @LaysAll.cons _ _ _ lead _ _ _ _ _ _ (hfirst.lays hindent (level + 1))
        (hlater.lays hindent level "")
      simpa [lineBreak_eq_nil hindent] using hlaid

end

/-! ## The nodes that are read -/

/-- The own text that is left of a node: blank text of an element is lost, and a marker always has a
body. -/
def Node.textRead (n : Node) : Option String :=
  if n.isElement then n.text.filter fun text => !text.toList.all isAsciiBlank
  else some (n.text.getD "")

/-- The node with its text as it is read, its children renumbered, and another parent. -/
def Node.copy (g : NodeId → NodeId) (parent : Option NodeId) (n : Node) : Node :=
  { n.mapChildren (List.map g) with text := n.textRead, parent := parent }

section NodeCopy

variable (g : NodeId → NodeId) (parent : Option NodeId) (n : Node)

theorem Node.copy_kind : (n.copy g parent).kind = n.kind := n.mapChildren_kind _

theorem Node.copy_name : (n.copy g parent).name = n.name := n.mapChildren_name _

theorem Node.copy_attributes : (n.copy g parent).attributes = n.attributes :=
  n.mapChildren_attributes _

theorem Node.copy_children : (n.copy g parent).children = n.children.map g := by
  rcases n with ⟨_ | _ | _, _, _⟩ <;> rfl

end NodeCopy

/-- The function numbers the nodes of a walk in order, from `first` on. -/
def Numbers (g : NodeId → NodeId) (first : NodeId) (walk : List NodeId) : Prop :=
  ∀ k x, walk[k]? = some x → g x = first + k

section Numbers

variable {g : NodeId → NodeId} {first : NodeId} {walk later : List NodeId}

theorem Numbers.left (h : Numbers g first (walk ++ later)) : Numbers g first walk :=
  fun k x hk => h k x (by rw [List.getElem?_append_left (List.getElem?_eq_some_iff.1 hk).1, hk])

theorem Numbers.right (h : Numbers g first (walk ++ later)) :
    Numbers g (first + walk.length) later := fun k x hk => by
  rw [Nat.add_assoc]
  exact h _ x (by rw [List.getElem?_append_right (Nat.le_add_right _ _), Nat.add_sub_cancel_left,
    hk])

theorem numbers_idxOf (h : walk.Nodup) : Numbers walk.idxOf 0 walk := by
  intro k x hk
  obtain ⟨hlt, rfl⟩ := List.getElem?_eq_some_iff.1 hk
  exact (h.idxOf_getElem k hlt).trans (Nat.zero_add k).symm

end Numbers

/-- What is read of the own text of an element. -/
theorem ownText_leadParts (text : Option String) {ps : List Part}
    (hps : ps.filterMap (Part.segment? keepAll) = []) :
    Part.ownText keepAll (leadParts text ++ ps) =
      text.filter fun text => !text.toList.all isAsciiBlank := by
  rw [Part.ownText, List.filterMap_append, hps, List.append_nil]
  cases text with
  | none => rfl
  | some text =>
    rw [leadParts]
    split
    · next hempty =>
      rw [Option.filter_some, hempty]
      rfl
    · rw [Option.filter_some]
      by_cases hblank : text.toList.all isAsciiBlank = true
      · simp [Part.segment?, hblank, Part.joined]
      · simp [Part.segment?, hblank, Part.joined]

/-- The parts for the own text of an element make no nodes. -/
theorem nodes_leadParts (name : String) (attributes : List Attribute) (text : Option String)
    (ps : List Part) (parent : Option NodeId) (first : NodeId) :
    (Part.element name attributes (leadParts text ++ ps)).nodes keepAll parent first =
      ⟨.element name attributes (Part.heads keepAll (first + 1) ps),
        Part.ownText keepAll (leadParts text ++ ps), parent⟩ ::
        Part.nodesOf keepAll (some first) (first + 1) ps := by
  have hheads : Part.heads keepAll (first + 1) (leadParts text) = [] := by
    cases text with
    | none => rfl
    | some text => rw [leadParts]; split <;> rfl
  have hnodes : Part.nodesOf keepAll (some first) (first + 1) (leadParts text) = [] := by
    cases text with
    | none => rfl
    | some text => rw [leadParts]; split <;> rfl
  rw [Part.nodes, Part.heads_append, Part.nodesOf_append, hheads, hnodes, sizes_leadParts,
    Nat.add_zero, List.nil_append, List.nil_append]

theorem preorder_of_node? (hwf : doc.WellFormed) {id : NodeId} {n : Node}
    (hnode : doc.node? id = some n) :
    doc.preorder id = id :: n.children.flatMap doc.preorder := by
  rw [hwf.preorder_eq (Document.lt_size_of_node? hnode), Document.children, hnode]

mutual

/-- The part makes as many nodes as the subtree has, and is no text. -/
theorem Shows.size_eq (hwf : doc.WellFormed) {id : NodeId} {cs : List Char} {p : Part} :
    Shows doc id cs p → p.size keepAll = (doc.preorder id).length ∧ p.segment? keepAll = none
  | .comment hnode => by
      rw [preorder_of_node? hwf hnode]
      exact ⟨rfl, rfl⟩
  | .cdata hnode => by
      rw [preorder_of_node? hwf hnode]
      exact ⟨rfl, rfl⟩
  | .leaf hnode => by
      rw [preorder_of_node? hwf hnode, Part.size, sizes_leadParts]
      exact ⟨rfl, rfl⟩
  | .element hnode hall => by
      rw [preorder_of_node? hwf hnode, Part.size, Part.sizes_append, sizes_leadParts,
        (hall.sizes_eq hwf).1, Nat.zero_add]
      exact ⟨rfl, rfl⟩

/-- The parts of children have as many nodes as their subtrees, and no text between them is kept. -/
theorem ShowsAll.sizes_eq (hwf : doc.WellFormed) {ids : List NodeId} {cs : List Char}
    {ps : List Part} :
    ShowsAll doc ids cs ps →
      Part.sizes keepAll ps = (ids.flatMap doc.preorder).length ∧
        ps.filterMap (Part.segment? keepAll) = []
  | .nil => ⟨rfl, rfl⟩
  | .cons hfirst hlater => by
      obtain ⟨hsize, hsegment⟩ := hfirst.size_eq hwf
      obtain ⟨hsizes, hsegments⟩ := hlater.sizes_eq hwf
      rw [Part.sizes, List.flatMap_cons, List.length_append, hsize, hsizes,
        List.filterMap_cons, hsegment, hsegments]
      exact ⟨rfl, rfl⟩

end

variable {g : NodeId → NodeId} {up : NodeId → Option NodeId}

/-- Parts are numbered in the order of the walk. -/
theorem ShowsAll.heads_eq (hwf : doc.WellFormed) {ids : List NodeId} {cs : List Char}
    {ps : List Part} (h : ShowsAll doc ids cs ps) {first : NodeId}
    (hg : Numbers g first (ids.flatMap doc.preorder)) :
    Part.heads keepAll first ps = ids.map g := by
  induction ids generalizing cs ps first with
  | nil =>
    cases h
    rfl
  | cons id ids ih =>
    cases h with
    | cons hfirst hlater =>
      rw [List.flatMap_cons] at hg
      have hwalk := hwf.preorder_eq hfirst.lt_size
      have hid : g id = first := hg.left 0 id (by rw [hwalk]; rfl)
      have hrest := ih hlater hg.right
      rw [← (hfirst.size_eq hwf).1] at hrest
      rw [Part.heads, if_neg (by rw [(hfirst.size_eq hwf).1, hwalk]; exact Nat.succ_ne_zero _),
        hrest, List.map_cons, hid]

/-- The nodes of an element, from those below it. -/
theorem ShowsAll.element_nodes_eq (hwf : doc.WellFormed) {id first : NodeId} {name : String}
    {attributes : List Attribute} {children : List NodeId} {text : Option String}
    {parent : Option NodeId} {cs : List Char} {ps : List Part}
    (hnode : doc.node? id = some ⟨.element name attributes children, text, parent⟩)
    (hall : ShowsAll doc children cs ps)
    (hg : Numbers g (first + 1) (children.flatMap doc.preorder))
    (hbelow : (Part.nodesOf keepAll (some first) (first + 1) ps).map some =
      (children.flatMap doc.preorder).map fun x => (doc.node? x).map (Node.copy g (up x))) :
    ((Part.element name attributes (leadParts text ++ ps)).nodes keepAll (up id) first).map some =
      (doc.preorder id).map fun x => (doc.node? x).map (Node.copy g (up x)) := by
  have hchildren : Node.children ⟨.element name attributes children, text, parent⟩ = children := rfl
  rw [nodes_leadParts, preorder_of_node? hwf hnode, hchildren, List.map_cons, List.map_cons, hbelow,
    hnode, hall.heads_eq hwf hg, ownText_leadParts text (hall.sizes_eq hwf).2]
  rfl

mutual

/-- The nodes of the part are those of the subtree, numbered by their places in the walk. -/
theorem Shows.nodes_eq (hwf : doc.WellFormed) {id first : NodeId} {cs : List Char} {p : Part} :
    Shows doc id cs p → Numbers g first (doc.preorder id) →
    (∀ x ∈ doc.preorder id, ∀ c ∈ doc.children x, up c = some (g x)) →
    (p.nodes keepAll (up id) first).map some =
      (doc.preorder id).map fun x => (doc.node? x).map (Node.copy g (up x))
  | .comment hnode, _, _ => by
      rw [preorder_of_node? hwf hnode, List.map_cons, hnode]
      rfl
  | .cdata hnode, _, _ => by
      rw [preorder_of_node? hwf hnode, List.map_cons, hnode]
      rfl
  | .leaf hnode, _, _ => by
      have hnone : Numbers g (first + 1) ([].flatMap doc.preorder) := fun k x hk => nomatch hk
      have hnodes := @ShowsAll.element_nodes_eq _ _ up hwf _ _ _ _ _ _ _ _ _ hnode .nil hnone rfl
      rwa [List.append_nil] at hnodes
  | .element hnode hall, hg, hup => by
      have hwalk := preorder_of_node? hwf hnode
      have hid : g id = first := hg 0 id (by rw [hwalk]; rfl)
      have hchildren := hup id (by rw [hwalk]; exact List.mem_cons_self)
      rw [Document.children, hnode, hid] at hchildren
      rw [hwalk, ← List.singleton_append] at hg
      rw [hwalk] at hup
      exact hall.element_nodes_eq hwf hnode hg.right (hall.nodes_eq hwf hg.right
        (fun x hx => hup x (List.mem_cons_of_mem _ hx)) hchildren)

/-- The nodes of the parts are copies of the nodes of the subtrees, with their numbers for
identities. -/
theorem ShowsAll.nodes_eq (hwf : doc.WellFormed) {ids : List NodeId} {first : NodeId}
    {parent : Option NodeId} {cs : List Char} {ps : List Part} :
    ShowsAll doc ids cs ps → Numbers g first (ids.flatMap doc.preorder) →
    (∀ x ∈ ids.flatMap doc.preorder, ∀ c ∈ doc.children x, up c = some (g x)) →
    (∀ id ∈ ids, up id = parent) →
    (Part.nodesOf keepAll parent first ps).map some =
      (ids.flatMap doc.preorder).map fun x => (doc.node? x).map (Node.copy g (up x))
  | .nil, _, _, _ => rfl
  | .cons hfirst hlater, hg, hup, hparent => by
      rw [List.flatMap_cons] at hg hup ⊢
      obtain ⟨hid, hids⟩ := List.forall_mem_cons.1 hparent
      have hnodes := hfirst.nodes_eq hwf hg.left
        fun x hx => hup x (List.mem_append_left _ hx)
      have hrest := hg.right
      rw [← (hfirst.size_eq hwf).1] at hrest
      rw [Part.nodesOf, List.map_append, List.map_append, ← hid, hnodes, hid,
        hlater.nodes_eq hwf hrest (fun x hx => hup x (List.mem_append_right _ hx)) hids]

end

end Showing

/-! ## Copies -/

/-- The nodes of the copy are those of a walk of the document, in its order: of the same kind, with
the same names and attributes, related to each other in the same way, and with the text that is
read. -/
structure Document.Copies (doc : Document) (walk : List NodeId) (copy : Document) : Prop where
  size : copy.size = walk.length
  documentElement : copy.documentElement = some 0
  kind : ∀ k id : NodeId, walk[k]? = some id → copy.kind? k = doc.kind? id
  name : ∀ k id : NodeId, walk[k]? = some id → copy.name? k = doc.name? id
  localName : ∀ k id : NodeId, walk[k]? = some id → copy.localName? k = doc.localName? id
  attributes : ∀ k id : NodeId, walk[k]? = some id → copy.attributes k = doc.attributes id
  text : ∀ k id : NodeId, walk[k]? = some id →
    copy.text? k = (doc.node? id).bind Node.textRead
  children : ∀ k id : NodeId, walk[k]? = some id →
    (copy.children k).map (walk[·]?) = (doc.children id).map some
  root : copy.parent? 0 = none
  parent : ∀ k id : NodeId, 0 < k → walk[k]? = some id →
    (copy.parent? k).bind (walk[·]?) = doc.parent? id

section Copies

variable {doc copy : Document} {e : NodeId}

namespace Document

theorem lt_size_of_within {a id : NodeId} (ha : a < doc.size)
    (h : doc.Within a id) : id < doc.size := by
  rcases h with rfl | h
  · exact ha
  · exact h.lt_size

/-- The parents of the copied nodes: none for the first, otherwise those of the nodes. -/
def parentIn (doc : Document) (e : NodeId) (g : NodeId → NodeId) (id : NodeId) : Option NodeId :=
  if id = e then none else (doc.parent? id).map g

theorem WellFormed.parentIn_child (hwf : doc.WellFormed) (he : e < doc.size) (g : NodeId → NodeId) :
    ∀ x ∈ doc.preorder e, ∀ c ∈ doc.children x, doc.parentIn e g c = some (g x) := by
  intro x hx c hc
  have hparent := hwf.mem_children_iff.1 hc
  have hne : c ≠ e := by
    rintro rfl
    exact hwf.acyclic c (((hwf.mem_preorder_iff he).1 hx).trans_ancestor (.parent hparent))
  rw [parentIn, if_neg hne, hparent]
  rfl

/-- A document whose nodes are those of a walk, numbered by their places in it, is a copy of the
subtree that is walked. -/
theorem WellFormed.copies (hwf : doc.WellFormed) (he : e < doc.size)
    (hroot : copy.documentElement = some 0) {g : NodeId → NodeId}
    (hg : Numbers g 0 (doc.preorder e))
    (hnodes : copy.nodes.toList.map some =
      (doc.preorder e).map fun x => (doc.node? x).map (Node.copy g (doc.parentIn e g x))) :
    doc.Copies (doc.preorder e) copy := by
  have hnode : ∀ k id : NodeId, (doc.preorder e)[k]? = some id →
      copy.node? k = (doc.node? id).map (Node.copy g (doc.parentIn e g id)) := by
    intro k id hk
    have hmapped := congrArg (·[k]?) hnodes
    simp only [List.getElem?_map, hk, Option.map_some, Array.getElem?_toList] at hmapped
    obtain ⟨n, hn, heq⟩ := Option.map_eq_some_iff.1 hmapped
    rw [node?, hn, heq]
  have hview : ∀ {β : Type} (view : Node → β),
      (∀ h parent n, view (Node.copy h parent n) = view n) →
      ∀ k id : NodeId, (doc.preorder e)[k]? = some id →
        (copy.node? k).map view = (doc.node? id).map view := by
    intro β view hsame k id hk
    rw [hnode k id hk, Option.map_map]
    congr 1
    funext n
    exact hsame g (doc.parentIn e g id) n
  have hplace : ∀ id, doc.Within e id → (doc.preorder e)[g id]? = some id := by
    intro id hid
    obtain ⟨k, hk⟩ := List.mem_iff_getElem?.1 ((hwf.mem_preorder_iff he).2 hid)
    rw [hg k id hk, Nat.zero_add, hk]
  have hwithin : ∀ {k id : NodeId}, (doc.preorder e)[k]? = some id → doc.Within e id := by
    intro k id hk
    exact (hwf.mem_preorder_iff he).1 (List.mem_of_getElem? hk)
  have hparent : ∀ k id : NodeId, (doc.preorder e)[k]? = some id →
      copy.parent? k = doc.parentIn e g id := by
    intro k id hk
    obtain ⟨n, hn⟩ := exists_node?_of_lt (lt_size_of_within he (hwithin hk))
    rw [parent?, hnode k id hk, hn]
    rfl
  have hfirst : (doc.preorder e)[0]? = some e := by rw [hwf.preorder_eq he]; rfl
  constructor
  case size => simpa [size] using congrArg List.length hnodes
  case documentElement => exact hroot
  case kind => exact hview Node.kind Node.copy_kind
  case name => exact hview Node.name Node.copy_name
  case localName =>
    refine hview Node.localName fun h parent n => ?_
    rw [Node.localName, Node.copy_name]
    rfl
  case attributes =>
    intro k id hk
    rw [attributes_eq_map, hview Node.attributes Node.copy_attributes k id hk, attributes_eq_map]
  case text =>
    intro k id hk
    rw [text?, hnode k id hk, Option.bind_map]
    rfl
  case children =>
    intro k id hk
    have hchildren : copy.children k = (doc.children id).map g := by
      rw [children_eq_map, hnode k id hk, children_eq_map]
      cases doc.node? id with
      | none => rfl
      | some n => exact n.copy_children g _
    rw [hchildren, List.map_map]
    refine List.map_congr_left fun c hc => hplace c ?_
    exact (hwithin hk).trans (Ancestor.parent (hwf.mem_children_iff.1 hc)).within
  case root => rw [hparent 0 e hfirst, parentIn, if_pos rfl]
  case parent =>
    intro k id hpos hk
    have hne : id ≠ e := by
      rintro rfl
      have hlt := (List.getElem?_eq_some_iff.1 hk).1
      exact Nat.ne_of_gt hpos
        ((List.getElem?_inj hlt (hwf.nodup_preorder he)).1 (hk.trans hfirst.symm))
    rw [hparent k id hk, parentIn, if_neg hne]
    rcases hwithin hk with rfl | habove
    · exact absurd rfl hne
    · obtain ⟨p, hp, hep⟩ := ancestor_iff_parent.1 habove
      rw [hp]
      exact hplace p hep

end Document

/-- The part makes no more nodes than the document has. -/
theorem Shows.size_le (hwf : doc.WellFormed) {cs : List Char} {p : Part} (h : Shows doc e cs p) :
    p.size keepAll ≤ doc.size := by
  rw [(h.size_eq hwf).1]
  refine doc.length_le_size_of_nodup (hwf.nodup_preorder h.lt_size) ?_
  intro x hx
  exact Document.lt_size_of_within h.lt_size ((hwf.mem_preorder_iff h.lt_size).1 hx)

/-- What is printed of an element in one line is read, with any options, as the part that the
element is shown as. -/
theorem Shows.exists_ofMarkup_eq (hwf : doc.WellFormed) {cs : List Char} {p : Part}
    (h : Shows doc e cs p) (he : doc.isElement e = true)
    (hspelled : ∀ id, doc.Within e id → ∀ n, doc.node? id = some n → n.Spelled)
    (options : ReadOptions) (declaration : Bool) :
    ∃ s, doc.toMarkup ⟨none, declaration⟩ e = .ok s ∧
      Document.ofMarkup options s.toList = .ok (p.document options) := by
  exact (h.lays rfl 0).exists_ofMarkup_eq hwf (h.size_le hwf) he hspelled options

/-- The document of the part is a copy of the subtree. -/
theorem Shows.copies (hwf : doc.WellFormed) {cs : List Char} {p : Part} (h : Shows doc e cs p) :
    doc.Copies (doc.preorder e) (p.document keepAll) := by
  have hnumbers := numbers_idxOf (hwf.nodup_preorder h.lt_size)
  refine hwf.copies h.lt_size rfl hnumbers ?_
  have hnodes := h.nodes_eq hwf hnumbers (hwf.parentIn_child h.lt_size _)
  rw [Document.parentIn, if_pos rfl] at hnodes
  exact hnodes

end Copies

/-- What is printed of an element of a reachable document in one line, with or without a
declaration, is read as a copy of its subtree if its names are read whole and its markers do not
hold their own end. -/
theorem ofMarkup_toMarkup_copies {doc : Document} (h : Reachable doc) {e : NodeId}
    (he : doc.isElement e = true)
    (hspelled : ∀ id, doc.Within e id → ∀ n, doc.node? id = some n → n.Spelled)
    (declaration : Bool) :
    ∃ s copy, doc.toMarkup ⟨none, declaration⟩ e = .ok s ∧
      Document.ofMarkup ⟨true, true⟩ s.toList = .ok copy ∧ doc.Copies (doc.preorder e) copy := by
  have hwf := h.wellFormed
  obtain ⟨cs, p, hshows⟩ := Shows.exists_of_wellFormed hwf e (Document.lt_size_of_isElement he)
  obtain ⟨s, hprint, hread⟩ := hshows.exists_ofMarkup_eq hwf he hspelled keepAll declaration
  exact ⟨s, p.document keepAll, hprint, hread, hshows.copies hwf⟩

/-- An element with a quote in an attribute, blank text, a comment, and a child with text. -/
def quotedMarkup : Document :=
  [Edit.setAttribute 0 "k" "\"<&", .setText 0 " ", .createComment 0 "c-",
    .createChild 0 (.named "b") (.named "b"), .setText 2 "x>"].foldl Document.after
    (Document.withRoot (.named "a"))

theorem copied_quotedMarkup :
    quotedMarkup.toMarkup ⟨none, true⟩ 0 =
        .ok ("<?xml version=\"1.0\" encoding=\"UTF-8\"?><a k=\"&quot;&lt;&amp;\"> " ++
          "<!--c---><b>x&gt;</b></a>") ∧
      ∃ s copy, quotedMarkup.toMarkup ⟨none, true⟩ 0 = .ok s ∧
        Document.ofMarkup ⟨true, true⟩ s.toList = .ok copy ∧
        quotedMarkup.Copies (quotedMarkup.preorder 0) copy := by
  have hreachable : Reachable quotedMarkup := (Reachable.withRoot (.named "a")).run _
  have hall : ∀ id < quotedMarkup.size, (quotedMarkup.node? id).all (decide ·.Spelled) = true := by
    decide +kernel
  have hspelled : ∀ id, quotedMarkup.Within 0 id → ∀ n, quotedMarkup.node? id = some n →
      n.Spelled := by
    intro id hid n hn
    have hnode := hall id (Document.lt_size_of_within (by decide +kernel) hid)
    rw [hn] at hnode
    exact of_decide_eq_true hnode
  exact ⟨by decide +kernel,
    ofMarkup_toMarkup_copies hreachable (by decide +kernel) hspelled true⟩

end MarkupPath.Tree
