import MarkupPath.Proofs.Tree.Building

/-!
# Options decide about markers only

Whether an event may follow is told by the names of the open tags alone: a construction keeps in
step with its outline whatever the options are (`Assembly.Outlined.step`), so two readings of one
text fail with the same fault or both succeed (`agree_ofMarkup`). In the second case both documents
are made of the same parts, and without their markers, numbered anew, they have the same elements
(`Part.withoutMarkers_document`). `ofMarkup_options` puts the two together.
-/

set_option autoImplicit false

namespace MarkupPath.Tree

open MarkupPath.Markup MarkupPath.Text

/-! ## Documents without markers -/

namespace Document

/-- Number of elements that were created before a node. -/
def rank (doc : Document) (id : NodeId) : NodeId := (List.range id).countP doc.isElement

/-- A node with the elements among its children and its parent numbered by rank. -/
def relink (doc : Document) (n : Node) : Node :=
  { n.mapChildren fun children => (children.filter doc.isElement).map doc.rank with
    parent := n.parent.map doc.rank }

/-- The document without comments and CDATA sections, its elements numbered anew in order. -/
def withoutMarkers (doc : Document) : Document :=
  ⟨(doc.nodes.filter Node.isElement).map doc.relink, doc.documentElement.map doc.rank⟩

/-- The document without the own texts of its nodes. -/
def withoutTexts (doc : Document) : Document :=
  { doc with nodes := doc.nodes.map fun n => { n with text := none } }

theorem rank_succ (doc : Document) (id : NodeId) :
    doc.rank (id + 1) = doc.rank id + if doc.isElement id then 1 else 0 := by
  rw [rank, List.range_succ, List.countP_append, List.countP_singleton, rank]

theorem rank_succ_of_node? {doc : Document} {id : NodeId} {n : Node}
    (h : doc.node? id = some n) :
    doc.rank (id + 1) = doc.rank id + if n.isElement then 1 else 0 := by
  have helement : doc.isElement id = n.isElement := by
    rw [isElement, kind?, h]
    rfl
  rw [rank_succ, helement]

end Document

namespace Part

variable (options : ReadOptions)

mutual

/-- The elements of a part under a parent, numbered from `id` on without the markers. -/
def elements (parent : Option NodeId) (id : NodeId) : Part → List Node
  | .element name attributes parts =>
      ⟨.element name attributes (heads .default (id + 1) parts), ownText options parts, parent⟩ ::
        elementsOf (some id) (id + 1) parts
  | _ => []

/-- The elements of parts under a parent, numbered from `id` on without the markers. -/
def elementsOf (parent : Option NodeId) (id : NodeId) : List Part → List Node
  | [] => []
  | p :: ps => p.elements parent id ++ elementsOf parent (id + p.size .default) ps

end

section

variable {options} {doc : Document}

mutual

/-- A part takes as many ranks as it has elements. -/
theorem rank_add_size {parent : Option NodeId} {id : NodeId} :
    ∀ p : Part, Stands doc id (p.nodes options parent id) →
      doc.rank (id + p.size options) = doc.rank id + p.size .default
  | .text _, _ => rfl
  | .cdata content, h => by
      rw [nodes] at h
      by_cases hkeep : options.keepCData = true
      · rw [if_pos hkeep] at h
        rw [size, if_pos hkeep, Document.rank_succ_of_node? (h 0 _ rfl)]
        rfl
      · rw [size, if_neg hkeep]
        rfl
  | .comment content, h => by
      rw [nodes] at h
      by_cases hkeep : options.keepComments = true
      · rw [if_pos hkeep] at h
        rw [size, if_pos hkeep, Document.rank_succ_of_node? (h 0 _ rfl)]
        rfl
      · rw [size, if_neg hkeep]
        rfl
  | .element name attributes parts, h => by
      rw [nodes] at h
      have hnode : doc.rank (id + 1) = doc.rank id + 1 :=
        Document.rank_succ_of_node? (h 0 _ rfl)
      have hparts := rank_add_sizes parts (Stands.right (List.singleton_append ▸ h))
      rw [List.length_singleton] at hparts
      rw [size, size, Nat.add_comm (sizes options parts), ← Nat.add_assoc, hparts, hnode,
        Nat.add_assoc, Nat.add_comm 1]

theorem rank_add_sizes {parent : Option NodeId} {id : NodeId} :
    ∀ ps : List Part, Stands doc id (nodesOf options parent id ps) →
      doc.rank (id + sizes options ps) = doc.rank id + sizes .default ps
  | [], _ => rfl
  | p :: ps, h => by
      rw [nodesOf] at h
      have hrest := h.right
      rw [length_nodes] at hrest
      rw [sizes, sizes, ← Nat.add_assoc, rank_add_sizes ps hrest, rank_add_size p h.left,
        Nat.add_assoc]

end

/-- The first node of a part is an element if the part has elements. -/
theorem isElement_first {parent : Option NodeId} {id : NodeId} {p : Part}
    (h : Stands doc id (p.nodes options parent id)) (hsize : p.size options ≠ 0) :
    doc.isElement id = (p.size .default != 0) := by
  have hfirst : ∀ n rest, p.nodes options parent id = n :: rest →
      doc.isElement id = n.isElement := by
    intro n rest hnodes
    rw [hnodes] at h
    have hnode : doc.node? id = some n := h 0 n rfl
    rw [Document.isElement, Document.kind?, hnode]
    rfl
  rw [← length_nodes options parent id] at hsize
  cases p with
  | text content => exact absurd rfl hsize
  | cdata content =>
      rw [nodes] at hsize hfirst
      split at hsize
      · next hkeep => exact hfirst _ [] (if_pos hkeep)
      · exact absurd rfl hsize
  | comment content =>
      rw [nodes] at hsize hfirst
      split at hsize
      · next hkeep => exact hfirst _ [] (if_pos hkeep)
      · exact absurd rfl hsize
  | element name attributes parts =>
      rw [nodes] at hfirst
      rw [hfirst _ _ rfl, size]
      rfl

/-- The elements among the first nodes of parts, numbered by rank. -/
theorem map_rank_heads {parent : Option NodeId} {id : NodeId} {ps : List Part}
    (h : Stands doc id (nodesOf options parent id ps)) :
    ((heads options id ps).filter doc.isElement).map doc.rank =
      heads .default (doc.rank id) ps := by
  induction ps generalizing id with
  | nil => rfl
  | cons p ps ih =>
      rw [nodesOf] at h
      have hrest := h.right
      rw [length_nodes] at hrest
      have hrank := rank_add_size p h.left
      have hlater := ih hrest
      rw [hrank] at hlater
      rw [heads, heads]
      by_cases hnone : p.size options = 0
      · rw [hnone] at hrank hlater
        have hdefault : p.size .default = 0 := Nat.add_left_cancel hrank.symm
        rw [if_pos hnone, if_pos hdefault]
        rwa [hdefault] at hlater
      · rw [if_neg hnone, List.filter_cons, isElement_first h.left hnone]
        by_cases hmarker : p.size .default = 0
        · -- a marker is no child any more
          rw [if_pos hmarker, if_neg (by rw [hmarker]; decide)]
          rwa [hmarker] at hlater
        · rw [if_neg hmarker, if_pos (bne_iff_ne.2 hmarker), List.map_cons, hlater]

mutual

/-- The elements among the nodes of a part, numbered anew. -/
theorem map_relink_nodes {parent : Option NodeId} {id : NodeId} :
    ∀ p : Part, Stands doc id (p.nodes options parent id) →
      ((p.nodes options parent id).filter Node.isElement).map doc.relink =
        p.elements options (parent.map doc.rank) (doc.rank id)
  | .text _, _ => rfl
  | .cdata content, _ => by
      rw [nodes]
      split <;> rfl
  | .comment content, _ => by
      rw [nodes]
      split <;> rfl
  | .element name attributes parts, h => by
      rw [nodes] at h
      have hnode : doc.rank (id + 1) = doc.rank id + 1 :=
        Document.rank_succ_of_node? (h 0 _ rfl)
      have hbelow : Stands doc (id + 1) (nodesOf options (some id) (id + 1) parts) :=
        Stands.right (List.singleton_append ▸ h)
      have hparts := map_relink_nodesOf parts hbelow
      have hheads := map_rank_heads hbelow
      rw [hnode] at hparts hheads
      rw [nodes, elements, List.filter_cons_of_pos rfl, List.map_cons, hparts]
      simp only [Document.relink, Node.mapChildren, hheads, Option.map_some]

theorem map_relink_nodesOf {parent : Option NodeId} {id : NodeId} :
    ∀ ps : List Part, Stands doc id (nodesOf options parent id ps) →
      ((nodesOf options parent id ps).filter Node.isElement).map doc.relink =
        elementsOf options (parent.map doc.rank) (doc.rank id) ps
  | [], _ => rfl
  | p :: ps, h => by
      rw [nodesOf] at h
      have hrest := h.right
      rw [length_nodes] at hrest
      rw [nodesOf, elementsOf, List.filter_append, List.map_append, map_relink_nodes p h.left,
        map_relink_nodesOf ps hrest, rank_add_size p h.left]

end

end

/-- Without its markers the document of a part is made of the part's elements. -/
theorem withoutMarkers_document (p : Part) :
    (p.document options).withoutMarkers = ⟨(p.elements options none 0).toArray, some 0⟩ := by
  have hstands : Stands (p.document options) 0 (p.nodes options none 0) := by
    intro k n hk
    rw [Nat.zero_add, document, Document.node?, List.getElem?_toArray, hk]
  have hnodes := map_relink_nodes p hstands
  rw [Document.withoutMarkers, document, List.filter_toArray, List.map_toArray]
  exact congrArg (fun ns : List Node => Document.mk ns.toArray (some 0)) hnodes

/-! ## What the options decide -/

variable {options} {options' : ReadOptions}

/-- Comments add nothing to an own text. -/
theorem ownText_congr (h : options.keepCData = options'.keepCData) (parts : List Part) :
    ownText options parts = ownText options' parts := by
  have hsegment : segment? options = segment? options' := by
    funext p
    cases p <;> simp only [segment?, h]
  rw [ownText, ownText, hsegment]

mutual

theorem elements_congr (h : options.keepCData = options'.keepCData) (parent : Option NodeId)
    (id : NodeId) : ∀ p : Part, p.elements options parent id = p.elements options' parent id
  | .text _ | .cdata _ | .comment _ => rfl
  | .element name attributes parts => by
      rw [elements, elements, ownText_congr h, elementsOf_congr h]

theorem elementsOf_congr (h : options.keepCData = options'.keepCData) (parent : Option NodeId)
    (id : NodeId) :
    ∀ ps : List Part, elementsOf options parent id ps = elementsOf options' parent id ps
  | [] => rfl
  | p :: ps => by rw [elementsOf, elementsOf, elements_congr h, elementsOf_congr h]

end

mutual

/-- But for their own texts the elements do not depend on the options. -/
theorem map_elements_congr (parent : Option NodeId) (id : NodeId) :
    ∀ p : Part, (p.elements options parent id).map (fun n => { n with text := none }) =
      (p.elements options' parent id).map (fun n => { n with text := none })
  | .text _ | .cdata _ | .comment _ => rfl
  | .element name attributes parts => by
      rw [elements, elements, List.map_cons, List.map_cons, map_elementsOf_congr]

theorem map_elementsOf_congr (parent : Option NodeId) (id : NodeId) :
    ∀ ps : List Part, (elementsOf options parent id ps).map (fun n => { n with text := none }) =
      (elementsOf options' parent id ps).map (fun n => { n with text := none })
  | [] => rfl
  | p :: ps => by
      rw [elementsOf, elementsOf, List.map_append, List.map_append, map_elements_congr,
        map_elementsOf_congr]

end

end Part

/-! ## Fails alike -/

/-- Both fail with the same fault, or both succeed with results in a relation. -/
def Agree {α β : Type} (relation : α → β → Prop) (m : Except ReadError α)
    (m' : Except ReadError β) : Prop :=
  (∃ e, m = .error e ∧ m' = .error e) ∨ ∃ a b, m = .ok a ∧ m' = .ok b ∧ relation a b

section

variable {α α' β β' : Type} {R : α → α' → Prop} {Q : β → β' → Prop}

theorem Agree.ok {a : α} {a' : α'} (h : R a a') : Agree R (.ok a) (.ok a') :=
  .inr ⟨a, a', rfl, rfl, h⟩

theorem Agree.error (e : ReadError) : Agree R (.error e) (.error e) := .inl ⟨e, rfl, rfl⟩

theorem Agree.mono {R' : α → α' → Prop} {m : Except ReadError α} {m' : Except ReadError α'}
    (h : Agree R m m') (himp : ∀ a a', R a a' → R' a a') : Agree R' m m' :=
  h.imp_right fun ⟨a, a', ha, ha', hr⟩ => ⟨a, a', ha, ha', himp a a' hr⟩

theorem Agree.bind {m : Except ReadError α} {m' : Except ReadError α'}
    {f : α → Except ReadError β} {f' : α' → Except ReadError β'} (hm : Agree R m m')
    (hf : ∀ a a', R a a' → Agree Q (f a) (f' a')) : Agree Q (m >>= f) (m' >>= f') := by
  obtain ⟨e, rfl, rfl⟩ | ⟨a, a', rfl, rfl, h⟩ := hm
  · exact .error e
  · exact hf a a' h

theorem Agree.foldlM {γ : Type} {f : α → γ → Except ReadError α}
    {f' : α' → γ → Except ReadError α'}
    (hf : ∀ a a' c, R a a' → Agree R (f a c) (f' a' c)) {a : α} {a' : α'} (h : R a a')
    (cs : List γ) : Agree R (cs.foldlM f a) (cs.foldlM f' a') := by
  induction cs generalizing a a' with
  | nil => exact .ok h
  | cons c cs ih =>
      rw [List.foldlM_cons, List.foldlM_cons]
      exact (hf a a' c h).bind fun b b' hb => ih hb

end

namespace Document

variable (doc : Document) {id j : NodeId}

theorem name?_modify {f : Node → Node} (hf : ∀ n, (f n).name = n.name) (j : NodeId) :
    (doc.modify id f).name? j = doc.name? j :=
  doc.map_node?_modify id f Node.name hf j

theorem name?_push (n : Node) (j : NodeId) :
    (doc.push n).name? j = if j = doc.size then some n.name else doc.name? j := by
  rw [name?, node?_push]
  split <;> rfl

theorem name?_pushChild (parent : NodeId) (n : Node) (j : NodeId) :
    (doc.pushChild parent n).name? j = if j = doc.size then some n.name else doc.name? j := by
  have hparent : ∀ m : Node, { m with parent := some parent }.name = m.name := fun _ => rfl
  rw [← name?_push, pushChild, name?, node?_attach, ← name?, name?_modify _ hparent,
    name?_modify _ (Node.mapChildren_name · _)]

@[simp] theorem size_pushChild (parent : NodeId) (n : Node) :
    (doc.pushChild parent n).size = doc.size + 1 := by
  rw [pushChild, size_attach, size_push]

end Document

/-! ## Nesting -/

/-- The names and places of the open tags, innermost first, and whether there was a root: all that
decides whether an event may follow. -/
structure Outline where
  opened : List (String × Nat)
  started : Bool

namespace Outline

/-- Nothing is read. -/
def start : Outline := ⟨[], false⟩

/-- The outline with an element that starts at a byte. -/
def addElement (o : Outline) (offset : Nat) : Except ReadError Outline :=
  match o.opened, o.started with
  | _ :: _, _ => .ok o
  | [], true => .error ⟨.secondRoot, offset⟩
  | [], false => .ok { o with started := true }

/-- The outline behind an event that has to stand inside an element. -/
def inside (o : Outline) (e : ReadError) : Except ReadError Outline :=
  if o.opened.isEmpty then .error e else .ok o

/-- The outline with one more event. -/
def step (o : Outline) (e : Located) : Except ReadError Outline :=
  match e.event with
  | .startTag name _ => do
      let next ← o.addElement e.start
      return { next with opened := (name, e.start) :: next.opened }
  | .emptyTag _ _ => o.addElement e.start
  | .endTag name =>
      match o.opened with
      | [] => .error ⟨.unexpectedEnd name, e.start⟩
      | (expected, _) :: opened =>
          if expected == name then .ok { o with opened := opened }
          else .error ⟨.mismatchedEnd expected name, e.start⟩
  | .text content =>
      if content.toList.all isAsciiBlank then .ok o else o.inside ⟨.textOutside, e.start⟩
  | .cdata _ => o.inside ⟨.cdataOutside, e.start⟩
  | _ => .ok o

/-- The text may end here, at the byte `stop`. -/
def finish (o : Outline) (stop : Nat) : Except ReadError Unit :=
  match o.opened, o.started with
  | (name, offset) :: _, _ => .error ⟨.unclosed name, offset⟩
  | [], false => .error ⟨.noRoot, stop⟩
  | [], true => .ok ()

/-- The first fault of a text, if it has one. -/
def check (text : List Char) : Except ReadError Unit := do
  let o ← (transcript text).events.foldlM step start
  match (transcript text).failure with
  | some e => throw e
  | none => o.finish (byteLength text)

end Outline

namespace Assembly

variable {a : Assembly} {options : ReadOptions}

/-- The outline of a construction. -/
def outline (a : Assembly) : Outline :=
  ⟨a.opened.map fun entry => ((a.document.name? entry.1).getD "", entry.2), a.root.isSome⟩

/-- The open elements are nodes, and the outline is that of the construction. -/
structure Outlined (a : Assembly) (o : Outline) : Prop where
  known : ∀ entry ∈ a.opened, entry.1 < a.document.size
  outline_eq : a.outline = o

/-- A document that keeps the nodes and their names keeps the outline. -/
theorem Outlined.withDocument {o : Outline} (h : a.Outlined o) {doc : Document}
    (hsize : a.document.size ≤ doc.size)
    (hname : ∀ id < a.document.size, doc.name? id = a.document.name? id) :
    Outlined { a with document := doc } o where
  known entry hentry := Nat.lt_of_lt_of_le (h.known entry hentry) hsize
  outline_eq := by
    rw [← h.outline_eq, outline, outline]
    congr 1
    refine List.map_congr_left fun entry hentry => ?_
    rw [hname _ (h.known entry hentry)]

theorem Outlined.pushChild {o : Outline} (h : a.Outlined o) (parent : NodeId) (n : Node) :
    Outlined { a with document := a.document.pushChild parent n } o := by
  refine h.withDocument (by rw [Document.size_pushChild]; exact Nat.le_succ _) fun id hid => ?_
  rw [Document.name?_pushChild, if_neg (Nat.ne_of_lt hid)]

theorem Outlined.addText {o : Outline} (h : a.Outlined o) (id : NodeId) (segment : String) :
    (a.addText id segment).Outlined o := by
  have htext : ∀ n : Node, { n with text := some (n.text.getD "" ++ segment) }.name = n.name :=
    fun _ => rfl
  rw [Assembly.addText]
  refine h.withDocument (Nat.le_of_eq ?_) fun j _ => a.document.name?_modify htext j
  rw [Document.size_modify]

/-- A new element stands in the outline as it does in the construction. -/
theorem Outlined.addElement {o : Outline} (h : a.Outlined o) (spec : ElementSpec) (offset : Nat) :
    Agree (fun (next : Assembly) o' => next.Outlined o' ∧
        next.document.name? a.document.size = some spec.name ∧
        a.document.size < next.document.size)
      (a.addElement spec offset) (o.addElement offset) := by
  obtain ⟨doc, opened, root⟩ := a
  obtain rfl := h.outline_eq
  match opened, root with
  | (parent, _) :: _, root =>
      refine .ok ⟨h.pushChild parent spec.node, ?_, ?_⟩
      · exact (doc.name?_pushChild parent spec.node doc.size).trans (if_pos rfl)
      · rw [Document.size_pushChild]
        exact Nat.lt_succ_self _
  | [], some root => exact .error _
  | [], none =>
      refine .ok ⟨⟨List.forall_mem_nil _, rfl⟩, ?_, ?_⟩
      · exact (doc.name?_push spec.node doc.size).trans (if_pos rfl)
      · rw [Document.size_push]
        exact Nat.lt_succ_self _

/-- Whether an event may follow, and with which fault not, is told by the outline. -/
theorem Outlined.step {o : Outline} (h : a.Outlined o) (e : Located) :
    Agree Outlined (a.step options e) (o.step e) := by
  rw [Assembly.step, Outline.step]
  cases e.event with
  | startTag name attributes =>
      refine (h.addElement _ _).bind ?_
      rintro next o' ⟨hnext, hname, hsize⟩
      refine .ok ⟨?_, ?_⟩
      · exact List.forall_mem_cons.2 ⟨hsize, hnext.known⟩
      · rw [outline, List.map_cons, hname, ← hnext.outline_eq]
        rfl
  | emptyTag name attributes => exact (h.addElement _ _).mono fun _ _ hnext => hnext.1
  | endTag name =>
      obtain ⟨doc, opened, root⟩ := a
      obtain rfl := h.outline_eq
      cases opened with
      | nil => exact .error _
      | cons entry opened =>
          simp only [outline, List.map_cons]
          split
          · exact .ok ⟨(List.forall_mem_cons.1 h.known).2, rfl⟩
          · exact .error _
  | text content =>
      dsimp only
      split
      · exact .ok h
      · obtain ⟨doc, opened, root⟩ := a
        obtain rfl := h.outline_eq
        cases opened with
        | nil => exact .error _
        | cons entry opened => exact .ok (h.addText entry.1 content)
  | cdata content =>
      obtain ⟨doc, opened, root⟩ := a
      obtain rfl := h.outline_eq
      cases opened with
      | nil => exact .error _
      | cons entry opened =>
          dsimp only
          split
          · exact .ok (h.pushChild entry.1 _)
          · exact .ok (h.addText entry.1 content)
  | comment content =>
      obtain ⟨doc, opened, root⟩ := a
      cases opened with
      | nil => exact .ok h
      | cons entry opened =>
          dsimp only
          split
          · exact .ok (h.pushChild entry.1 _)
          · exact .ok h
  | _ => exact .ok h

/-- Whether a text may end, and with which fault not, is told by the outline. -/
theorem Outlined.finish {o : Outline} (h : a.Outlined o) (stop : Nat) :
    Agree (fun _ _ => True) (a.finish stop) (o.finish stop) := by
  obtain ⟨doc, opened, root⟩ := a
  obtain rfl := h.outline_eq
  match opened, root with
  | _ :: _, _ => exact .error _
  | [], none => exact .error _
  | [], some _ => exact .ok trivial

end Assembly

/-- A text is accepted, or refused with a fault, by its outline alone. -/
theorem agree_ofMarkup (options : ReadOptions) (text : List Char) :
    Agree (fun _ _ => True) (Document.ofMarkup options text) (Outline.check text) := by
  have hstart : Assembly.start.Outlined Outline.start := ⟨List.forall_mem_nil _, rfl⟩
  refine (Agree.foldlM (fun a o e ha => ha.step e) hstart _).bind fun a o ha => ?_
  cases (transcript text).failure with
  | some e => exact .error e
  | none => exact ha.finish _

/-! ## Two readings of a text -/

/-- Options decide about markers only. Two readings of a text fail with the same fault, or both
succeed; and then their documents, without the markers, differ at most in the own texts of the
elements, and not at all if both keep CDATA sections or neither does. -/
theorem ofMarkup_options (options options' : ReadOptions) (text : List Char) :
    (∃ e, Document.ofMarkup options text = .error e ∧
      Document.ofMarkup options' text = .error e) ∨
    ∃ doc doc', Document.ofMarkup options text = .ok doc ∧
      Document.ofMarkup options' text = .ok doc' ∧
      doc.withoutMarkers.withoutTexts = doc'.withoutMarkers.withoutTexts ∧
      (options.keepCData = options'.keepCData → doc.withoutMarkers = doc'.withoutMarkers) := by
  obtain ⟨e, herror, hcheck⟩ | ⟨doc, -, hdoc, -⟩ := agree_ofMarkup options text
  · obtain ⟨e', herror', hcheck'⟩ | ⟨doc', u, -, hcheck', -⟩ := agree_ofMarkup options' text
    · rw [hcheck] at hcheck'
      cases hcheck'
      exact .inl ⟨e, herror, herror'⟩
    · rw [hcheck] at hcheck'
      cases hcheck'
  · -- both documents are made of the parts of the one element that the text holds
    obtain ⟨hfailure, p, hp, rfl⟩ := ofMarkup_eq_ok_iff.1 hdoc
    have hdoc' : Document.ofMarkup options' text = .ok (p.document options') :=
      ofMarkup_eq_ok_iff.2 ⟨hfailure, p, hp, rfl⟩
    refine .inr ⟨_, _, hdoc, hdoc', ?_, fun h => ?_⟩
    · rw [Part.withoutMarkers_document, Part.withoutMarkers_document, Document.withoutTexts,
        Document.withoutTexts, List.map_toArray, List.map_toArray, Part.map_elements_congr]
    · rw [Part.withoutMarkers_document, Part.withoutMarkers_document, Part.elements_congr h]

/-- Without the comment and the CDATA section the elements are numbered from zero again. -/
example :
    Document.withoutMarkers ⟨#[⟨.element "a" [] [1, 2, 3], some "x", none⟩,
        ⟨.comment, some "c", some 0⟩, ⟨.element "b" [] [], none, some 0⟩,
        ⟨.cdata, some "d", some 0⟩], some 0⟩ =
      ⟨#[⟨.element "a" [] [1], some "x", none⟩, ⟨.element "b" [] [], none, some 0⟩], some 0⟩ := by
  decide +kernel

end MarkupPath.Tree
