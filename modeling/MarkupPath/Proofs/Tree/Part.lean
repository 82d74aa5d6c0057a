import MarkupPath.Proofs.Tree.Walk
import MarkupPath.Tree.Assembly

/-!
# Parts of a marked-up text

What stands in a text between two tags of one element is a list of parts: stretches of text,
comments, sections of character data, and elements with parts of their own. `Part.document` builds
the document of an element by recursion on its parts, with the nodes numbered as they stand in the
text, so that walking it counts them up (`Part.preorder_document`). `Writes` says which events write
which parts.

Without the events that no document shows, an element is told by its tags alone: `FormsElement` is
that grammar, and `formsElement_iff` says that the two agree.
-/

set_option autoImplicit false

namespace MarkupPath.Tree

open MarkupPath.Markup MarkupPath.Text

/-- A part of a text as it is written, whether or not it becomes a node. -/
inductive Part where
  | text (content : String)
  | cdata (content : String)
  | comment (content : String)
  | element (name : String) (attributes : List Attribute) (parts : List Part)

namespace Part

variable (options : ReadOptions)

/-! ## The document of an element -/

mutual

/-- Number of nodes that a part makes. -/
def size : Part → Nat
  | .text _ => 0
  | .cdata _ => if options.keepCData then 1 else 0
  | .comment _ => if options.keepComments then 1 else 0
  | .element _ _ parts => sizes parts + 1

/-- Number of nodes that parts make. -/
def sizes : List Part → Nat
  | [] => 0
  | p :: ps => p.size + sizes ps

end

/-- The first nodes of the parts that make nodes, numbered from `id` on. -/
def heads (id : NodeId) : List Part → List NodeId
  | [] => []
  | p :: ps =>
      if p.size options = 0 then heads id ps else id :: heads (id + p.size options) ps

/-- What a part adds to the own text of the element around it. -/
def segment? : Part → Option String
  | .text content => if content.toList.all isAsciiBlank then none else some content
  | .cdata content => if options.keepCData then none else some content
  | .comment _ => none
  | .element _ _ _ => none

/-- The own text that segments make, if there are any. -/
def joined : List String → Option String
  | [] => none
  | segments => some (String.join segments)

/-- The own text of an element with these parts. -/
def ownText (parts : List Part) : Option String := joined (parts.filterMap (segment? options))

mutual

/-- The nodes of a part under a parent, numbered from `id` on. -/
def nodes (parent : Option NodeId) (id : NodeId) : Part → List Node
  | .text _ => []
  | .cdata content => if options.keepCData then [⟨.cdata, some content, parent⟩] else []
  | .comment content => if options.keepComments then [⟨.comment, some content, parent⟩] else []
  | .element name attributes parts =>
      ⟨.element name attributes (heads options (id + 1) parts), ownText options parts, parent⟩ ::
        nodesOf (some id) (id + 1) parts

/-- The nodes of parts under a parent, numbered from `id` on. -/
def nodesOf (parent : Option NodeId) (id : NodeId) : List Part → List Node
  | [] => []
  | p :: ps => p.nodes parent id ++ nodesOf parent (id + p.size options) ps

end

/-- The document of an element: its nodes numbered from zero, the element being the first and the
document element. -/
def document (p : Part) : Document := ⟨(p.nodes options none 0).toArray, some 0⟩

/-! ## Counting nodes -/

mutual

theorem length_nodes (parent : Option NodeId) (id : NodeId) :
    ∀ p : Part, (p.nodes options parent id).length = p.size options
  | .text _ => rfl
  | .cdata _ => by rw [nodes, size]; split <;> rfl
  | .comment _ => by rw [nodes, size]; split <;> rfl
  | .element _ _ parts => by rw [nodes, size, List.length_cons, length_nodesOf]

theorem length_nodesOf (parent : Option NodeId) (id : NodeId) :
    ∀ ps : List Part, (nodesOf options parent id ps).length = sizes options ps
  | [] => rfl
  | p :: ps => by rw [nodesOf, sizes, List.length_append, length_nodes, length_nodesOf]

end

@[simp] theorem size_document (p : Part) : (p.document options).size = p.size options := by
  rw [document, Document.size, List.size_toArray, length_nodes]

variable (ps qs : List Part)

theorem sizes_append : sizes options (ps ++ qs) = sizes options ps + sizes options qs := by
  induction ps with
  | nil => rw [List.nil_append, sizes, Nat.zero_add]
  | cons p ps ih => rw [List.cons_append, sizes, sizes, ih, Nat.add_assoc]

/-- Parts behind others are numbered on from them. -/
theorem heads_append (id : NodeId) :
    heads options id (ps ++ qs) =
      heads options id ps ++ heads options (id + sizes options ps) qs := by
  induction ps generalizing id with
  | nil => rfl
  | cons p ps ih =>
    rw [List.cons_append, heads, heads, sizes]
    split
    · next hp => rw [ih, hp, Nat.zero_add]
    · rw [ih, List.cons_append, Nat.add_assoc]

theorem nodesOf_append (parent : Option NodeId) (id : NodeId) :
    nodesOf options parent id (ps ++ qs) =
      nodesOf options parent id ps ++ nodesOf options parent (id + sizes options ps) qs := by
  induction ps generalizing id with
  | nil => rfl
  | cons p ps ih => rw [List.cons_append, nodesOf, nodesOf, ih, sizes, List.append_assoc,
      Nat.add_assoc]

/-! ## Walking the document -/

section Walking

variable {options} {doc : Document}

/-- Nodes of a list stand in a document from `id` on. -/
def Stands (doc : Document) (id : NodeId) (ns : List Node) : Prop :=
  ∀ k n, ns[k]? = some n → doc.node? (id + k) = some n

theorem Stands.left {id : NodeId} {ns ms : List Node} (h : Stands doc id (ns ++ ms)) :
    Stands doc id ns := fun k n hk => h k n (by
  rw [List.getElem?_append_left (List.getElem?_eq_some_iff.1 hk).1, hk])

theorem Stands.right {id : NodeId} {ns ms : List Node} (h : Stands doc id (ns ++ ms)) :
    Stands doc (id + ns.length) ms := fun k n hk => by
  rw [Nat.add_assoc]
  exact h _ n (by rw [List.getElem?_append_right (Nat.le_add_right _ _), Nat.add_sub_cancel_left,
    hk])

/-- A node without children is a walk of its own. -/
theorem traversal_leaf {id : NodeId} {n : Node} (hnode : doc.node? id = some n)
    (hchildren : n.children = []) : Document.Traversal doc [id] [id] := by
  refine .cons ?_
  rw [Document.children, hnode]
  simp only [hchildren]
  exact .nil

mutual

/-- Walking a part counts up its nodes. -/
theorem traversal_part {parent : Option NodeId} {id : NodeId} :
    ∀ p : Part, Stands doc id (p.nodes options parent id) →
      Document.Traversal doc (heads options id [p]) (List.range' id (p.size options))
  | .text _, _ => .nil
  | .cdata content, h => by
      rw [heads, size]
      rw [nodes] at h
      by_cases hkeep : options.keepCData = true
      · rw [if_pos hkeep] at h ⊢
        exact traversal_leaf (h 0 _ rfl) rfl
      · rw [if_neg hkeep]
        exact .nil
  | .comment content, h => by
      rw [heads, size]
      rw [nodes] at h
      by_cases hkeep : options.keepComments = true
      · rw [if_pos hkeep] at h ⊢
        exact traversal_leaf (h 0 _ rfl) rfl
      · rw [if_neg hkeep]
        exact .nil
  | .element name attributes parts, h => by
      rw [nodes] at h
      have hnode : doc.node? id = some ⟨.element name attributes (heads options (id + 1) parts),
          ownText options parts, parent⟩ := h 0 _ rfl
      have hbelow : Stands doc (id + 1) (nodesOf options (some id) (id + 1) parts) :=
        Stands.right (List.singleton_append ▸ h)
      rw [heads, size, if_neg (Nat.succ_ne_zero _), heads, List.range'_succ]
      refine .cons ?_
      rw [List.append_nil, Document.children, hnode]
      exact traversal_parts parts hbelow

/-- The walk over nodes that stand as the parts do meets them in the order of their numbers. -/
theorem traversal_parts {parent : Option NodeId} {id : NodeId} :
    ∀ ps : List Part, Stands doc id (nodesOf options parent id ps) →
      Document.Traversal doc (heads options id ps) (List.range' id (sizes options ps))
  | [], _ => .nil
  | p :: ps, h => by
      rw [nodesOf] at h
      have hrest := h.right
      rw [length_nodes] at hrest
      have hboth := (traversal_part p h.left).append (traversal_parts ps hrest)
      have hheads := heads_append options [p] ps id
      rw [sizes, sizes, Nat.add_zero, List.singleton_append] at hheads
      rwa [sizes, ← List.range'_append_1, hheads]

end

end Walking

/-- The nodes of the document of an element are numbered in document order. -/
theorem preorder_document (name : String) (attributes : List Attribute) (parts : List Part) :
    ((element name attributes parts).document options).preorder 0 =
      List.range ((element name attributes parts).size options) := by
  have hstands : Stands ((element name attributes parts).document options) 0
      ((element name attributes parts).nodes options none 0) := by
    intro k n hk
    rw [Nat.zero_add, document, Document.node?, List.getElem?_toArray, hk]
  have hwalk := traversal_part _ hstands
  rw [heads, if_neg (by rw [size]; exact Nat.succ_ne_zero _), heads] at hwalk
  rw [Document.preorder, Document.preorderFrom_eq_of_traversal hwalk (by simp),
    List.range_eq_range']

end Part

/-! ## Events that write parts -/

/-- The events that come in pairs, one before and one behind the parts of an element. -/
def isBracket : Event → Bool
  | .startTag _ _ => true
  | .endTag _ => true
  | _ => false

/-- The parts that an event writes by itself. -/
def partsOf : Event → List Part
  | .text content => [.text content]
  | .cdata content => [.cdata content]
  | .comment content => [.comment content]
  | .emptyTag name attributes => [.element name attributes []]
  | _ => []

/-- The events write the parts, one after the other. -/
inductive Writes : List Event → List Part → Prop where
  | nil : Writes [] []
  | single {e : Event} {es : List Event} {ps : List Part} :
      isBracket e = false → Writes es ps → Writes (e :: es) (partsOf e ++ ps)
  | tagged {name : String} {attributes : List Attribute} {inside es : List Event}
      {parts ps : List Part} : Writes inside parts → Writes es ps →
      Writes (.startTag name attributes :: (inside ++ .endTag name :: es))
        (.element name attributes parts :: ps)

/-- The events are those of one element, from its first tag to its last. -/
inductive WritesElement : List Event → Part → Prop where
  | empty (name : String) (attributes : List Attribute) :
      WritesElement [.emptyTag name attributes] (.element name attributes [])
  | tagged {name : String} {attributes : List Attribute} {inside : List Event}
      {parts : List Part} : Writes inside parts →
      WritesElement (.startTag name attributes :: (inside ++ [.endTag name]))
        (.element name attributes parts)

theorem WritesElement.eq_element {es : List Event} {p : Part} (h : WritesElement es p) :
    ∃ name attributes parts, p = .element name attributes parts := by
  cases h with
  | empty name attributes => exact ⟨name, attributes, [], rfl⟩
  | tagged _ => exact ⟨_, _, _, rfl⟩

/-- The event counts where elements are told: it is a tag, a section of character data, or a text
that is not blank. -/
def isSignificant : Event → Bool
  | .text content => !content.toList.all isAsciiBlank
  | .comment _ => false
  | .instruction _ _ => false
  | .declaration => false
  | .doctype _ => false
  | _ => true

mutual

/-- The events form one element. -/
inductive FormsElement : List Event → Prop where
  | empty (name : String) (attributes : List Attribute) : FormsElement [.emptyTag name attributes]
  | tagged {name : String} {attributes : List Attribute} {inside : List Event} :
      FormsContent inside →
      FormsElement (.startTag name attributes :: (inside ++ [.endTag name]))

/-- The events are texts, sections of character data and elements. -/
inductive FormsContent : List Event → Prop where
  | nil : FormsContent []
  | text {content : String} {es : List Event} :
      FormsContent es → FormsContent (.text content :: es)
  | cdata {content : String} {es : List Event} :
      FormsContent es → FormsContent (.cdata content :: es)
  | element {first es : List Event} :
      FormsElement first → FormsContent es → FormsContent (first ++ es)

end

/-! ## The two grammars agree -/

/-- Contents may be read in pieces. -/
theorem Writes.append {es fs : List Event} {ps qs : List Part} (h : Writes es ps)
    (hlater : Writes fs qs) : Writes (es ++ fs) (ps ++ qs) := by
  induction h with
  | nil => exact hlater
  | single he _ ih =>
    rw [List.append_assoc]
    exact .single he ih
  | tagged hinside _ _ ih =>
    rw [List.cons_append, List.append_assoc, List.cons_append]
    exact .tagged hinside ih

/-- Events that do not count write parts, if any, without opening an element. -/
theorem exists_writes_of_not_significant {es : List Event}
    (h : ∀ e ∈ es, isSignificant e = false) : ∃ ps, Writes es ps := by
  induction es with
  | nil => exact ⟨[], .nil⟩
  | cons e es ih =>
    obtain ⟨he, hes⟩ := List.forall_mem_cons.1 h
    obtain ⟨ps, hps⟩ := ih hes
    refine ⟨_, .single ?_ hps⟩
    cases e <;> first | rfl | exact nomatch he

theorem WritesElement.writes {es : List Event} {p : Part} (h : WritesElement es p) :
    Writes es [p] := by
  cases h with
  | empty name attributes => exact .single (e := .emptyTag name attributes) rfl .nil
  | tagged hinside => exact .tagged hinside .nil

/-- The events that count, among events that write parts, form the content of an element. -/
theorem Writes.formsContent {es : List Event} {ps : List Part} (h : Writes es ps) :
    FormsContent (es.filter isSignificant) := by
  induction h with
  | nil => exact .nil
  | @single e es ps he _ ih =>
    rw [List.filter_cons]
    split
    · next hsignificant =>
      cases e with
      | text content => exact .text ih
      | cdata content => exact .cdata ih
      | emptyTag name attributes => exact .element (.empty name attributes) ih
      | startTag name attributes => cases he
      | endTag name => cases he
      | _ => cases hsignificant
    · exact ih
  | @tagged name attributes inside es parts ps _ _ ihinside ih =>
    rw [List.filter_cons_of_pos rfl, List.filter_append, List.filter_cons_of_pos rfl]
    have := FormsContent.element (@FormsElement.tagged name attributes _ ihinside) ih
    simpa using this

theorem WritesElement.formsElement {es : List Event} {p : Part} (h : WritesElement es p) :
    FormsElement (es.filter isSignificant) := by
  cases h with
  | empty name attributes => exact .empty name attributes
  | tagged hinside =>
    rw [List.filter_cons_of_pos rfl, List.filter_append, List.filter_cons_of_pos rfl]
    exact .tagged hinside.formsContent

/-- One element stands among events that do not count otherwise. -/
def HoldsElement (es : List Event) (p : Part) : Prop :=
  ∃ before inside after : List Event, es = before ++ inside ++ after ∧
    (∀ e ∈ before, isSignificant e = false) ∧ WritesElement inside p ∧
    ∀ e ∈ after, isSignificant e = false

theorem HoldsElement.exists_writes {es : List Event} {p : Part} (h : HoldsElement es p) :
    ∃ ps, Writes es ps := by
  obtain ⟨before, inside, after, rfl, hbefore, hinside, hafter⟩ := h
  obtain ⟨ps, hps⟩ := exists_writes_of_not_significant hbefore
  obtain ⟨qs, hqs⟩ := exists_writes_of_not_significant hafter
  exact ⟨_, (hps.append hinside.writes).append hqs⟩

/-- An event that counts stands behind and before events that do not. -/
theorem exists_of_filter_eq_cons {es fs : List Event} {e : Event}
    (h : es.filter isSignificant = e :: fs) :
    ∃ before later, es = before ++ e :: later ∧ (∀ d ∈ before, isSignificant d = false) ∧
      later.filter isSignificant = fs := by
  obtain ⟨before, later, rfl, hbefore, -, hlater⟩ := List.filter_eq_cons_iff.1 h
  exact ⟨before, later, rfl, fun d hd => Bool.eq_false_iff.2 (hbefore d hd), hlater⟩

mutual

/-- Events that form an element when the others are left out hold one element, with the others in
its contents. -/
theorem FormsElement.exists_holds {fs : List Event} :
    FormsElement fs → ∀ es, es.filter isSignificant = fs → ∃ p, HoldsElement es p
  | .empty name attributes, es, h => by
      obtain ⟨before, after, rfl, hbefore, hafter⟩ := exists_of_filter_eq_cons h
      refine ⟨_, before, _, after, by simp, hbefore, .empty name attributes, ?_⟩
      intro e he
      exact Bool.eq_false_iff.2 (List.filter_eq_nil_iff.1 hafter e he)
  | @FormsElement.tagged name attributes _ hinside, es, h => by
      obtain ⟨before, later, rfl, hbefore, hlater⟩ := exists_of_filter_eq_cons h
      obtain ⟨inside, last, rfl, hfirst, hlast⟩ := List.filter_eq_append_iff.1 hlater
      obtain ⟨between, after, rfl, hbetween, hafter⟩ := exists_of_filter_eq_cons hlast
      obtain ⟨parts, hparts⟩ := hinside.exists_writes inside hfirst
      obtain ⟨qs, hqs⟩ := exists_writes_of_not_significant hbetween
      refine ⟨_, before, _, after, ?_, hbefore,
        @WritesElement.tagged name attributes _ _ (hparts.append hqs), ?_⟩
      · simp
      · intro e he
        exact Bool.eq_false_iff.2 (List.filter_eq_nil_iff.1 hafter e he)

/-- The same for the contents of an element. -/
theorem FormsContent.exists_writes {fs : List Event} :
    FormsContent fs → ∀ es, es.filter isSignificant = fs → ∃ ps, Writes es ps
  | .nil, es, h => exists_writes_of_not_significant fun e he =>
      Bool.eq_false_iff.2 (List.filter_eq_nil_iff.1 h e he)
  | .text hrest, es, h => by
      obtain ⟨before, later, rfl, hbefore, hlater⟩ := exists_of_filter_eq_cons h
      obtain ⟨ps, hps⟩ := exists_writes_of_not_significant hbefore
      obtain ⟨qs, hqs⟩ := hrest.exists_writes later hlater
      exact ⟨_, hps.append (.single rfl hqs)⟩
  | .cdata hrest, es, h => by
      obtain ⟨before, later, rfl, hbefore, hlater⟩ := exists_of_filter_eq_cons h
      obtain ⟨ps, hps⟩ := exists_writes_of_not_significant hbefore
      obtain ⟨qs, hqs⟩ := hrest.exists_writes later hlater
      exact ⟨_, hps.append (.single rfl hqs)⟩
  | .element hfirst hrest, es, h => by
      obtain ⟨first, later, rfl, hleft, hright⟩ := List.filter_eq_append_iff.1 h
      obtain ⟨p, hp⟩ := hfirst.exists_holds first hleft
      obtain ⟨ps, hps⟩ := hp.exists_writes
      obtain ⟨qs, hqs⟩ := hrest.exists_writes later hright
      exact ⟨_, hps.append hqs⟩

end

/-- One element stands among events that do not count otherwise exactly when those that count form
an element. -/
theorem formsElement_iff {es : List Event} :
    FormsElement (es.filter isSignificant) ↔ ∃ p, HoldsElement es p := by
  constructor
  · exact fun h => h.exists_holds es rfl
  · rintro ⟨p, before, inside, after, rfl, hbefore, hinside, hafter⟩
    have hnone : ∀ fs : List Event, (∀ e ∈ fs, isSignificant e = false) →
        fs.filter isSignificant = [] := fun fs hfs =>
      List.filter_eq_nil_iff.2 fun e he => Bool.eq_false_iff.1 (hfs e he)
    rw [List.filter_append, List.filter_append, hnone before hbefore, hnone after hafter,
      List.append_nil]
    exact hinside.formsElement

end MarkupPath.Tree
