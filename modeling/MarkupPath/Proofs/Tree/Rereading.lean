import MarkupPath.Proofs.Tree.Spelling

/-!
# Reading is stable under writing

A document that was read is printed in one line and read again with the same options. It comes back
node by node, except for own texts that are blank: those are layout to the reader, and only a
section of character data that is joined to a text can have made one
(`ofMarkup_toMarkup_of_ofMarkup`). What comes back is printed and read without any further change
(`ofMarkup_toMarkup_dropBlank`).

The printed text is read as parts by `Shows`, which keeps all markers. Only markers of kinds that
the options keep stand in a document that was read, so the options make no difference to these parts
(`Part.document_of_kept`), and every node is its own copy up to a blank text.
-/

set_option autoImplicit false

namespace MarkupPath.Tree

open MarkupPath.Markup MarkupPath.Text

/-! ## Parts that are kept -/

namespace Part

variable (options : ReadOptions)

mutual

/-- Every marker of the part becomes a node. -/
def Kept : Part → Prop
  | .text _ => True
  | .cdata _ => options.keepCData = true
  | .comment _ => options.keepComments = true
  | .element _ _ parts => AllKept parts

/-- Every marker of the parts becomes a node. -/
def AllKept : List Part → Prop
  | [] => True
  | p :: ps => p.Kept ∧ AllKept ps

end

variable {options}

mutual

theorem size_of_kept : ∀ p : Part, p.Kept options → p.size options = p.size keepAll
  | .text _, _ => rfl
  | .cdata _, h => if_pos h
  | .comment _, h => if_pos h
  | .element _ _ parts, h => by rw [size, size, sizes_of_allKept parts h]

theorem sizes_of_allKept :
    ∀ ps : List Part, AllKept options ps → sizes options ps = sizes keepAll ps
  | [], _ => rfl
  | p :: ps, h => by rw [sizes, sizes, size_of_kept p h.1, sizes_of_allKept ps h.2]

end

theorem heads_of_allKept {ps : List Part} (h : AllKept options ps) (id : NodeId) :
    heads options id ps = heads keepAll id ps := by
  induction ps generalizing id with
  | nil => rfl
  | cons p ps ih => rw [heads, heads, size_of_kept p h.1, ih h.2, ih h.2]

theorem segment?_of_kept {p : Part} (h : p.Kept options) :
    p.segment? options = p.segment? keepAll := by
  cases p with
  | cdata content => exact if_pos h
  | text content => rfl
  | comment content => rfl
  | element name attributes parts => rfl

theorem ownText_of_allKept {ps : List Part} (h : AllKept options ps) :
    ownText options ps = ownText keepAll ps := by
  have hsegments : ps.filterMap (segment? options) = ps.filterMap (segment? keepAll) := by
    induction ps with
    | nil => rfl
    | cons p ps ih => rw [List.filterMap_cons, List.filterMap_cons, segment?_of_kept h.1, ih h.2]
  rw [ownText, ownText, hsegments]

mutual

theorem nodes_of_kept (parent : Option NodeId) (id : NodeId) :
    ∀ p : Part, p.Kept options → p.nodes options parent id = p.nodes keepAll parent id
  | .text _, _ => rfl
  | .cdata _, h => if_pos h
  | .comment _, h => if_pos h
  | .element _ _ parts, h => by
      rw [nodes, nodes, heads_of_allKept h, ownText_of_allKept h, nodesOf_of_allKept _ _ parts h]

theorem nodesOf_of_allKept (parent : Option NodeId) (id : NodeId) :
    ∀ ps : List Part, AllKept options ps →
      nodesOf options parent id ps = nodesOf keepAll parent id ps
  | [], _ => rfl
  | p :: ps, h => by
      rw [nodesOf, nodesOf, nodes_of_kept _ _ p h.1, size_of_kept p h.1,
        nodesOf_of_allKept _ _ ps h.2]

end

/-- Where every marker is kept the options make no difference. -/
theorem document_of_kept {p : Part} (h : p.Kept options) :
    p.document options = p.document keepAll := by
  rw [document, document, nodes_of_kept none 0 p h]

theorem allKept_leadParts_append (text : Option String) (ps : List Part)
    (h : AllKept options ps) : AllKept options (leadParts text ++ ps) := by
  cases text with
  | none => exact h
  | some text =>
    rw [leadParts]
    split
    · exact h
    · exact ⟨trivial, h⟩

end Part

section Keeping

variable {options : ReadOptions} {doc : Document}

mutual

/-- The part that a node of a read document is shown as keeps its markers. -/
theorem Shows.kept (hdoc : ∀ (id : NodeId) n, doc.node? id = some n → n.FromMarkup options)
    {id : NodeId} {cs : List Char} {p : Part} : Shows doc id cs p → p.Kept options
  | .comment hnode => (hdoc _ _ hnode).comment rfl
  | .cdata hnode => (hdoc _ _ hnode).cdata rfl
  | @Shows.leaf _ _ _ _ text _ _ => by
      have hlead : Part.AllKept options (leadParts text ++ []) :=
        Part.allKept_leadParts_append text [] trivial
      rwa [List.append_nil] at hlead
  | .element _ hall => Part.allKept_leadParts_append _ _ (hall.kept hdoc)

theorem ShowsAll.kept (hdoc : ∀ (id : NodeId) n, doc.node? id = some n → n.FromMarkup options)
    {ids : List NodeId} {cs : List Char} {ps : List Part} :
    ShowsAll doc ids cs ps → Part.AllKept options ps
  | .nil => trivial
  | .cons hfirst hlater => ⟨hfirst.kept hdoc, hlater.kept hdoc⟩

end

end Keeping

/-! ## Blank own texts -/

/-- The node, without its own text if it is an element and that text is blank. -/
def Node.dropBlank (n : Node) : Node :=
  if n.isElement then { n with text := n.text.filter fun text => !isBlankText text } else n

/-- The document without the blank own texts of its elements. -/
def Document.dropBlank (doc : Document) : Document :=
  { doc with nodes := doc.nodes.map Node.dropBlank }

/-- Dropping blank text leaves a node as it is if its text is not blank, or if it is a marker. -/
theorem Node.dropBlank_eq_self_iff {n : Node} :
    n.dropBlank = n ↔
      (n.isElement = true → ∀ text, n.text = some text → isBlankText text = false) := by
  rcases n with ⟨content, text, parent⟩
  rw [dropBlank]
  split
  · next helement =>
    simp only [Node.mk.injEq, true_and, and_true]
    cases text with
    | none => simp
    | some text => simp [Option.filter_some, helement]
  · next hmarker => simp [hmarker]

theorem Node.dropBlank_dropBlank (n : Node) : n.dropBlank.dropBlank = n.dropBlank := by
  rw [dropBlank_eq_self_iff]
  intro helement text htext
  rw [dropBlank] at helement htext
  split at htext
  · have hfilter := (Option.filter_eq_some_iff.1 htext).2
    simpa using hfilter
  · next hmarker =>
    rw [if_neg hmarker] at helement
    exact absurd helement hmarker

/-- A node of a read document is copied as it is, up to a blank own text. -/
theorem Node.FromMarkup.copy_eq {options : ReadOptions} {n : Node} (h : n.FromMarkup options) :
    Node.copy id n.parent n = n.dropBlank := by
  -- a marker that was read has a body, so the one that it is printed with is its own
  rcases n with ⟨⟨name, attributes, children⟩ | _ | _, text, parent⟩
  · simp [Node.copy, Node.dropBlank, Node.mapChildren, Node.textRead, Node.isElement, Node.kind,
      isBlankText]
  · obtain ⟨body, hbody⟩ := h.body rfl
    cases hbody
    rfl
  · obtain ⟨body, hbody⟩ := h.body rfl
    cases hbody
    rfl

namespace Document

/-- A document is left as it is if no element has a blank text. -/
theorem dropBlank_eq_self_iff (doc : Document) :
    doc.dropBlank = doc ↔ ∀ (id : NodeId) text, doc.isElement id = true →
      doc.text? id = some text → isBlankText text = false := by
  have hnodes : doc.dropBlank = doc ↔ ∀ (id : NodeId) n, doc.node? id = some n →
      n.dropBlank = n := by
    constructor
    · intro h id n hn
      have hmapped := congrArg (fun d : Document => d.node? id) h
      simp only [dropBlank, node?, Array.getElem?_map] at hmapped hn
      rw [hn] at hmapped
      exact Option.some.inj hmapped
    · intro h
      have hmap : doc.nodes.map Node.dropBlank = doc.nodes := by
        apply Array.ext_getElem?
        intro id
        rw [Array.getElem?_map]
        cases hn : doc.nodes[id]? with
        | none => rfl
        | some n => exact congrArg some (h id n hn)
      rw [dropBlank, hmap]
  rw [hnodes]
  constructor
  · intro h id text helement htext
    obtain ⟨n, hn, hkind⟩ := doc.isElement_iff.1 helement
    rw [text?, hn] at htext
    exact Node.dropBlank_eq_self_iff.1 (h id n hn) hkind text htext
  · intro h id n hn
    refine Node.dropBlank_eq_self_iff.2 fun hkind text htext => ?_
    refine h id text (doc.isElement_iff.2 ⟨n, hn, hkind⟩) ?_
    rw [text?, hn]
    exact htext

theorem dropBlank_dropBlank (doc : Document) : doc.dropBlank.dropBlank = doc.dropBlank := by
  rw [dropBlank, dropBlank]
  simp only [Array.map_map]
  congr 2
  funext n
  exact n.dropBlank_dropBlank

end Document

/-! ## Reading again -/

section Rereading

variable {options : ReadOptions} {text : List Char} {doc : Document}

/-- All nodes of a document, by their numbers. -/
theorem map_node?_range (doc : Document) :
    (List.range doc.size).map doc.node? = doc.nodes.toList.map some := by
  refine List.ext_getElem (by simp [Document.size]) fun k hk _ => ?_
  have hlt : k < doc.nodes.size := by simpa [Document.size] using hk
  simp [Document.node?, hlt]

/-- A document that was read is that of one element. -/
theorem exists_element_of_ofMarkup (h : Document.ofMarkup options text = .ok doc) :
    ∃ name attributes parts, doc = (Part.element name attributes parts).document options := by
  obtain ⟨-, p, ⟨before, inside, after, -, -, hinside, -⟩, rfl⟩ := ofMarkup_eq_ok_iff.1 h
  obtain ⟨name, attributes, parts, rfl⟩ := hinside.eq_element
  exact ⟨name, attributes, parts, rfl⟩

/-- A document that was read is numbered as it is walked. -/
theorem numbers_id_of_ofMarkup (h : Document.ofMarkup options text = .ok doc) :
    doc.preorder 0 = List.range doc.size ∧ Numbers id 0 (doc.preorder 0) := by
  have hwalk : doc.preorder 0 = List.range doc.size := by
    obtain ⟨name, attributes, parts, rfl⟩ := exists_element_of_ofMarkup h
    rw [Part.preorder_document, Part.size_document]
  refine ⟨hwalk, fun k x hk => ?_⟩
  rw [hwalk] at hk
  obtain ⟨hlt, rfl⟩ := List.getElem?_eq_some_iff.1 hk
  simp

/-- The nodes of what a read document is shown as are its own, up to blank own texts. -/
theorem Shows.nodes_eq_dropBlank (h : Document.ofMarkup options text = .ok doc) {cs : List Char}
    {p : Part} (hshows : Shows doc 0 cs p) :
    p.nodes keepAll (doc.parent? 0) 0 = doc.nodes.toList.map Node.dropBlank := by
  have hwf := Document.wellFormed_of_ofMarkup h
  obtain ⟨hwalk, hnumbers⟩ := numbers_id_of_ofMarkup h
  -- no node is renumbered, and each keeps its parent
  have hup : ∀ x ∈ doc.preorder 0, ∀ c ∈ doc.children x, doc.parent? c = some (id x) :=
    fun x _ c hc => hwf.mem_children_iff.1 hc
  have hcopy : ∀ x, (doc.node? x).map (Node.copy id (doc.parent? x)) =
      (doc.node? x).map Node.dropBlank := by
    intro x
    cases hn : doc.node? x with
    | none => rfl
    | some n =>
      rw [Document.parent?, hn]
      exact congrArg some (fromMarkup_of_ofMarkup h hn).copy_eq
  have hsome : (p.nodes keepAll (doc.parent? 0) 0).map some =
      (doc.nodes.toList.map Node.dropBlank).map some := by
    calc (p.nodes keepAll (doc.parent? 0) 0).map some
        = (doc.preorder 0).map fun x => (doc.node? x).map (Node.copy id (doc.parent? x)) :=
          hshows.nodes_eq hwf hnumbers hup
      _ = ((List.range doc.size).map doc.node?).map (Option.map Node.dropBlank) := by
          rw [hwalk, List.map_map]
          exact List.map_congr_left fun x _ => hcopy x
      _ = (doc.nodes.toList.map Node.dropBlank).map some := by
          rw [map_node?_range, List.map_map, List.map_map]
          rfl
  exact List.map_injective_iff.2 (fun _ _ => Option.some.inj) hsome

/-- Printed and read again, a document that was read loses its blank own texts and nothing else. -/
theorem reread_eq_dropBlank (h : Document.ofMarkup options text = .ok doc) (declaration : Bool) :
    doc.documentElement = some 0 ∧
      ∃ s, doc.toMarkup ⟨none, declaration⟩ 0 = .ok s ∧
        Document.ofMarkup options s.toList = .ok doc.dropBlank := by
  have hwf := Document.wellFormed_of_ofMarkup h
  obtain ⟨hroot, hparent, helement⟩ : doc.documentElement = some 0 ∧ doc.parent? 0 = none ∧
      doc.isElement 0 = true := by
    obtain ⟨name, attributes, parts, rfl⟩ := exists_element_of_ofMarkup h
    exact ⟨rfl, rfl, rfl⟩
  have hnode : ∀ (id : NodeId) n, doc.node? id = some n → n.FromMarkup options :=
    fun _ _ hn => fromMarkup_of_ofMarkup h hn
  obtain ⟨cs, p, hshows⟩ :=
    Shows.exists_of_wellFormed hwf 0 (Document.lt_size_of_isElement helement)
  obtain ⟨s, hprint, hread⟩ := hshows.exists_ofMarkup_eq hwf helement
    (fun x _ n hn => (hnode x n hn).spelled) options declaration
  have hnodes := hshows.nodes_eq_dropBlank h
  rw [hparent] at hnodes
  refine ⟨hroot, s, hprint, hread.trans (congrArg Except.ok ?_)⟩
  rw [Part.document_of_kept (hshows.kept hnode), Part.document, hnodes, Document.dropBlank, hroot,
    ← Array.toList_map, Array.toArray_toList]

/-- What comes back of a document that was read is printed and read without any further change. -/
theorem ofMarkup_toMarkup_dropBlank (h : Document.ofMarkup options text = .ok doc)
    (declaration : Bool) :
    ∃ s, doc.dropBlank.toMarkup ⟨none, declaration⟩ 0 = .ok s ∧
      Document.ofMarkup options s.toList = .ok doc.dropBlank := by
  obtain ⟨-, s, -, hread⟩ := reread_eq_dropBlank h declaration
  obtain ⟨-, t, hprint, hagain⟩ := reread_eq_dropBlank hread declaration
  rw [Document.dropBlank_dropBlank] at hagain
  exact ⟨t, hprint, hagain⟩

/-- A document that was read, printed in one line and read again with the same options, comes back
with the same nodes and the same document element, except that an element whose own text is blank
has none. Where sections of character data are nodes there is no such text, and the document is the
same; otherwise it is the same exactly if there is none. -/
theorem ofMarkup_toMarkup_of_ofMarkup (h : Document.ofMarkup options text = .ok doc)
    (declaration : Bool) :
    ∃ root s, doc.documentElement = some root ∧ doc.toMarkup ⟨none, declaration⟩ root = .ok s ∧
      Document.ofMarkup options s.toList = .ok doc.dropBlank ∧
      (options.keepCData = true → doc.dropBlank = doc) ∧
      (doc.dropBlank = doc ↔ ∀ (id : NodeId) text, doc.isElement id = true →
        doc.text? id = some text → isBlankText text = false) := by
  obtain ⟨hroot, s, hprint, hread⟩ := reread_eq_dropBlank h declaration
  refine ⟨0, s, hroot, hprint, hread, fun hkeep => ?_, doc.dropBlank_eq_self_iff⟩
  refine doc.dropBlank_eq_self_iff.2 fun id own helement hown => ?_
  obtain ⟨n, hn, hkind⟩ := doc.isElement_iff.1 helement
  rw [Document.text?, hn] at hown
  exact (fromMarkup_of_ofMarkup h hn).text hkind hkeep own hown

/-- Joined sections of character data, one of them alone and blank; blank layout; a comment between
two texts; references; a quote in an attribute. -/
def mixedMarkup : List Char :=
  ("<a k='\"&lt;'> <b><![CDATA[ ]]></b>x<!-- c -->&amp;<c>\t<![CDATA[</c>]]></c></a>").toList

/-- The document that it writes, without comments. -/
def mixedDocument : Document :=
  ⟨#[⟨.element "a" [⟨"k", "\"<"⟩] [1, 2], some "x&", none⟩, ⟨.element "b" [] [], some " ", some 0⟩,
    ⟨.element "c" [] [], some "</c>", some 0⟩], some 0⟩

theorem reread_mixedDocument :
    Document.ofMarkup .default mixedMarkup = .ok mixedDocument ∧
      mixedDocument.dropBlank.text? 1 = none ∧
      ∃ root s, mixedDocument.documentElement = some root ∧
        mixedDocument.toMarkup ⟨none, false⟩ root = .ok s ∧
        Document.ofMarkup .default s.toList = .ok mixedDocument.dropBlank ∧
        (ReadOptions.default.keepCData = true → mixedDocument.dropBlank = mixedDocument) ∧
        (mixedDocument.dropBlank = mixedDocument ↔ ∀ (id : NodeId) text,
          mixedDocument.isElement id = true → mixedDocument.text? id = some text →
            isBlankText text = false) := by
  have hread : Document.ofMarkup .default mixedMarkup = .ok mixedDocument := by decide +kernel
  exact ⟨hread, by decide +kernel, ofMarkup_toMarkup_of_ofMarkup hread false⟩

/-- A blank text that a section of character data leaves in an element does not come back: printed,
it is layout. -/
theorem not_forall_reread_eq :
    ¬ ∀ (options : ReadOptions) (text : List Char) (doc : Document),
      Document.ofMarkup options text = .ok doc →
        ∃ root s, doc.documentElement = some root ∧ doc.toMarkup ⟨none, false⟩ root = .ok s ∧
          Document.ofMarkup options s.toList = .ok doc := by
  intro h
  have hread : Document.ofMarkup .default "<a><![CDATA[ ]]></a>".toList =
      .ok ⟨#[⟨.element "a" [] [], some " ", none⟩], some 0⟩ := by decide +kernel
  have hagain : Document.ofMarkup .default "<a> </a>".toList =
      .ok ⟨#[⟨.element "a" [] [], none, none⟩], some 0⟩ := by decide +kernel
  obtain ⟨root, s, hroot, hprint, hsame⟩ := h _ _ _ hread
  cases hroot
  have hs : s = "<a> </a>" := by
    have hprinted : Document.toMarkup ⟨#[⟨.element "a" [] [], some " ", none⟩], some 0⟩
      ⟨none, false⟩ 0 = .ok "<a> </a>" := by decide +kernel
    rw [hprinted] at hprint
    exact (Except.ok.inj hprint).symm
  rw [hs, hagain] at hsame
  exact absurd (Except.ok.inj hsame) (by decide)

end Rereading

end MarkupPath.Tree
