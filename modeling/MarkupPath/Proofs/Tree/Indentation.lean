import MarkupPath.Proofs.Tree.Spelling

/-!
# Indentation leaves no trace

The line breaks of a layout are blank texts between the parts of an element, or behind its own text.
A blank text leaves nothing in a document (`Part.document_withoutLayout`), so the layouts of a node
differ in nothing that is read as long as no line break joins an own text that counts
(`Shows.exists_lays`). All of them are then read as the same copy of its subtree
(`exists_copies_forall_layout`).
-/

set_option autoImplicit false

namespace MarkupPath.Tree

open MarkupPath.Markup MarkupPath.Text

namespace Part

/-- The part is a blank text. -/
def isLayout : Part → Bool
  | .text content => isBlankText content
  | _ => false

mutual

/-- The part without the blank texts in it. -/
def withoutLayout : Part → Part
  | .text content => .text content
  | .cdata content => .cdata content
  | .comment content => .comment content
  | .element name attributes parts => .element name attributes (dropLayout parts)

/-- The parts without the blank texts among them and in them. -/
def dropLayout : List Part → List Part
  | [] => []
  | p :: ps => if p.isLayout then dropLayout ps else p.withoutLayout :: dropLayout ps

end

/-! ## Documents without layout -/

theorem isLayout_withoutLayout (p : Part) : p.withoutLayout.isLayout = p.isLayout := by
  cases p <;> rfl

theorem dropLayout_append (ps qs : List Part) :
    dropLayout (ps ++ qs) = dropLayout ps ++ dropLayout qs := by
  induction ps with
  | nil => rfl
  | cons p ps ih =>
    rw [List.cons_append, dropLayout, dropLayout, ih]
    split <;> rfl

/-- Parts that differ in layout only, with more such parts behind them. -/
theorem dropLayout_cons_congr {p q : Part} {ps qs : List Part}
    (h : p.withoutLayout = q.withoutLayout) (hlater : dropLayout ps = dropLayout qs) :
    dropLayout (p :: ps) = dropLayout (q :: qs) := by
  rw [dropLayout, dropLayout, ← isLayout_withoutLayout, h, isLayout_withoutLayout, hlater]

section Reading

variable {options : ReadOptions}

theorem size_of_isLayout {p : Part} (h : p.isLayout = true) : p.size options = 0 := by
  cases p with
  | text _ => rfl
  | _ => cases h

theorem segment?_of_isLayout {p : Part} (h : p.isLayout = true) : p.segment? options = none := by
  cases p with
  | text _ => exact if_pos h
  | _ => cases h

theorem nodes_of_isLayout {p : Part} (h : p.isLayout = true) (parent : Option NodeId)
    (id : NodeId) : p.nodes options parent id = [] := by
  cases p with
  | text _ => rfl
  | _ => cases h

mutual

theorem size_withoutLayout : ∀ p : Part, p.withoutLayout.size options = p.size options
  | .text _ => rfl
  | .cdata _ => rfl
  | .comment _ => rfl
  | .element _ _ parts => by rw [withoutLayout, size, size, sizes_dropLayout]

theorem sizes_dropLayout : ∀ ps : List Part, sizes options (dropLayout ps) = sizes options ps
  | [] => rfl
  | p :: ps => by
      rw [dropLayout, sizes]
      split
      · next h => rw [sizes_dropLayout, size_of_isLayout h, Nat.zero_add]
      · rw [sizes, size_withoutLayout, sizes_dropLayout]

end

theorem heads_dropLayout (id : NodeId) (ps : List Part) :
    heads options id (dropLayout ps) = heads options id ps := by
  induction ps generalizing id with
  | nil => rfl
  | cons p ps ih =>
    rw [dropLayout, heads]
    split
    · next h => rw [ih, if_pos (size_of_isLayout h)]
    · rw [heads, size_withoutLayout, ih, ih]

/-- Blank texts are no part of the text that a node keeps. -/
theorem ownText_dropLayout (ps : List Part) :
    ownText options (dropLayout ps) = ownText options ps := by
  have hsegments :
      (dropLayout ps).filterMap (segment? options) = ps.filterMap (segment? options) := by
    induction ps with
    | nil => rfl
    | cons p ps ih =>
      rw [dropLayout]
      split
      · next h => rw [ih, List.filterMap_cons_none (segment?_of_isLayout h)]
      · have hsame : p.withoutLayout.segment? options = p.segment? options := by cases p <;> rfl
        rw [List.filterMap_cons, List.filterMap_cons, hsame, ih]
  rw [ownText, hsegments, ownText]

mutual

theorem nodes_withoutLayout (parent : Option NodeId) (id : NodeId) :
    ∀ p : Part, p.withoutLayout.nodes options parent id = p.nodes options parent id
  | .text _ => rfl
  | .cdata _ => rfl
  | .comment _ => rfl
  | .element _ _ parts => by
      rw [withoutLayout, nodes, nodes, heads_dropLayout, ownText_dropLayout, nodesOf_dropLayout]

/-- Nor do they make nodes or shift the numbers of others. -/
theorem nodesOf_dropLayout (parent : Option NodeId) (id : NodeId) :
    ∀ ps : List Part, nodesOf options parent id (dropLayout ps) = nodesOf options parent id ps
  | [] => rfl
  | p :: ps => by
      rw [dropLayout, nodesOf]
      split
      · next h =>
        rw [nodesOf_dropLayout, size_of_isLayout h, nodes_of_isLayout h, List.nil_append,
          Nat.add_zero]
      · rw [nodesOf, nodes_withoutLayout, size_withoutLayout, nodesOf_dropLayout]

end

/-- Blank texts leave nothing in the document of an element. -/
theorem document_withoutLayout (p : Part) :
    p.withoutLayout.document options = p.document options := by
  rw [document, nodes_withoutLayout, document]

end Reading

end Part

/-! ## Layouts of a node -/

/-- The node does not have both children and an own text that counts. -/
def Node.Unmixed (n : Node) : Prop :=
  n.children ≠ [] → isBlankText (n.text.getD "") = true

instance : DecidablePred Node.Unmixed := fun n => inferInstanceAs
  (Decidable (n.children ≠ [] → isBlankText (n.text.getD "") = true))

/-- Blank own text is layout. -/
theorem dropLayout_leadParts {text : Option String} (h : isBlankText (text.getD "") = true) :
    Part.dropLayout (leadParts text) = [] := by
  cases text with
  | none => rfl
  | some text =>
    rw [Option.getD_some] at h
    rw [leadParts]
    split
    · rfl
    · rw [Part.dropLayout, Part.isLayout, if_pos h, Part.dropLayout]

/-- A line break that is read together with blank text is layout. -/
theorem dropLayout_lineBreak (layout : PrintOptions) {lead : String}
    (hlead : isBlankText lead = true) (level : Nat) :
    Part.dropLayout (leadParts (some (lead ++ String.ofList (layout.lineBreak true level)))) =
      [] := by
  refine dropLayout_leadParts ?_
  rw [isBlankText] at hlead
  rw [Option.getD_some, isBlankText, String.toList_append, String.toList_ofList, List.all_append,
    hlead, all_isAsciiBlank_lineBreak]
  rfl

section Layouts

variable {doc : Document} (layout : PrintOptions)

mutual

/-- Every layout of a node is, but for blank texts, the part that the node is shown as in one
line. -/
theorem Shows.exists_lays (hwf : doc.WellFormed) {id : NodeId} {cs : List Char} {p : Part} :
    Shows doc id cs p →
    (∀ x, doc.Within id x → ∀ n, doc.node? x = some n → n.Unmixed) → ∀ level,
    ∃ ds q, Lays doc layout level id ds q ∧ q.withoutLayout = p.withoutLayout
  | .comment hnode, _, _ => ⟨_, _, .comment hnode, rfl⟩
  | .cdata hnode, _, _ => ⟨_, _, .cdata hnode, rfl⟩
  | .leaf hnode, _, _ => ⟨_, _, .leaf hnode, rfl⟩
  | .element hnode hall, hunmixed, level => by
      -- the first line break joins the own text, which has to be blank for that
      have hblank := hunmixed id (.refl doc id) _ hnode (List.cons_ne_nil _ _)
      obtain ⟨ds, qs, hlays, heq⟩ :=
        hall.exists_lays hwf (hwf.forall_within_children hnode hunmixed) level _ hblank
      refine ⟨_, _, .element hnode hlays, ?_⟩
      rw [Part.withoutLayout, Part.withoutLayout, Part.dropLayout_append,
        dropLayout_leadParts hblank, heq, List.nil_append]

/-- What is written on one line can be laid out on several: the parts that are read differ in blank
texts alone. -/
theorem ShowsAll.exists_lays (hwf : doc.WellFormed) {ids : List NodeId} {cs : List Char}
    {ps : List Part} :
    ShowsAll doc ids cs ps →
    (∀ id ∈ ids, ∀ x, doc.Within id x → ∀ n, doc.node? x = some n → n.Unmixed) →
    ∀ level lead, isBlankText lead = true →
    ∃ ds qs, LaysAll doc layout level lead ids ds qs ∧ Part.dropLayout qs = Part.dropLayout ps
  | .nil, _, level, _, hlead => ⟨_, _, .nil, dropLayout_lineBreak layout hlead level⟩
  | .cons hfirst hlater, hunmixed, level, lead, hlead => by
      obtain ⟨hid, hids⟩ := List.forall_mem_cons.1 hunmixed
      obtain ⟨ds, q, hlays, heq⟩ := hfirst.exists_lays hwf hid (level + 1)
      obtain ⟨es, qs, hall, hrest⟩ := hlater.exists_lays hwf hids level "" rfl
      refine ⟨_, _, .cons hlays hall, ?_⟩
      rw [Part.dropLayout_append, dropLayout_lineBreak layout hlead, List.nil_append]
      exact Part.dropLayout_cons_congr heq hrest

end

/-- What is printed of an element in any layout is read, with any options, as the part that the
element is shown as in one line. -/
theorem Shows.exists_ofMarkup_layout_eq (hwf : doc.WellFormed) {e : NodeId} {cs : List Char}
    {p : Part} (h : Shows doc e cs p) (he : doc.isElement e = true)
    (hspelled : ∀ id, doc.Within e id → ∀ n, doc.node? id = some n → n.Spelled)
    (hunmixed : ∀ id, doc.Within e id → ∀ n, doc.node? id = some n → n.Unmixed)
    (options : ReadOptions) :
    ∃ s, doc.toMarkup layout e = .ok s ∧
      Document.ofMarkup options s.toList = .ok (p.document options) := by
  obtain ⟨ds, q, hlays, heq⟩ := h.exists_lays layout hwf hunmixed 0
  have hsize : q.size keepAll ≤ doc.size := by
    rw [← Part.size_withoutLayout, heq, Part.size_withoutLayout]
    exact h.size_le hwf
  have hdocument : q.document options = p.document options := by
    rw [← Part.document_withoutLayout, heq, Part.document_withoutLayout]
  rw [← hdocument]
  exact hlays.exists_ofMarkup_eq hwf hsize he hspelled options

end Layouts

/-- Whatever the indentation, and with or without a declaration, what is printed of an element of a
reachable document is read as one and the same copy of its subtree, if its names are read whole, its
markers do not hold their own end, and no node within it has both children and an own text that is
not blank. -/
theorem exists_copies_forall_layout {doc : Document} (h : Reachable doc) {e : NodeId}
    (he : doc.isElement e = true)
    (hspelled : ∀ id, doc.Within e id → ∀ n, doc.node? id = some n → n.Spelled)
    (hunmixed : ∀ id, doc.Within e id → ∀ n, doc.node? id = some n → n.Unmixed) :
    ∃ copy, doc.Copies (doc.preorder e) copy ∧ ∀ layout : PrintOptions,
      ∃ s, doc.toMarkup layout e = .ok s ∧ Document.ofMarkup ⟨true, true⟩ s.toList = .ok copy := by
  have hwf := h.wellFormed
  obtain ⟨cs, p, hshows⟩ := Shows.exists_of_wellFormed hwf e (Document.lt_size_of_isElement he)
  refine ⟨p.document keepAll, hshows.copies hwf, fun layout => ?_⟩
  exact hshows.exists_ofMarkup_layout_eq layout hwf he hspelled hunmixed keepAll

/-- An element with blank text, an element that holds both kinds of markers and a child with text,
and one that is empty. -/
def layeredMarkup : Document :=
  [Edit.setText 0 "\t", .createChild 0 (.named "b") (.named "b"), .createComment 1 "c-",
    .createCData 1 "]]", .createChild 1 (.named "d") (.named "d"), .setText 4 " x>",
    .createChild 0 (.named "e") (.named "e")].foldl Document.after
    (Document.withRoot (.named "a"))

theorem layouts_layeredMarkup :
    layeredMarkup.toMarkup ⟨some 1, true⟩ 0 =
        .ok ("<?xml version=\"1.0\" encoding=\"UTF-8\"?>\n<a>\t\n <b>\n  <!--c--->\n" ++
          "  <![CDATA[]]]]>\n  <d> x&gt;</d>\n </b>\n <e/>\n</a>") ∧
      layeredMarkup.toMarkup ⟨none, false⟩ 0 =
        .ok "<a>\t<b><!--c---><![CDATA[]]]]><d> x&gt;</d></b><e/></a>" ∧
      ∃ copy, layeredMarkup.Copies (layeredMarkup.preorder 0) copy ∧ ∀ layout : PrintOptions,
        ∃ s, layeredMarkup.toMarkup layout 0 = .ok s ∧
          Document.ofMarkup ⟨true, true⟩ s.toList = .ok copy := by
  have hreachable : Reachable layeredMarkup := (Reachable.withRoot (.named "a")).run _
  have hall : ∀ id < layeredMarkup.size,
      (layeredMarkup.node? id).all (fun n => decide n.Spelled && decide n.Unmixed) = true := by
    decide +kernel
  have hnode : ∀ id, layeredMarkup.Within 0 id → ∀ n, layeredMarkup.node? id = some n →
      n.Spelled ∧ n.Unmixed := by
    intro id hid n hn
    have hboth := hall id (Document.lt_size_of_within (by decide +kernel) hid)
    rw [hn] at hboth
    simpa using hboth
  exact ⟨by decide +kernel, by decide +kernel,
    exists_copies_forall_layout hreachable (by decide +kernel)
      (fun id hid n hn => (hnode id hid n hn).1) fun id hid n hn => (hnode id hid n hn).2⟩

end MarkupPath.Tree
