import MarkupPath.Proofs.Tree.Building
import MarkupPath.Proofs.Tree.WellFormed
import MarkupPath.Proofs.Tree.Written

/-!
# How printed markup is laid out

With an indentation the printer breaks the line before every tag and marker but the first, and
before the end tag of an element with children. `Lays` relates a node to the text that is printed
of it between two such line breaks, and to the part that this text is read as. A line break is read
together with the own text in front of it, so it is a part only where there is none.

The printer's stack writes the text (`Lays.prints`), and the text is read as events of the part
(`Lays.exists_reads`), whichever the layout is.
-/

set_option autoImplicit false

namespace MarkupPath.Tree

open MarkupPath.Markup MarkupPath.Text

/-- Both kinds of markers become nodes. -/
def keepAll : ReadOptions := ⟨true, true⟩

/-- The parts that the own text of an element is read as: none if nothing is written. -/
def leadParts : Option String → List Part
  | none => []
  | some text => if text.toList = [] then [] else [.text text]

mutual

/-- At a level, behind its line break, the node is printed as the text, which is read as the
part. -/
inductive Lays (doc : Document) (layout : PrintOptions) :
    Nat → NodeId → List Char → Part → Prop where
  | comment {level : Nat} {id : NodeId} {text : Option String} {parent : Option NodeId} :
      doc.node? id = some ⟨.comment, text, parent⟩ →
      Lays doc layout level id (nodeText ⟨.comment, text, parent⟩) (.comment (text.getD ""))
  | cdata {level : Nat} {id : NodeId} {text : Option String} {parent : Option NodeId} :
      doc.node? id = some ⟨.cdata, text, parent⟩ →
      Lays doc layout level id (nodeText ⟨.cdata, text, parent⟩) (.cdata (text.getD ""))
  | leaf {level : Nat} {id : NodeId} {name : String} {attributes : List Attribute}
      {text : Option String} {parent : Option NodeId} :
      doc.node? id = some ⟨.element name attributes [], text, parent⟩ →
      Lays doc layout level id (nodeText ⟨.element name attributes [], text, parent⟩)
        (.element name attributes (leadParts text))
  | element {level : Nat} {id first : NodeId} {name : String} {attributes : List Attribute}
      {later : List NodeId} {text : Option String} {parent : Option NodeId} {cs : List Char}
      {ps : List Part} :
      doc.node? id = some ⟨.element name attributes (first :: later), text, parent⟩ →
      LaysAll doc layout level (text.getD "") (first :: later) cs ps →
      Lays doc layout level id
        (openText ⟨.element name attributes (first :: later), text, parent⟩ ++ '>' :: cs ++
          closeText name)
        (.element name attributes ps)

/-- Under an element at a level, behind a text that is still to be read, the nodes are printed one
after the other as the text with the line breaks between, which is read as the parts. -/
inductive LaysAll (doc : Document) (layout : PrintOptions) :
    Nat → String → List NodeId → List Char → List Part → Prop where
  | nil {level : Nat} {lead : String} :
      LaysAll doc layout level lead []
        (Reference.escapeText (lead.toList ++ layout.lineBreak true level))
        (leadParts (some (lead ++ String.ofList (layout.lineBreak true level))))
  | cons {level : Nat} {lead : String} {id : NodeId} {ids : List NodeId} {cs ds : List Char}
      {p : Part} {ps : List Part} :
      Lays doc layout (level + 1) id cs p → LaysAll doc layout level "" ids ds ps →
      LaysAll doc layout level lead (id :: ids)
        (Reference.escapeText (lead.toList ++ layout.lineBreak true (level + 1)) ++ cs ++ ds)
        (leadParts (some (lead ++ String.ofList (layout.lineBreak true (level + 1)))) ++ p :: ps)

end

section Laying

variable {doc : Document} {layout : PrintOptions}

/-! ## Printing -/

@[simp] theorem leadParts_empty : leadParts (some "") = [] := rfl

theorem sizes_leadParts (text : Option String) : Part.sizes keepAll (leadParts text) = 0 := by
  cases text with
  | none => rfl
  | some text =>
    rw [leadParts]
    split <;> rfl

theorem eq_of_mem_lineBreak {started : Bool} {level : Nat} {c : Char}
    (h : c ∈ layout.lineBreak started level) : c = '\n' ∨ c = ' ' := by
  rw [PrintOptions.lineBreak] at h
  split at h
  · split at h
    · exact (List.mem_cons.1 h).imp id List.eq_of_mem_replicate
    · cases h
  · cases h

/-- A line break is layout only. -/
theorem all_isAsciiBlank_lineBreak (started : Bool) (level : Nat) :
    (layout.lineBreak started level).all isAsciiBlank = true := by
  refine List.all_eq_true.2 fun c hc => ?_
  rcases eq_of_mem_lineBreak hc with rfl | rfl <;> decide

theorem escapeText_lineBreak (started : Bool) (level : Nat) :
    Reference.escapeText (layout.lineBreak started level) = layout.lineBreak started level := by
  refine (List.flatMap_congr fun c hc => ?_).trans (List.flatMap_singleton' _)
  rcases eq_of_mem_lineBreak hc with rfl | rfl <;> decide

theorem escapeText_append_lineBreak (text : List Char) (started : Bool) (level : Nat) :
    Reference.escapeText (text ++ layout.lineBreak started level) =
      Reference.escapeText text ++ layout.lineBreak started level := by
  rw [Reference.escapeText_append, escapeText_lineBreak]

/-- A node without children is written in one step. -/
theorem printFrom_leaf {id : NodeId} {n : Node} (hnode : doc.node? id = some n)
    (hchildren : n.children = []) (fuel : Nat) (started : Bool) (level : Nat)
    (stack : List Pending) :
    doc.printFrom layout (1 + fuel) started (.enter id level :: stack) =
      layout.lineBreak started level ++ nodeText n ++ doc.printFrom layout fuel true stack := by
  rw [Nat.add_comm, Document.printFrom, hnode]
  simp only [hchildren, List.map_nil, List.isEmpty_nil, if_true, List.nil_append]

/-- Behind its children an element is closed. -/
theorem printFrom_close {id : NodeId} {n : Node} (hnode : doc.node? id = some n) (fuel : Nat)
    (started : Bool) (level : Nat) (stack : List Pending) :
    doc.printFrom layout (fuel + 1) started (.close id level :: stack) =
      layout.lineBreak started level ++ closeText n.name ++
        doc.printFrom layout fuel true stack := by
  rw [Document.printFrom, Document.name?, hnode]
  rfl

mutual

/-- The stack of pending nodes writes what is laid out, in two steps for a node at most. -/
theorem Lays.prints {level : Nat} {id : NodeId} {cs : List Char} {p : Part} :
    Lays doc layout level id cs p → ∃ steps ≤ 2 * p.size keepAll, ∀ fuel started stack,
      doc.printFrom layout (steps + fuel) started (.enter id level :: stack) =
        layout.lineBreak started level ++ cs ++ doc.printFrom layout fuel true stack
  | .comment hnode => ⟨1, Nat.le_succ 1, fun fuel started stack =>
      printFrom_leaf hnode rfl fuel started _ stack⟩
  | .cdata hnode => ⟨1, Nat.le_succ 1, fun fuel started stack =>
      printFrom_leaf hnode rfl fuel started _ stack⟩
  | .leaf hnode => ⟨1, by rw [Part.size]; omega, fun fuel started stack =>
      printFrom_leaf hnode rfl fuel started _ stack⟩
  | .element hnode hall => by
      obtain ⟨steps, hsteps, hprints⟩ := hall.prints hnode
      refine ⟨steps + 2, ?_, ?_⟩
      · rw [Part.size]
        omega
      · intro fuel started stack
        have hbelow := hprints fuel stack
        -- the own text is written with the tag, so what is laid out inside starts with it
        rw [show steps + 2 + fuel = steps + 1 + fuel + 1 by omega, Document.printFrom, hnode]
        simp only [nodeText, Node.kind, Node.children, List.isEmpty_cons, Bool.false_eq_true,
          if_false, List.append_assoc, List.cons_append] at hbelow ⊢
        rw [hbelow]
        rfl

/-- The printer writes children in their layout and then the closing tag, in a number of turns
bounded by the nodes. -/
theorem LaysAll.prints {level : Nat} {id : NodeId} {n : Node} (hnode : doc.node? id = some n)
    {lead : String} {ids : List NodeId} {cs : List Char} {ps : List Part} :
    LaysAll doc layout level lead ids cs ps →
      ∃ steps ≤ 2 * Part.sizes keepAll ps, ∀ fuel stack,
        Reference.escapeText lead.toList ++ doc.printFrom layout (steps + 1 + fuel) true
            (ids.map (.enter · (level + 1)) ++ .close id level :: stack) =
          cs ++ closeText n.name ++ doc.printFrom layout fuel true stack
  | .nil => ⟨0, Nat.zero_le _, fun fuel stack => by
      rw [Nat.zero_add, Nat.add_comm, escapeText_append_lineBreak, List.map_nil, List.nil_append,
        printFrom_close hnode]
      simp only [List.append_assoc]⟩
  | .cons hfirst hlater => by
      obtain ⟨k, hk, hprints⟩ := hfirst.prints
      obtain ⟨m, hm, hrest⟩ := hlater.prints hnode
      refine ⟨k + m, ?_, ?_⟩
      · rw [Part.sizes_append, sizes_leadParts, Part.sizes]
        omega
      · intro fuel stack
        have hbehind := hrest fuel stack
        rw [String.toList_empty, Reference.escapeText_nil, List.nil_append] at hbehind
        rw [List.map_cons, List.cons_append, Nat.add_assoc k m 1, Nat.add_assoc k, hprints, hbehind,
          escapeText_append_lineBreak]
        simp only [List.append_assoc]

end

/-! ## Reading -/

/-- What is printed of the node can be read back: its names are read whole, and the body of a marker
does not hold the end of the marker. -/
def Node.Spelled (n : Node) : Prop :=
  match n.content with
  | .element name attributes _ =>
      Name.IsWhole name.toList ∧ ∀ a ∈ attributes, Name.IsWhole a.name.toList
  | .comment => ¬ "-->".toList <:+: (n.text.getD "").toList
  | .cdata => ¬ "]]>".toList <:+: (n.text.getD "").toList

instance : DecidablePred Node.Spelled
  | ⟨.element name attributes _, _, _⟩ => inferInstanceAs
      (Decidable (Name.IsWhole name.toList ∧ ∀ a ∈ attributes, Name.IsWhole a.name.toList))
  | ⟨.comment, text, _⟩ => inferInstanceAs
      (Decidable (¬ "-->".toList <:+: (text.getD "").toList))
  | ⟨.cdata, text, _⟩ => inferInstanceAs
      (Decidable (¬ "]]>".toList <:+: (text.getD "").toList))

/-- The own text of an element is read as the parts for it. -/
theorem exists_reads_leadParts (text : Option String) {rest : List Char}
    (hrest : rest.head? = some '<') :
    ∃ es, ReadsAs (Reference.escapeText (text.getD "").toList) es rest ∧
      Writes es (leadParts text) := by
  cases text with
  | none => exact ⟨[], .nil rest, .nil⟩
  | some text =>
    rw [Option.getD_some, leadParts]
    split
    · next hempty =>
      rw [hempty]
      exact ⟨[], .nil rest, .nil⟩
    · next hne => exact ⟨[.text text], readsAs_text hne hrest, .single (e := .text text) rfl .nil⟩

/-- An element is read as its tags around what stands between them. -/
theorem Tagged.exists_reads {n : Node} (h : Tagged n) {cs rest : List Char} {es : List Event}
    {ps : List Part} (hinside : ReadsAs cs es (closeText n.name ++ rest)) (hwrites : Writes es ps) :
    ∃ fs, ReadsAs (openText n ++ '>' :: cs ++ closeText n.name) fs rest ∧
      WritesElement fs (.element n.name n.attributes ps) := by
  refine ⟨_, ?_, .tagged hwrites⟩
  have hreads := (h.readsAs_start _).append (hinside.append (readsAs_closeText h.name rest))
  rwa [List.append_assoc, List.singleton_append, ← List.cons_append, ← List.append_assoc] at hreads

theorem head?_closeText_append (name : String) (rest : List Char) :
    (closeText name ++ rest).head? = some '<' := rfl

/-- An element without children is read as itself. -/
theorem exists_reads_leaf {name : String} {attributes : List Attribute} {text : Option String}
    {parent : Option NodeId} (h : Tagged ⟨.element name attributes [], text, parent⟩)
    (rest : List Char) :
    ∃ fs, ReadsAs (nodeText ⟨.element name attributes [], text, parent⟩) fs rest ∧
      WritesElement fs (.element name attributes (leadParts text)) := by
  cases text with
  | none => exact ⟨_, h.readsAs_empty rest, .empty name attributes⟩
  | some text =>
    obtain ⟨es, hlead, hparts⟩ :=
      exists_reads_leadParts (some text) (head?_closeText_append name rest)
    exact h.exists_reads hlead hparts

/-- A known element whose names can be written has the tags that the layout asks for. -/
theorem Document.WellFormed.tagged (hwf : doc.WellFormed) {id : NodeId} {name : String}
    {attributes : List Attribute} {children : List NodeId} {text : Option String}
    {parent : Option NodeId}
    (hnode : doc.node? id = some ⟨.element name attributes children, text, parent⟩)
    (hspelled : ∀ n, doc.node? id = some n → n.Spelled) :
    Tagged ⟨.element name attributes children, text, parent⟩ where
  name := (hspelled _ hnode).1
  attribute_names := (hspelled _ hnode).2
  nodup := by
    have hnodup := hwf.nodup_attributes id
    rw [Document.attributes, hnode] at hnodup
    exact hnodup

/-- What holds of all nodes within one holds of all within its children. -/
theorem Document.WellFormed.forall_within_children (hwf : doc.WellFormed) {id : NodeId} {n : Node}
    {P : NodeId → Prop} (hnode : doc.node? id = some n) (h : ∀ x, doc.Within id x → P x) :
    ∀ c ∈ n.children, ∀ x, doc.Within c x → P x := by
  intro c hc x hx
  have hchild : c ∈ doc.children id := by
    rw [Document.children, hnode]
    exact hc
  exact h x ((Document.Ancestor.parent (hwf.mem_children_iff.1 hchild)).within.trans hx)

/-- Whatever is printed starts with a tag or a marker. -/
theorem head?_nodeText (n : Node) : (nodeText n).head? = some '<' := by
  rcases n with ⟨⟨name, attributes, _ | ⟨first, later⟩⟩ | _ | _, _ | text, parent⟩ <;>
    simp [nodeText, Node.kind, Node.children, openText]

theorem Lays.head?_eq {level : Nat} {id : NodeId} {cs : List Char} {p : Part}
    (h : Lays doc layout level id cs p) : cs.head? = some '<' := by
  cases h with
  | comment _ => exact head?_nodeText _
  | cdata _ => exact head?_nodeText _
  | leaf _ => exact head?_nodeText _
  | element _ _ => rfl

mutual

/-- What is laid out for a node is read as events that write its part. -/
theorem Lays.exists_reads (hwf : doc.WellFormed) {level : Nat} {id : NodeId} {cs : List Char}
    {p : Part} :
    Lays doc layout level id cs p →
    (∀ x, doc.Within id x → ∀ n, doc.node? x = some n → n.Spelled) → ∀ rest,
    ∃ es, ReadsAs cs es rest ∧ Writes es [p] ∧ (doc.isElement id = true → WritesElement es p)
  | .comment hnode, hspelled, rest => by
      have hbody := hspelled id (.refl doc id) _ hnode
      refine ⟨_, readsAs_comment hbody rest, .single rfl .nil, fun helement => ?_⟩
      rw [Document.isElement, Document.kind?, hnode] at helement
      cases helement
  | .cdata hnode, hspelled, rest => by
      have hbody := hspelled id (.refl doc id) _ hnode
      refine ⟨_, readsAs_cdata hbody rest, .single rfl .nil, fun helement => ?_⟩
      rw [Document.isElement, Document.kind?, hnode] at helement
      cases helement
  | .leaf hnode, hspelled, rest => by
      have htagged := hwf.tagged hnode (hspelled id (.refl doc id))
      obtain ⟨es, hreads, helement⟩ := exists_reads_leaf htagged rest
      exact ⟨es, hreads, helement.writes, fun _ => helement⟩
  | .element hnode hall, hspelled, rest => by
      have htagged := hwf.tagged hnode (hspelled id (.refl doc id))
      obtain ⟨es, hreads, hwrites⟩ :=
        hall.exists_reads hwf (hwf.forall_within_children hnode hspelled)
          (head?_closeText_append _ rest)
      obtain ⟨fs, hfs, helement⟩ := htagged.exists_reads hreads hwrites
      exact ⟨fs, hfs, helement.writes, fun _ => helement⟩

/-- What is laid out is read as events that write the parts. -/
theorem LaysAll.exists_reads (hwf : doc.WellFormed) {level : Nat} {lead : String}
    {ids : List NodeId} {cs : List Char} {ps : List Part} :
    LaysAll doc layout level lead ids cs ps →
    (∀ id ∈ ids, ∀ x, doc.Within id x → ∀ n, doc.node? x = some n → n.Spelled) →
    ∀ {rest : List Char}, rest.head? = some '<' → ∃ es, ReadsAs cs es rest ∧ Writes es ps
  | .nil, _, rest, hrest => by
      have hlead := exists_reads_leadParts
        (some (lead ++ String.ofList (layout.lineBreak true level))) hrest
      rwa [Option.getD_some, String.toList_append, String.toList_ofList] at hlead
  | @LaysAll.cons _ _ _ _ id ids cs ds _ _ hfirst hlater, hspelled, rest, hrest => by
      obtain ⟨hid, hids⟩ := List.forall_mem_cons.1 hspelled
      obtain ⟨fs, hfs, hparts⟩ := hlater.exists_reads hwf hids hrest
      obtain ⟨es, hes, hwrites, -⟩ := hfirst.exists_reads hwf hid (ds ++ rest)
      -- the text in front ends where the first child starts, so it is read as one part
      have hhead : (cs ++ (ds ++ rest)).head? = some '<' := by
        rw [List.head?_append, hfirst.head?_eq]
        rfl
      obtain ⟨gs, hgs, hlead⟩ := exists_reads_leadParts
        (some (lead ++ String.ofList (layout.lineBreak true (level + 1)))) hhead
      rw [Option.getD_some, String.toList_append, String.toList_ofList] at hgs
      refine ⟨_, (hgs.append hes).append hfs, ?_⟩
      rw [List.append_assoc]
      exact hlead.append (hwrites.append hparts)

end

/-! ## Whole texts -/

theorem Document.exists_node?_of_lt {id : NodeId} (hid : id < doc.size) :
    ∃ n, doc.node? id = some n := by
  cases hnode : doc.node? id with
  | none => exact absurd hid (Nat.not_lt.2 (doc.node?_eq_none_iff.1 hnode))
  | some n => exact ⟨n, rfl⟩

/-- The printer writes what is laid out, behind the declaration if there is one. -/
theorem Lays.print_eq {e : NodeId} {cs : List Char} {p : Part} (h : Lays doc layout 0 e cs p)
    (hsize : p.size keepAll ≤ doc.size) :
    doc.print layout e =
      (if layout.declaration then declarationText else []) ++
        (layout.lineBreak layout.declaration 0 ++ cs) := by
  obtain ⟨steps, hsteps, hprints⟩ := h.prints
  rw [Document.print, show 2 * doc.size = steps + (2 * doc.size - steps) by omega, hprints,
    Document.printFrom, List.append_nil]

/-- A line break is read as nothing that counts. -/
theorem exists_reads_lineBreak (layout : PrintOptions) (started : Bool) (level : Nat)
    {rest : List Char} (hrest : rest.head? = some '<') :
    ∃ es, ReadsAs (layout.lineBreak started level) es rest ∧ ∀ e ∈ es, isSignificant e = false := by
  by_cases hempty : layout.lineBreak started level = []
  · rw [hempty]
    exact ⟨[], .nil rest, List.forall_mem_nil _⟩
  · have hne : (String.ofList (layout.lineBreak started level)).toList ≠ [] := by
      rwa [String.toList_ofList]
    have hreads := readsAs_text hne hrest
    rw [String.toList_ofList, escapeText_lineBreak] at hreads
    refine ⟨_, hreads, List.forall_mem_singleton.2 ?_⟩
    rw [isSignificant, String.toList_ofList, all_isAsciiBlank_lineBreak]
    rfl

/-- A declaration in front of a text is read as an event that does not count. -/
theorem exists_reads_declaration (declaration : Bool) (rest : List Char) :
    ∃ es, ReadsAs (if declaration then declarationText else []) es rest ∧
      ∀ e ∈ es, isSignificant e = false := by
  cases declaration with
  | false => exact ⟨[], .nil rest, List.forall_mem_nil _⟩
  | true => exact ⟨_, readsAs_declaration rest, by decide⟩

/-- What is printed of an element is read, with any options, as the part that the element is laid
out as. -/
theorem Lays.exists_ofMarkup_eq (hwf : doc.WellFormed) {e : NodeId} {cs : List Char} {p : Part}
    (h : Lays doc layout 0 e cs p) (hsize : p.size keepAll ≤ doc.size)
    (he : doc.isElement e = true)
    (hspelled : ∀ id, doc.Within e id → ∀ n, doc.node? id = some n → n.Spelled)
    (options : ReadOptions) :
    ∃ s, doc.toMarkup layout e = .ok s ∧
      Document.ofMarkup options s.toList = .ok (p.document options) := by
  obtain ⟨es, hreads, -, hwrites⟩ := h.exists_reads hwf hspelled []
  have hhead : (cs ++ []).head? = some '<' := by rw [List.append_nil, h.head?_eq]
  obtain ⟨gs, hbreak, hgs⟩ := exists_reads_lineBreak layout layout.declaration 0 hhead
  obtain ⟨fs, hdeclared, hfs⟩ := exists_reads_declaration layout.declaration
    (layout.lineBreak layout.declaration 0 ++ cs ++ [])
  obtain ⟨hfailure, hevents⟩ := (hdeclared.append (hbreak.append hreads)).transcript_eq
  have hholds : HoldsElement (fs ++ (gs ++ es)) p := by
    refine ⟨fs ++ gs, es, [], by simp, ?_, hwrites he, List.forall_mem_nil _⟩
    exact List.forall_mem_append.2 ⟨hfs, hgs⟩
  refine ⟨String.ofList (doc.print layout e), ?_, ?_⟩
  · obtain ⟨n, hn⟩ := Document.exists_node?_of_lt (Document.lt_size_of_isElement he)
    rw [Document.toMarkup, Document.need, hn]
    rfl
  · rw [String.toList_ofList, h.print_eq hsize]
    exact ofMarkup_eq_ok_iff.2 ⟨hfailure, p, hevents ▸ hholds, rfl⟩

end Laying

end MarkupPath.Tree
