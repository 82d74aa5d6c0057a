import MarkupPath.Proofs.Tree.Layout
import MarkupPath.Proofs.Tree.Reachable
import Mathlib.Logic.Function.Iterate

/-!
# Printing by recursion

The printer works off one stack, on which nodes to be written stand among the end tags of the
elements that are open. `Document.printStep` is one turn of this loop, without any count of turns.
`Subtree.markup` writes a subtree by recursion instead: a tag, what stands below it one level
deeper, and the end tag.

`printing_eq_recursion` shows that both write the same. What a subtree at the top of the stack
writes depends on nothing below it, and after exactly `Subtree.entries` turns it is worked off
(`Holds.iterate_printStep`), so the induction is on the subtree, for every stack and every text in
front.
-/

set_option autoImplicit false

namespace MarkupPath.Tree

open MarkupPath.Markup

/-! ## Subtrees -/

/-- A node with what stands below it. -/
inductive Subtree where
  | node (id : NodeId) (data : Node) (below : List Subtree)

namespace Subtree

/-- The node that the others stand below. -/
def root : Subtree → NodeId
  | node id _ _ => id

mutual

/-- A subtree as it is written at a level, behind some text or at the very start. -/
def markup (options : PrintOptions) (started : Bool) (level : Nat) : Subtree → List Char
  | node _ n below =>
      options.lineBreak started level ++
        match n.kind with
        | .comment => "<!--".toList ++ (n.text.getD "").toList ++ "-->".toList
        | .cdata => "<![CDATA[".toList ++ (n.text.getD "").toList ++ "]]>".toList
        | .element =>
            if n.text = none ∧ below.isEmpty then
              openText n ++ "/>".toList
            else
              openText n ++ '>' :: Reference.escapeText (n.text.getD "").toList ++
                markups options (level + 1) below ++
                (if below.isEmpty then [] else options.lineBreak true level) ++ closeText n.name

/-- Subtrees as they are written one after the other, behind some text. -/
def markups (options : PrintOptions) (level : Nat) : List Subtree → List Char
  | [] => []
  | t :: ts => markup options true level t ++ markups options level ts

end

mutual

/-- How many parts of a subtree are pending at some time: every node, and every end tag behind
children. -/
def entries : Subtree → Nat
  | node _ _ below => 1 + entriesAll below + if below.isEmpty then 0 else 1

/-- How many parts of the subtrees are pending at some time. -/
def entriesAll : List Subtree → Nat
  | [] => 0
  | t :: ts => entries t + entriesAll ts

end

variable {options : PrintOptions} {id : NodeId} {n : Node}

/-- A node with nothing below it is written in one piece. -/
theorem markup_leaf (hchildren : n.children = []) (started : Bool) (level : Nat) :
    (node id n []).markup options started level =
      options.lineBreak started level ++ nodeText n := by
  obtain ⟨_ | _ | _, _ | text, parent⟩ := n <;>
    simp_all [markup, markups, nodeText, Node.kind, Node.children, Node.name]

/-- A node with something below it is an element, and its end tag stands behind that. -/
theorem markup_element (hchildren : n.children ≠ []) {first : Subtree} {later : List Subtree}
    (started : Bool) (level : Nat) :
    (node id n (first :: later)).markup options started level =
      options.lineBreak started level ++ nodeText n ++
        markups options (level + 1) (first :: later) ++ options.lineBreak true level ++
        closeText n.name := by
  obtain ⟨⟨name, attributes, _ | _⟩ | _ | _, text, parent⟩ := n <;>
    simp_all [markup, nodeText, Node.kind, Node.children, Node.name]

/-- Behind its line break, a subtree starts with a tag or a marker. -/
theorem exists_markup_eq (options : PrintOptions) (started : Bool) (level : Nat) (t : Subtree) :
    ∃ rest, t.markup options started level = options.lineBreak started level ++ '<' :: rest := by
  obtain ⟨id, n, below⟩ := t
  rw [markup]
  split
  · exact ⟨_, rfl⟩
  · exact ⟨_, rfl⟩
  · split
    · exact ⟨_, rfl⟩
    · simp only [openText, List.cons_append]
      exact ⟨_, rfl⟩

/-- The entries for children are bounded by their nodes if those for each child are. -/
theorem entriesAll_le {f : NodeId → List NodeId} {ts : List Subtree}
    (hts : ∀ t ∈ ts, t.entries ≤ 2 * (f t.root).length) :
    entriesAll ts ≤ 2 * ((ts.map root).flatMap f).length := by
  induction ts with
  | nil => exact Nat.le_refl 0
  | cons t ts ih =>
    obtain ⟨ht, hts⟩ := List.forall_mem_cons.1 hts
    have hrest := ih hts
    rw [entriesAll, List.map_cons, List.flatMap_cons, List.length_append]
    omega

end Subtree

/-- The document has the subtree: its nodes are nodes of the document, and the children of each
stand directly below it, in order. -/
inductive Document.Holds (doc : Document) : Subtree → Prop where
  | node {id : NodeId} {n : Node} {below : List Subtree} :
      doc.node? id = some n → below.map Subtree.root = n.children →
      (∀ t ∈ below, doc.Holds t) → doc.Holds (.node id n below)

/-! ## The loop -/

/-- A printer at work: the parts still to be written, the next one first, and the text so far. -/
structure Printing where
  stack : List Pending
  written : List Char
  deriving DecidableEq, Repr

/-- A printer before its first turn: the declaration is written, if there is one. -/
def Printing.start (options : PrintOptions) (id : NodeId) : Printing :=
  ⟨[.enter id 0], if options.declaration then declarationText else []⟩

theorem head?_declarationText : declarationText.head? = some '<' := by
  decide +kernel

/-- At the start, only the declaration can be written. -/
theorem Printing.started_start (options : PrintOptions) (id : NodeId) :
    (!(Printing.start options id).written.isEmpty) = options.declaration := by
  have hsome : declarationText.isEmpty = false := by decide +kernel
  rw [start]
  cases options.declaration with
  | false => rfl
  | true => exact congrArg (!·) hsome

namespace Document

/-- One turn of the printer: the next part is written, and the children of an element and its end
tag take its place. -/
def printStep (doc : Document) (options : PrintOptions) : Printing → Printing
  | ⟨[], written⟩ => ⟨[], written⟩
  | ⟨.close id level :: stack, written⟩ =>
      ⟨stack, written ++ options.lineBreak (!written.isEmpty) level ++
        closeText ((doc.name? id).getD "")⟩
  | ⟨.enter id level :: stack, written⟩ =>
      match doc.node? id with
      | none => ⟨stack, written⟩
      | some n =>
          ⟨n.children.map (.enter · (level + 1)) ++
              if n.children.isEmpty then stack else .close id level :: stack,
            written ++ options.lineBreak (!written.isEmpty) level ++ nodeText n⟩

section Loop

variable {doc : Document} {options : PrintOptions}

theorem iterate_printStep_nil (k : Nat) (written : List Char) :
    (doc.printStep options)^[k] ⟨[], written⟩ = ⟨[], written⟩ :=
  Function.iterate_fixed rfl k

theorem nodeText_ne_nil (n : Node) : nodeText n ≠ [] := fun h => by
  have hhead := head?_nodeText n
  rw [h] at hhead
  cases hhead

/-- Behind a text that is written, the line is broken. -/
theorem started_append {text : List Char} (htext : text ≠ []) (written : List Char) :
    (!(written ++ text).isEmpty) = true := by
  rw [Bool.not_eq_true', List.isEmpty_eq_false_iff]
  exact List.append_ne_nil_of_right_ne_nil _ htext

variable (doc options) in
/-- What a count of turns writes is what the loop has written after these turns. -/
theorem written_iterate_printStep (fuel : Nat) (stack : List Pending) (written : List Char) :
    ((doc.printStep options)^[fuel] ⟨stack, written⟩).written =
      written ++ doc.printFrom options fuel (!written.isEmpty) stack := by
  induction fuel generalizing stack written with
  | zero => cases stack <;> exact (List.append_nil written).symm
  | succ fuel ih =>
    cases stack with
    | nil => rw [iterate_printStep_nil, printFrom, List.append_nil]
    | cons part stack =>
      rw [Function.iterate_succ_apply]
      cases part with
      | close id level =>
        rw [printStep, ih, started_append (by simp [closeText]), printFrom]
        simp only [List.append_assoc]
      | enter id level =>
        cases hnode : doc.node? id with
        | none => simp only [printStep, printFrom, hnode, ih]
        | some n =>
          simp only [printStep, printFrom, hnode]
          rw [ih, started_append (nodeText_ne_nil n)]
          simp only [List.append_assoc]

/-! ## Subtrees on the stack -/

variable (options) in
theorem printStep_enter {id : NodeId} {n : Node} (hnode : doc.node? id = some n) (level : Nat)
    (stack : List Pending) (written : List Char) :
    doc.printStep options ⟨.enter id level :: stack, written⟩ =
      ⟨n.children.map (.enter · (level + 1)) ++
          if n.children.isEmpty then stack else .close id level :: stack,
        written ++ options.lineBreak (!written.isEmpty) level ++ nodeText n⟩ := by
  simp only [printStep, hnode]

variable (options) in
theorem printStep_close {id : NodeId} {n : Node} (hnode : doc.node? id = some n) (level : Nat)
    (stack : List Pending) {written : List Char} (hwritten : written ≠ []) :
    doc.printStep options ⟨.close id level :: stack, written⟩ =
      ⟨stack, written ++ options.lineBreak true level ++ closeText n.name⟩ := by
  have hstarted : (!written.isEmpty) = true := by simpa using hwritten
  rw [printStep, hstarted, name?, hnode, Option.map_some, Option.getD_some]

/-- Wherever the subtree stands at the top of the stack, the turns for its parts write it behind the
text so far, and leave the rest of the stack as it is. -/
def Prints (doc : Document) (options : PrintOptions) (t : Subtree) : Prop :=
  ∀ level stack written,
    (doc.printStep options)^[t.entries] ⟨.enter t.root level :: stack, written⟩ =
      ⟨stack, written ++ t.markup options (!written.isEmpty) level⟩

/-- Children are written one behind the other if each of them is, whatever is pending behind
them. -/
theorem iterate_printStep_all {ts : List Subtree} (hts : ∀ t ∈ ts, doc.Prints options t)
    (level : Nat) (stack : List Pending) {written : List Char} (hwritten : written ≠ []) :
    (doc.printStep options)^[Subtree.entriesAll ts]
        ⟨(ts.map Subtree.root).map (.enter · level) ++ stack, written⟩ =
      ⟨stack, written ++ Subtree.markups options level ts⟩ := by
  induction ts generalizing written with
  | nil => simp [Subtree.entriesAll, Subtree.markups]
  | cons t ts ih =>
    obtain ⟨ht, hts⟩ := List.forall_mem_cons.1 hts
    have hstarted : (!written.isEmpty) = true := by simpa using hwritten
    rw [Subtree.entriesAll, Nat.add_comm, Function.iterate_add_apply, List.map_cons, List.map_cons,
      List.cons_append, ht, hstarted, ih hts (by simp [hwritten]), Subtree.markups,
      List.append_assoc]

/-- The loop writes a subtree in as many turns as it has entries and leaves what was pending:
induction on the tree that the document holds. -/
theorem Holds.prints {t : Subtree} (ht : doc.Holds t) : doc.Prints options t := by
  induction ht with
  | @node id n below hnode hchildren _ ih =>
    intro level stack written
    have htag := printStep_enter options hnode level stack written
    have htagged := List.append_ne_nil_of_right_ne_nil
      (written ++ options.lineBreak (!written.isEmpty) level) (nodeText_ne_nil n)
    cases below with
    | nil =>
      have hnone : n.children = [] := hchildren.symm
      rw [hnone] at htag
      rw [Subtree.markup_leaf hnone, ← List.append_assoc]
      exact htag
    | cons first later =>
      have hsome : n.children ≠ [] := by simp [← hchildren]
      -- the end tag waits on the stack while the subtrees below are written
      have hbelow := iterate_printStep_all ih (level + 1) (.close id level :: stack) htagged
      have hclose := printStep_close options hnode level stack
        (List.append_ne_nil_of_left_ne_nil htagged
          (Subtree.markups options (level + 1) (first :: later)))
      rw [if_neg (by simpa using hsome), ← hchildren] at htag
      have hentries : (Subtree.node id n (first :: later)).entries =
          Subtree.entriesAll (first :: later) + 1 + 1 := by
        rw [Subtree.entries, Nat.add_comm 1]
        rfl
      rw [hentries, Function.iterate_succ_apply', Function.iterate_succ_apply, Subtree.root, htag,
        hbelow, hclose, Subtree.markup_element hsome]
      simp only [List.append_assoc]

/-- A subtree that is worked off stays so. -/
theorem Holds.iterate_printStep {t : Subtree} (ht : doc.Holds t) {k : Nat} (hk : t.entries ≤ k) :
    (doc.printStep options)^[k] (.start options t.root) =
      ⟨[], (Printing.start options t.root).written ++
        t.markup options options.declaration 0⟩ := by
  obtain ⟨more, rfl⟩ := Nat.exists_eq_add_of_le' hk
  have hstarted := Printing.started_start options t.root
  rw [Printing.start] at hstarted ⊢
  rw [Function.iterate_add_apply, ht.prints, iterate_printStep_nil, hstarted]

end Loop

/-! ## Known nodes -/

namespace WellFormed

variable {doc : Document} (h : doc.WellFormed)

include h

/-- Below each node there is a finite tree, since no node is above itself. -/
theorem exists_holds {id : NodeId} (hid : id < doc.size) : ∃ t, doc.Holds t ∧ t.root = id := by
  induction id using h.child_induction with
  | step p ih =>
    obtain ⟨n, hnode⟩ := exists_node?_of_lt hid
    have hbelow : ∀ c : {c // c ∈ n.children}, ∃ t, doc.Holds t ∧ t.root = c := by
      rintro ⟨c, hc⟩
      have hchild : c ∈ doc.children p := by rwa [children, hnode]
      exact ih c (h.mem_children_iff.1 hchild) (h.child_lt_size hchild)
    choose below hholds hroot using hbelow
    refine ⟨.node p n (n.children.attach.map below), .node hnode ?_ ?_, rfl⟩
    · have hroots : Subtree.root ∘ below = Subtype.val := funext hroot
      rw [List.map_map, hroots, List.attach_map_subtype_val]
    · intro t ht
      obtain ⟨c, -, rfl⟩ := List.mem_map.1 ht
      exact hholds c

/-- A node has two parts at most, itself and its end tag. -/
theorem entries_le {t : Subtree} (ht : doc.Holds t) :
    t.entries ≤ 2 * (doc.preorder t.root).length := by
  induction ht with
  | @node id n below hnode hchildren _ ih =>
    have hbelow := Subtree.entriesAll_le ih
    have hnodes : doc.children id = below.map Subtree.root := by
      rw [children, hnode, hchildren]
    rw [Subtree.root, h.preorder_eq (lt_size_of_node? hnode), hnodes, List.length_cons,
      Subtree.entries]
    split <;> omega

/-- The count of turns that the printer is given is enough. -/
theorem print_eq {t : Subtree} (ht : doc.Holds t) (options : PrintOptions) :
    doc.print options t.root =
      (Printing.start options t.root).written ++ t.markup options options.declaration 0 := by
  have henough : t.entries ≤ 2 * doc.size :=
    Nat.le_trans (h.entries_le ht) (Nat.mul_le_mul_left 2 (length_preorder_le t.root))
  have hwritten := written_iterate_printStep doc options (2 * doc.size) [.enter t.root 0]
    (Printing.start options t.root).written
  rw [Printing.started_start] at hwritten
  exact hwritten.symm.trans (congrArg Printing.written (ht.iterate_printStep henough))

end WellFormed

end Document

/-- Nothing stands in front of the first tag, marker or declaration. -/
theorem head?_start_append (options : PrintOptions) (id : NodeId) (t : Subtree) :
    ((Printing.start options id).written ++ t.markup options options.declaration 0).head? =
      some '<' := by
  obtain ⟨rest, hrest⟩ := t.exists_markup_eq options options.declaration 0
  rw [hrest, Printing.start]
  cases options.declaration with
  | false =>
    have hbreak : options.lineBreak false 0 = [] := by
      rw [PrintOptions.lineBreak]
      split <;> rfl
    rw [hbreak]
    rfl
  | true =>
    rw [List.head?_append, if_pos rfl, head?_declarationText]
    rfl

open Document

/-- The subtree of a known node of a reachable document is found in it; and for the loop of the
printer, started at the node, whatever the options: after as many turns as the subtree has parts,
and ever after, nothing is pending and the declaration and the recursively written subtree are
written; this is what the document gives as the text of the node; and the text starts with a tag, a
marker or the declaration, not with a line break. -/
theorem printing_eq_recursion {doc : Document} (h : Reachable doc) {id : NodeId}
    (hid : id < doc.size) (options : PrintOptions) :
    (∃ t, doc.Holds t ∧ t.root = id) ∧
      ∀ t, doc.Holds t → t.root = id →
        let text := (Printing.start options id).written ++
          t.markup options options.declaration 0
        (∀ k, t.entries ≤ k → (doc.printStep options)^[k] (.start options id) = ⟨[], text⟩) ∧
          doc.toMarkup options id = .ok (String.ofList text) ∧ text.head? = some '<' := by
  have hwf := h.wellFormed
  refine ⟨hwf.exists_holds hid, ?_⟩
  rintro t ht rfl
  obtain ⟨n, hnode⟩ := exists_node?_of_lt hid
  refine ⟨fun k hk => ht.iterate_printStep hk, ?_, head?_start_append options t.root t⟩
  rw [toMarkup, need_eq_ok_iff.2 hnode, hwf.print_eq ht]
  rfl

/-- An element with a quotation mark in an attribute and text, with a comment, an element around
character data, and an empty element below it. -/
def annotatedNote : Document :=
  [Edit.setAttribute 0 "k" "\"", .setText 0 "<", .createComment 0 "c-",
    .createChild 0 (.named "b") (.named "b"), .createCData 2 "]]",
    .createChild 0 (.named "e") (.named "e")].foldl after (withRoot (.named "a"))

/-- The note as the recursion sees it. -/
def annotatedNoteTree : Subtree :=
  .node 0 ⟨.element "a" [⟨"k", "\""⟩] [1, 2, 4], some "<", none⟩
    [.node 1 ⟨.comment, some "c-", some 0⟩ [],
      .node 2 ⟨.element "b" [] [3], none, some 0⟩ [.node 3 ⟨.cdata, some "]]", some 2⟩ []],
      .node 4 ⟨.element "e" [] [], none, some 0⟩ []]

theorem holds_annotatedNoteTree : annotatedNote.Holds annotatedNoteTree := by
  have hleaf : ∀ {id : NodeId} {n : Node}, annotatedNote.node? id = some n → n.children = [] →
      annotatedNote.Holds (.node id n []) := fun hnode hnone =>
    .node hnode hnone.symm (List.forall_mem_nil _)
  refine .node (by decide +kernel) (by decide +kernel) ?_
  rw [List.forall_mem_cons, List.forall_mem_cons, List.forall_mem_singleton]
  refine ⟨hleaf (by decide +kernel) rfl, .node (by decide +kernel) (by decide +kernel) ?_,
    hleaf (by decide +kernel) rfl⟩
  rw [List.forall_mem_singleton]
  exact hleaf (by decide +kernel) rfl

theorem printing_annotatedNote :
    let options : PrintOptions := ⟨some 1, true⟩
    annotatedNote.Holds annotatedNoteTree ∧ annotatedNoteTree.entries = 7 ∧
      String.ofList (annotatedNoteTree.markup options true 0) =
        "\n<a k=\"&quot;\">&lt;\n <!--c--->\n <b>\n  <![CDATA[]]]]>\n </b>\n <e/>\n</a>" ∧
      (annotatedNote.printStep options)^[7] (.start options 0) =
        ⟨[], declarationText ++ annotatedNoteTree.markup options true 0⟩ ∧
      annotatedNote.toMarkup options 0 =
        .ok (String.ofList (declarationText ++ annotatedNoteTree.markup options true 0)) := by
  intro options
  have hreachable : Reachable annotatedNote := (Reachable.withRoot (.named "a")).run _
  have hknown : 0 < annotatedNote.size := by decide +kernel
  obtain ⟨-, hprints⟩ := printing_eq_recursion hreachable hknown options
  obtain ⟨hloop, htext, -⟩ := hprints annotatedNoteTree holds_annotatedNoteTree rfl
  exact ⟨holds_annotatedNoteTree, by decide +kernel, by decide +kernel, hloop 7 (by decide +kernel),
    htext⟩

end MarkupPath.Tree
