import MarkupPath.Proofs.Markup.AttributeNames
import MarkupPath.Proofs.Tree.Edits
import MarkupPath.Tree.Assembly

/-!
# Documents from markup are well formed

A document under construction is `Assembly.Sound`: it is well formed, the open tags are elements of
it, and the root seen so far is an element without a parent. Each event keeps it so
(`Assembly.Sound.step`), hence a text that is read to its end gives a well-formed document
(`wellFormed_of_ofMarkup`).
-/

set_option autoImplicit false

namespace MarkupPath.Tree

open MarkupPath.Markup (Attribute Located ReadError transcript nodup_of_mem_transcript)

namespace Document

variable {doc : Document} {parent id : NodeId} {n : Node}

/-! ## A new last child -/

theorem isElement_pushChild (hid : doc.isElement id = true) :
    (doc.pushChild parent n).isElement id = true := by
  rw [pushChild, isElement_attach, isElement, kind?_push,
    if_neg (Nat.ne_of_lt (lt_size_of_isElement hid))]
  exact hid

theorem isElement_pushChild_size (hn : n.isElement = true) :
    (doc.pushChild parent n).isElement doc.size = true := by
  rw [pushChild, isElement_attach, isElement, kind?_push, if_pos rfl]
  exact hn

theorem parent?_pushChild (hid : id < doc.size) :
    (doc.pushChild parent n).parent? id = doc.parent? id := by
  have hne : id ≠ doc.size := Nat.ne_of_lt hid
  rw [pushChild, parent?_attach, if_neg fun hand => hne hand.1, parent?_push, if_neg hne]

end Document

namespace Assembly

open Document

/-- What holds of a construction between two events. -/
structure Sound (a : Assembly) : Prop where
  wellFormed : a.document.WellFormed
  opened_elements : ∀ entry ∈ a.opened, a.document.isElement entry.1 = true
  root_element : ∀ id : NodeId, a.root = some id →
    a.document.isElement id = true ∧ a.document.parent? id = none

namespace Sound

variable {a next : Assembly}

theorem start : Assembly.start.Sound where
  wellFormed := .empty
  opened_elements := by simp [Assembly.start]
  root_element := by simp [Assembly.start]

/-- A new last child of an open element keeps a construction sound. -/
theorem pushChild (h : a.Sound) {parent : NodeId} (hparent : a.document.isElement parent = true)
    {n : Node} (hn : n.Fresh) :
    Sound { a with document := a.document.pushChild parent n } where
  wellFormed := h.wellFormed.pushChild hparent hn
  opened_elements := fun entry hentry => isElement_pushChild (h.opened_elements entry hentry)
  root_element := by
    intro id hid
    obtain ⟨helement, hroot⟩ := h.root_element id hid
    refine ⟨isElement_pushChild helement, ?_⟩
    rw [parent?_pushChild (lt_size_of_isElement helement)]
    exact hroot

/-- A new element keeps a construction sound, and is an element afterwards. -/
theorem addElement (h : a.Sound) {spec : ElementSpec}
    (hspec : (spec.attributes.map (·.name)).Nodup) {offset : Nat}
    (hok : a.addElement spec offset = .ok next) :
    next.Sound ∧ next.document.isElement a.document.size = true := by
  rw [Assembly.addElement] at hok
  split at hok
  · next entry parent offset' opened hopened =>
    cases hok
    have hparent : a.document.isElement parent = true :=
      h.opened_elements (parent, offset') (by rw [hopened]; exact List.mem_cons_self)
    exact ⟨h.pushChild hparent (ElementSpec.fresh_node hspec), isElement_pushChild_size rfl⟩
  · cases hok
  · -- the first element: it is no child, and becomes the root
    next hopened hroot =>
    cases hok
    have helement : (a.document.push spec.node).isElement a.document.size = true := by
      rw [isElement, kind?_push, if_pos rfl]
      rfl
    refine ⟨⟨h.wellFormed.push (ElementSpec.fresh_node hspec), ?_, ?_⟩, helement⟩
    · rw [hopened]
      exact List.forall_mem_nil _
    · intro id hid
      cases hid
      refine ⟨helement, ?_⟩
      rw [parent?_push, if_pos rfl]
      rfl

theorem isElement_addText (a : Assembly) (id : NodeId) (segment : String) (j : NodeId) :
    (a.addText id segment).document.isElement j = a.document.isElement j :=
  a.document.isElement_modify id
    (f := fun n => { n with text := some (n.text.getD "" ++ segment) }) (fun _ => rfl) j

theorem parent?_addText (a : Assembly) (id : NodeId) (segment : String) (j : NodeId) :
    (a.addText id segment).document.parent? j = a.document.parent? j :=
  a.document.parent?_modify_of_eq id
    (f := fun n => { n with text := some (n.text.getD "" ++ segment) }) (fun _ => rfl) j

theorem addText (h : a.Sound) (id : NodeId) (segment : String) : (a.addText id segment).Sound where
  wellFormed := h.wellFormed.modifyText id fun n => some (n.text.getD "" ++ segment)
  opened_elements := by
    intro entry hentry
    rw [isElement_addText]
    exact h.opened_elements entry hentry
  root_element := by
    intro root hroot
    rw [isElement_addText, parent?_addText]
    exact h.root_element root hroot

/-- Every event keeps a construction sound. -/
theorem step (h : a.Sound) {options : ReadOptions} {e : Located}
    (he : (e.event.attributes.map (·.name)).Nodup) (hok : a.step options e = .ok next) :
    next.Sound := by
  have helement : ∀ {id offset opened}, a.opened = (id, offset) :: opened →
      a.document.isElement id = true := by
    intro id offset opened hopened
    exact h.opened_elements (id, offset) (by rw [hopened]; exact List.mem_cons_self)
  rw [Assembly.step] at hok
  split at hok
  · -- a start tag: the new element is open from here on
    next name attributes hevent =>
    rw [hevent] at he
    obtain ⟨added, hadd, hok⟩ := exists_of_bind_eq_ok hok
    cases hok
    obtain ⟨hadded, hnew⟩ := h.addElement he hadd
    refine ⟨hadded.wellFormed, ?_, hadded.root_element⟩
    intro entry hentry
    rcases List.mem_cons.1 hentry with rfl | hentry
    · exact hnew
    · exact hadded.opened_elements entry hentry
  · -- an empty element
    next name attributes hevent =>
    rw [hevent] at he
    exact (h.addElement he hok).1
  · -- an end tag: it closes the innermost open element
    next name hevent =>
    split at hok
    · cases hok
    · next id offset opened hopened =>
      simp only at hok
      split at hok
      · cases hok
        refine ⟨h.wellFormed, ?_, h.root_element⟩
        intro entry hentry
        exact h.opened_elements entry (by rw [hopened]; exact List.mem_cons_of_mem _ hentry)
      · cases hok
  · -- text, which outside of all elements has to be blank
    next content hevent =>
    split at hok
    · cases hok
      exact h
    · split at hok
      · cases hok
        exact h.addText _ content
      · cases hok
  · -- a section of character data is a node if markers are kept, and text otherwise
    next content hevent =>
    split at hok
    · next id offset opened hopened =>
      split at hok
      · cases hok
        exact h.pushChild (helement hopened) (Node.fresh_ofCData content)
      · cases hok
        exact h.addText id content
    · cases hok
  · -- a comment is a node or nothing
    next content hevent =>
    split at hok
    · next id offset opened hopened =>
      split at hok
      · cases hok
        exact h.pushChild (helement hopened) (Node.fresh_ofComment content)
      · cases hok
        exact h
    · cases hok
      exact h
  all_goals
    cases hok
    exact h

/-- A run over events that list attributes with different names keeps a construction sound. -/
theorem run (h : a.Sound) {options : ReadOptions} {events : List Located}
    (hevents : ∀ e ∈ events, (e.event.attributes.map (·.name)).Nodup)
    (hok : events.foldlM (Assembly.step options) a = .ok next) : next.Sound := by
  induction events generalizing a with
  | nil =>
    cases hok
    exact h
  | cons e events ih =>
    rw [List.foldlM_cons] at hok
    obtain ⟨middle, hstep, hok⟩ := exists_of_bind_eq_ok hok
    have hmiddle := h.step (hevents e List.mem_cons_self) hstep
    exact ih hmiddle (fun later hlater => hevents later (List.mem_cons_of_mem _ hlater)) hok

theorem finish (h : a.Sound) {stop : Nat} {doc : Document} (hok : a.finish stop = .ok doc) :
    doc.WellFormed := by
  rw [Assembly.finish] at hok
  split at hok
  · cases hok
  · cases hok
  · next root hopened hroot =>
    cases hok
    obtain ⟨helement, hnone⟩ := h.root_element root hroot
    exact h.wellFormed.withDocumentElement helement hnone

end Sound

end Assembly

/-- A document that a text writes is well formed, whichever markers are kept. -/
theorem Document.wellFormed_of_ofMarkup {options : ReadOptions} {text : List Char} {doc : Document}
    (h : Document.ofMarkup options text = .ok doc) : doc.WellFormed := by
  obtain ⟨a, hrun, h⟩ := exists_of_bind_eq_ok h
  have hsound := Assembly.Sound.start.run (fun e => nodup_of_mem_transcript) hrun
  split at h
  · cases h
  · exact hsound.finish h

end MarkupPath.Tree
