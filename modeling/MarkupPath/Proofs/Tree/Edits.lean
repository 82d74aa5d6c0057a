import MarkupPath.Proofs.Tree.Walk

/-!
# Edits of well-formed documents

`Edit` is one call of an operation that changes a document, with all it is given, and
`Document.after` is the document behind it: the changed one, or the same one if the edit is
refused. Every edit keeps a document well formed (`Document.WellFormed.after`), whatever nodes it
names.

An element to create is described step by step, which `ElementSpec.Built` records; that is why its
attributes have different names (`ElementSpec.Built.nodup`).
-/

set_option autoImplicit false

namespace MarkupPath.Tree

open MarkupPath.Markup (Attribute)

/-- A computation in two parts succeeds only if both of them do. -/
theorem exists_of_bind_eq_ok {ε α β : Type} {m : Except ε α} {f : α → Except ε β} {b : β}
    (h : (m >>= f) = .ok b) : ∃ a, m = .ok a ∧ f a = .ok b := by
  cases m with
  | error e => cases h
  | ok a => exact ⟨a, rfl, h⟩

/-! ## Lists of attributes -/

/-- Setting an attribute adds its name unless it is there. -/
theorem map_name_setAttribute (name value : String) (attributes : List Attribute) :
    (setAttribute name value attributes).map (·.name) =
      if name ∈ attributes.map (·.name) then attributes.map (·.name)
      else attributes.map (·.name) ++ [name] := by
  induction attributes with
  | nil => rfl
  | cons a rest ih =>
    rw [setAttribute]
    by_cases ha : a.name = name
    · simp [ha]
    · have hne : (a.name == name) = false := beq_eq_false_iff_ne.2 ha
      rw [hne, if_neg Bool.false_ne_true, List.map_cons, ih]
      simp only [List.map_cons, List.mem_cons, Ne.symm ha, false_or]
      split <;> rfl

/-- Setting an attribute replaces the one of that name or adds a new name. -/
theorem nodup_setAttribute {attributes : List Attribute} (h : (attributes.map (·.name)).Nodup)
    (name value : String) : ((setAttribute name value attributes).map (·.name)).Nodup := by
  rw [map_name_setAttribute]
  split
  · exact h
  · next hnew =>
    refine List.nodup_append.2 ⟨h, List.nodup_singleton _, ?_⟩
    intro other hother last hlast heq
    rw [heq, List.mem_singleton.1 hlast] at hother
    exact hnew hother

theorem nodup_removeAttribute {attributes : List Attribute} (h : (attributes.map (·.name)).Nodup)
    (name : String) : ((removeAttribute name attributes).map (·.name)).Nodup :=
  h.sublist ((List.eraseP_sublist).map _)

/-! ## New nodes -/

/-- A description of an element, put together from a name. -/
inductive ElementSpec.Built : ElementSpec → Prop where
  | named (name : String) : Built (ElementSpec.named name)
  | withAttribute {spec : ElementSpec} (name value : String) :
      Built spec → Built (spec.withAttribute name value)
  | withText {spec : ElementSpec} (text : String) : Built spec → Built (spec.withText text)

theorem ElementSpec.Built.nodup {spec : ElementSpec} (h : spec.Built) :
    (spec.attributes.map (·.name)).Nodup := by
  induction h with
  | named name => exact List.nodup_nil
  | withAttribute name value _ ih => exact nodup_setAttribute ih name value
  | withText text _ ih => exact ih

theorem ElementSpec.fresh_node {spec : ElementSpec} (h : (spec.attributes.map (·.name)).Nodup) :
    spec.node.Fresh :=
  ⟨rfl, rfl, h⟩

theorem Node.fresh_ofComment (body : String) : (Node.ofComment body).Fresh :=
  ⟨rfl, rfl, List.nodup_nil⟩

theorem Node.fresh_ofCData (body : String) : (Node.ofCData body).Fresh :=
  ⟨rfl, rfl, List.nodup_nil⟩

/-! ## Edits -/

/-- An operation that changes a document, with what it is given. -/
inductive Edit where
  | createElement (spec : ElementSpec) (built : spec.Built)
  | createChild (parent : NodeId) (spec : ElementSpec) (built : spec.Built)
  | createComment (parent : NodeId) (body : String)
  | createCData (parent : NodeId) (body : String)
  | appendChild (parent child : NodeId)
  | insertChild (parent : NodeId) (index : Nat) (child : NodeId)
  | remove (id : NodeId)
  | setDocumentElement (id : NodeId)
  | setAttribute (id : NodeId) (name value : String)
  | removeAttribute (id : NodeId) (name : String)
  | setText (id : NodeId) (text : String)
  | clearText (id : NodeId)

/-- The document that an edit makes of a document, or the fault that it is refused with. -/
def Edit.apply (doc : Document) : Edit → Except TreeError Document
  | .createElement spec _ => .ok (doc.createElement spec).2
  | .createChild parent spec _ => (doc.createChild parent spec).map (·.2)
  | .createComment parent body => (doc.createComment parent body).map (·.2)
  | .createCData parent body => (doc.createCData parent body).map (·.2)
  | .appendChild parent child => doc.appendChild parent child
  | .insertChild parent index child => doc.insertChild parent index child
  | .remove id => doc.remove id
  | .setDocumentElement id => doc.setDocumentElement id
  | .setAttribute id name value => (doc.setAttribute id name value).map (·.2)
  | .removeAttribute id name => (doc.removeAttribute id name).map (·.2)
  | .setText id text => (doc.setText id text).map (·.2)
  | .clearText id => (doc.clearText id).map (·.2)

namespace Document

/-- The document behind an edit; one that is refused leaves it as it is. -/
def after (doc : Document) (edit : Edit) : Document :=
  match edit.apply doc with
  | .ok edited => edited
  | .error _ => doc

/-! ## Checks -/

section Checks

variable {doc : Document} {id parent child : NodeId}

theorem need_eq_ok_iff {n : Node} : doc.need id = .ok n ↔ doc.node? id = some n := by
  rw [need]
  split <;> simp_all

/-- The check gives the node itself. -/
theorem needElement_eq_ok_iff {n : Node} :
    doc.needElement id = .ok n ↔ doc.node? id = some n ∧ n.isElement = true := by
  rw [needElement]
  split
  · next m hm =>
    rw [hm, Option.some.injEq]
    split
    · next he =>
      rw [Except.ok.injEq]
      exact ⟨fun heq => ⟨heq, heq ▸ he⟩, And.left⟩
    · next he =>
      constructor
      · intro heq
        cases heq
      · rintro ⟨rfl, hn⟩
        exact absurd hn he
  · next hm => simp [hm]

theorem isElement_of_needElement {n : Node} (h : doc.needElement id = .ok n) :
    doc.isElement id = true :=
  doc.isElement_iff.2 ⟨n, needElement_eq_ok_iff.1 h⟩

/-- The checks before a move: an element, a known node, and no cycle. -/
theorem of_checkInsert {u : Unit} (h : doc.checkInsert parent child = .ok u) :
    doc.isElement parent = true ∧ child < doc.size ∧ parent ≠ child ∧
      doc.isAncestor child parent = false := by
  obtain ⟨n, hp, h⟩ := exists_of_bind_eq_ok h
  obtain ⟨m, hc, h⟩ := exists_of_bind_eq_ok h
  refine ⟨isElement_of_needElement hp, lt_size_of_node? (need_eq_ok_iff.1 hc), ?_⟩
  by_cases hcycle : (parent == child || doc.isAncestor child parent) = true
  · simp [hcycle, throw, throwThe, MonadExceptOf.throw] at h
  · simpa [not_or] using hcycle

end Checks

namespace WellFormed

variable {doc : Document}

/-! ## Each edit -/

/-- A fresh node that is attached where it is created keeps a document well formed. -/
theorem pushChild (h : doc.WellFormed) {parent : NodeId} (hparent : doc.isElement parent = true)
    {n : Node} (hn : n.Fresh) : (doc.pushChild parent n).WellFormed := by
  have hpush := h.push hn
  -- the new node is the first unknown one, so it is not the parent and nothing stands below it
  have hne : parent ≠ doc.size := Nat.ne_of_lt (lt_size_of_isElement hparent)
  refine hpush.attach ?_ ?_ ?_ ?_ fun l => List.perm_append_singleton _ _
  · rw [isElement, kind?_push, if_neg hne]
    exact hparent
  · rw [size_push]
    exact Nat.lt_succ_self _
  · rw [parent?_push, if_pos rfl, hn.parent_eq]
  · rintro (heq | ha)
    · exact hne heq
    · obtain ⟨c, hc, -⟩ := ancestor_iff_child.1 ha
      have hmem := hpush.mem_children_iff.2 hc
      rw [children_push, if_pos rfl, hn.children_eq] at hmem
      cases hmem

theorem createUnder (h : doc.WellFormed) {parent : NodeId} {n : Node} (hn : n.Fresh)
    {created : NodeId × Document} (hok : doc.createUnder parent n = .ok created) :
    created.2.WellFormed := by
  obtain ⟨m, hp, hok⟩ := exists_of_bind_eq_ok hok
  cases hok
  exact h.pushChild (isElement_of_needElement hp) hn

/-- A move keeps a document well formed: the moved node becomes a root, and no node that could be
its new parent is below it. -/
theorem move (h : doc.WellFormed) {parent child : NodeId} {place : List NodeId → List NodeId}
    (hplace : ∀ l, (place l).Perm (child :: l)) {moved : Document}
    (hok : doc.move parent child place = .ok moved) : moved.WellFormed := by
  obtain ⟨u, hcheck, hok⟩ := exists_of_bind_eq_ok hok
  cases hok
  obtain ⟨helement, hknown, hne, hacyclic⟩ := of_checkInsert hcheck
  refine (h.detach child).attach ?_ ?_ ?_ ?_ hplace
  · rw [isElement_detach]
    exact helement
  · rw [size_detach]
    exact hknown
  · rw [parent?_detach, if_pos rfl]
  · rintro (heq | ha)
    · exact hne heq
    · -- detaching adds nothing to the relation, so the check before it has seen the cycle
      have hbefore : doc.Ancestor child parent := by
        apply ha.mono
        intro c p hp
        rw [parent?_detach] at hp
        split at hp
        · cases hp
        · exact hp
      rw [h.isAncestor_iff.2 hbefore] at hacyclic
      cases hacyclic

theorem perm_placeAt (index : Nat) (child : NodeId) (children : List NodeId) :
    (placeAt index child children).Perm (child :: children) := by
  rw [placeAt]
  apply List.perm_middle.trans
  apply List.Perm.cons
  rw [List.take_append_drop]

theorem remove (h : doc.WellFormed) {id : NodeId} {removed : Document}
    (hok : doc.remove id = .ok removed) : removed.WellFormed := by
  obtain ⟨n, -, hok⟩ := exists_of_bind_eq_ok hok
  cases hok
  exact h.detach id

theorem setDocumentElement (h : doc.WellFormed) {id : NodeId} {changed : Document}
    (hok : doc.setDocumentElement id = .ok changed) : changed.WellFormed := by
  obtain ⟨n, hn, hok⟩ := exists_of_bind_eq_ok hok
  cases hok
  apply (h.detach id).withDocumentElement
  · rw [isElement_detach]
    exact isElement_of_needElement hn
  · rw [parent?_detach, if_pos rfl]

/-- A change of the attributes of a node that repeats no name keeps a document well formed. -/
theorem modifyAttributes (h : doc.WellFormed) (id : NodeId) {g : List Attribute → List Attribute}
    (hg : ∀ attributes : List Attribute, (attributes.map (·.name)).Nodup →
      ((g attributes).map (·.name)).Nodup) :
    (doc.modify id (Node.mapAttributes g)).WellFormed := by
  refine h.of_views ?_ ?_ ?_ rfl ?_
  · exact fun j => children_modify_of_eq doc id (Node.mapAttributes_children g) j
  · exact fun j => parent?_modify_of_eq doc id (Node.mapAttributes_parent g) j
  · exact fun j => isElement_modify doc id (Node.mapAttributes_kind g) j
  · intro j
    rw [attributes_modify_mapAttributes]
    split
    · exact hg _ (h.nodup_attributes j)
    · exact h.nodup_attributes j

/-- A change of the own text of a node keeps a document well formed. -/
theorem modifyText (h : doc.WellFormed) (id : NodeId) (g : Node → Option String) :
    (doc.modify id fun n => { n with text := g n }).WellFormed := by
  refine h.of_views ?_ ?_ ?_ rfl ?_
  · exact fun j => doc.children_modify_of_eq id (f := fun n => { n with text := g n })
      (fun _ => rfl) j
  · exact fun j => doc.parent?_modify_of_eq id (f := fun n => { n with text := g n })
      (fun _ => rfl) j
  · exact fun j => doc.isElement_modify id (f := fun n => { n with text := g n })
      (fun _ => rfl) j
  · intro j
    rw [doc.attributes_modify_of_eq id (f := fun n => { n with text := g n }) (fun _ => rfl) j]
    exact h.nodup_attributes j

theorem setAttribute (h : doc.WellFormed) {id : NodeId} {name value : String}
    {changed : Option String × Document} (hok : doc.setAttribute id name value = .ok changed) :
    changed.2.WellFormed := by
  obtain ⟨n, -, hok⟩ := exists_of_bind_eq_ok hok
  cases hok
  exact h.modifyAttributes id fun _ hnodup => nodup_setAttribute hnodup name value

theorem removeAttribute (h : doc.WellFormed) {id : NodeId} {name : String}
    {changed : Option String × Document} (hok : doc.removeAttribute id name = .ok changed) :
    changed.2.WellFormed := by
  obtain ⟨n, -, hok⟩ := exists_of_bind_eq_ok hok
  cases hok
  exact h.modifyAttributes id fun _ hnodup => nodup_removeAttribute hnodup name

theorem replaceText (h : doc.WellFormed) {id : NodeId} {text : Option String}
    {changed : Option String × Document} (hok : doc.replaceText id text = .ok changed) :
    changed.2.WellFormed := by
  obtain ⟨n, -, hok⟩ := exists_of_bind_eq_ok hok
  cases hok
  exact h.modifyText id fun _ => text

/-! ## Any edit -/

/-- One case for each edit; what a move needs is what its check has found. -/
theorem apply (h : doc.WellFormed) {edit : Edit} {edited : Document}
    (hok : edit.apply doc = .ok edited) : edited.WellFormed := by
  -- an edit that returns a value as well gives its document in a pair
  have hsecond : ∀ {α : Type} {result : Except TreeError (α × Document)},
      (∀ pair, result = .ok pair → pair.2.WellFormed) → result.map (·.2) = .ok edited →
      edited.WellFormed := by
    intro α result hall hmap
    cases result with
    | error e => cases hmap
    | ok pair =>
      cases hmap
      exact hall pair rfl
  cases edit with
  | createElement spec built =>
    cases hok
    exact h.push (ElementSpec.fresh_node built.nodup)
  | createChild parent spec built =>
    exact hsecond (fun _ => h.createUnder (ElementSpec.fresh_node built.nodup)) hok
  | createComment parent body =>
    exact hsecond (fun _ => h.createUnder (Node.fresh_ofComment body)) hok
  | createCData parent body => exact hsecond (fun _ => h.createUnder (Node.fresh_ofCData body)) hok
  | appendChild parent child => exact h.move (fun _ => List.perm_append_singleton _ _) hok
  | insertChild parent index child => exact h.move (perm_placeAt index child) hok
  | remove id => exact h.remove hok
  | setDocumentElement id => exact h.setDocumentElement hok
  | setAttribute id name value => exact hsecond (fun _ => h.setAttribute) hok
  | removeAttribute id name => exact hsecond (fun _ => h.removeAttribute) hok
  | setText id text => exact hsecond (fun _ => h.replaceText) hok
  | clearText id => exact hsecond (fun _ => h.replaceText) hok

theorem after (h : doc.WellFormed) (edit : Edit) : (doc.after edit).WellFormed := by
  rw [Document.after]
  split
  · next hok => exact h.apply hok
  · exact h

end WellFormed

end Document

end MarkupPath.Tree
