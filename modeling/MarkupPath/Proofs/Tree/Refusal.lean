import MarkupPath.Proofs.Tree.Reachable

/-!
# Refused edits

`Edit.Refused` lists the faults that an edit is refused with, by the nodes it names: told by what
the document knows of them and, for a move, by which node stands above which. In a reachable
document these are exactly the faults of `Edit.apply`, and no edit is refused for another reason.

`Edit.perform` does an edit in place, check by check and change by change, and keeps what it has
changed when a later part fails. `refused_edit_changes_nothing` says that it never comes to that:
performed in place, a refused edit leaves the document as it was, and any other one makes the
document that `Edit.apply` gives. An edit that needs an element is one of the refused ones at a
comment or a section of character data (`Reachable.outcome_of_isMarker`).
-/

set_option autoImplicit false

namespace MarkupPath.Tree

open MarkupPath.Markup (Attribute)

namespace Document

/-- The node is a comment or a section of character data. -/
def IsMarker (doc : Document) (id : NodeId) : Prop :=
  doc.kind? id = some .comment ∨ doc.kind? id = some .cdata

/-- Why an edit of a node of any kind is refused. -/
inductive NodeFault (doc : Document) (id : NodeId) : TreeError → Prop where
  | unknown : ¬ id < doc.size → NodeFault doc id (.unknownNode id)

/-- Why an edit of an element is refused. -/
inductive ElementFault (doc : Document) (id : NodeId) : TreeError → Prop where
  | unknown : ¬ id < doc.size → ElementFault doc id (.unknownNode id)
  | marker : doc.IsMarker id → ElementFault doc id (.notAnElement id)

/-- Why a move is refused: the parent is looked at first, then the child, and a cycle last. -/
inductive MoveFault (doc : Document) (parent child : NodeId) : TreeError → Prop where
  | parent {e : TreeError} : ElementFault doc parent e → MoveFault doc parent child e
  | child : doc.isElement parent = true → ¬ child < doc.size →
      MoveFault doc parent child (.unknownNode child)
  | cycle : doc.isElement parent = true → child < doc.size →
      parent = child ∨ doc.Ancestor child parent → MoveFault doc parent child (.cycle parent child)

end Document

/-- The edit of the document is refused with the fault. -/
def Edit.Refused (doc : Document) (e : TreeError) : Edit → Prop
  | .createElement _ _ => False
  | .createChild parent _ _ => doc.ElementFault parent e
  | .createComment parent _ => doc.ElementFault parent e
  | .createCData parent _ => doc.ElementFault parent e
  | .appendChild parent child => doc.MoveFault parent child e
  | .insertChild parent _ child => doc.MoveFault parent child e
  | .remove id => doc.NodeFault id e
  | .setDocumentElement id => doc.ElementFault id e
  | .setAttribute id _ _ => doc.ElementFault id e
  | .removeAttribute id _ => doc.ElementFault id e
  | .setText id _ => doc.NodeFault id e
  | .clearText id => doc.NodeFault id e

/-- The node that the edit needs to be an element: the parent that it gives a child, the node whose
attributes it changes, or the new document element. -/
def Edit.element? : Edit → Option NodeId
  | .createChild parent _ _ => some parent
  | .createComment parent _ => some parent
  | .createCData parent _ => some parent
  | .appendChild parent _ => some parent
  | .insertChild parent _ _ => some parent
  | .setDocumentElement id => some id
  | .setAttribute id _ _ => some id
  | .removeAttribute id _ => some id
  | .createElement _ _ => none
  | .remove _ => none
  | .setText _ _ => none
  | .clearText _ => none

/-! ## Faults of checks -/

/-- A computation in two parts fails if one of them does. -/
theorem bind_eq_error_iff {ε α β : Type} {m : Except ε α} {f : α → Except ε β} {e : ε} :
    (m >>= f) = .error e ↔ m = .error e ∨ ∃ a, m = .ok a ∧ f a = .error e := by
  cases m with
  | error e' =>
    constructor
    · intro h
      cases h
      exact .inl rfl
    · rintro (h | ⟨a, h, -⟩)
      · cases h
        rfl
      · cases h
  | ok a =>
    constructor
    · intro h
      exact .inr ⟨a, rfl, h⟩
    · rintro (h | ⟨b, h, hb⟩)
      · cases h
      · cases h
        exact hb

/-- What is done with the result of a computation adds no fault. -/
theorem map_eq_error_iff {ε α β : Type} {m : Except ε α} {f : α → β} {e : ε} :
    m.map f = .error e ↔ m = .error e := by
  cases m <;> simp [Except.map]

namespace Document

variable {doc : Document} {id parent child : NodeId} {e : TreeError}

/-- The markers are the known nodes that are no elements, as there is no fourth kind. -/
theorem isMarker_iff : doc.IsMarker id ↔ id < doc.size ∧ doc.isElement id = false := by
  rw [IsMarker, isElement, kind?]
  cases hn : doc.node? id with
  | none =>
    have hunknown := Nat.not_lt.2 (doc.node?_eq_none_iff.1 hn)
    simp [hunknown]
  | some n =>
    have hknown := lt_size_of_node? hn
    cases hk : n.kind <;> simp [hknown, hk]

/-- The check that a node is known fails only for an unknown one. -/
theorem need_eq_error_iff : doc.need id = .error e ↔ doc.NodeFault id e := by
  rw [need]
  cases hn : doc.node? id with
  | none =>
    constructor
    · intro h
      cases h
      exact .unknown (Nat.not_lt.2 (doc.node?_eq_none_iff.1 hn))
    · rintro ⟨-⟩
      rfl
  | some n =>
    constructor
    · intro h
      cases h
    · rintro ⟨hunknown⟩
      exact absurd (lt_size_of_node? hn) hunknown

/-- The check that a node is an element fails for an unknown node and for a marker, with a fault of
its own for each. -/
theorem needElement_eq_error_iff : doc.needElement id = .error e ↔ doc.ElementFault id e := by
  have hmarker : ∀ {n}, doc.node? id = some n → (doc.IsMarker id ↔ n.isElement = false) := by
    intro n hn
    have hkind : doc.isElement id = n.isElement := by
      rw [isElement, kind?, hn]
      rfl
    rw [isMarker_iff, hkind]
    exact and_iff_right (lt_size_of_node? hn)
  rw [needElement]
  cases hn : doc.node? id with
  | none =>
    constructor
    · intro h
      cases h
      exact .unknown (Nat.not_lt.2 (doc.node?_eq_none_iff.1 hn))
    · rintro (- | hm)
      · rfl
      · exact absurd (isMarker_iff.1 hm).1 (Nat.not_lt.2 (doc.node?_eq_none_iff.1 hn))
  | some n =>
    by_cases he : n.isElement = true
    · simp only [he, if_true]
      constructor
      · intro h
        cases h
      · rintro (hunknown | hm)
        · exact absurd (lt_size_of_node? hn) hunknown
        · rw [hmarker hn, he] at hm
          cases hm
    · simp only [he]
      constructor
      · intro h
        cases h
        exact .marker ((hmarker hn).2 (Bool.eq_false_iff.2 he))
      · rintro (hunknown | -)
        · exact absurd (lt_size_of_node? hn) hunknown
        · rfl

/-- The checks before a move fail with the faults of a move. The walk upward from the parent finds
the child exactly if the child stands above it. -/
theorem WellFormed.checkInsert_eq_error_iff (h : doc.WellFormed) :
    doc.checkInsert parent child = .error e ↔ doc.MoveFault parent child e := by
  have hcycle : (parent == child || doc.isAncestor child parent) = true ↔
      parent = child ∨ doc.Ancestor child parent := by
    rw [Bool.or_eq_true, beq_iff_eq, h.isAncestor_iff]
  rw [checkInsert, bind_eq_error_iff, needElement_eq_error_iff]
  constructor
  · rintro (hparent | ⟨n, hparent, hlater⟩)
    · exact .parent hparent
    · have helement := isElement_of_needElement hparent
      rcases bind_eq_error_iff.1 hlater with hchild | ⟨m, hchild, hlater⟩
      · obtain ⟨hunknown⟩ := need_eq_error_iff.1 hchild
        exact .child helement hunknown
      · have hknown := lt_size_of_node? (need_eq_ok_iff.1 hchild)
        split at hlater
        · next hfound =>
          cases hlater
          exact .cycle helement hknown (hcycle.1 hfound)
        · cases hlater
  · intro hfault
    cases hfault with
    | parent hparent => exact .inl hparent
    | child helement hunknown =>
      obtain ⟨n, hn⟩ := doc.isElement_iff.1 helement
      refine .inr ⟨n, needElement_eq_ok_iff.2 hn, bind_eq_error_iff.2 (.inl ?_)⟩
      exact need_eq_error_iff.2 (.unknown hunknown)
    | cycle helement hknown habove =>
      obtain ⟨n, hn⟩ := doc.isElement_iff.1 helement
      refine .inr ⟨n, needElement_eq_ok_iff.2 hn, bind_eq_error_iff.2 (.inr ?_)⟩
      obtain ⟨m, hm⟩ : ∃ m, doc.node? child = some m := by
        rw [← Option.ne_none_iff_exists', Ne, doc.node?_eq_none_iff]
        exact Nat.not_le.2 hknown
      refine ⟨m, need_eq_ok_iff.2 hm, ?_⟩
      rw [if_pos (hcycle.2 habove)]
      rfl

/-- A check with a change behind it that cannot fail is refused as the check is. -/
theorem bind_pure_eq_error_iff {α β : Type} {m : Except TreeError α} {f : α → β} :
    (m >>= fun a => pure (f a)) = .error e ↔ m = .error e := by
  rw [bind_eq_error_iff]
  refine or_iff_left ?_
  rintro ⟨a, -, ha⟩
  cases ha

/-- The faults of an edit are those of the check that it begins with: what an edit changes behind
its check cannot fail. Only moves need a well-formed document, for their walk to the root. -/
theorem WellFormed.apply_eq_error_iff (h : doc.WellFormed) (edit : Edit) :
    edit.apply doc = .error e ↔ edit.Refused doc e := by
  cases edit with
  | createElement spec built =>
    constructor
    · intro hok
      cases hok
    · exact False.elim
  | createChild parent spec built =>
    exact map_eq_error_iff.trans (bind_pure_eq_error_iff.trans needElement_eq_error_iff)
  | createComment parent body =>
    exact map_eq_error_iff.trans (bind_pure_eq_error_iff.trans needElement_eq_error_iff)
  | createCData parent body =>
    exact map_eq_error_iff.trans (bind_pure_eq_error_iff.trans needElement_eq_error_iff)
  | appendChild parent child =>
    exact bind_pure_eq_error_iff.trans h.checkInsert_eq_error_iff
  | insertChild parent index child =>
    exact bind_pure_eq_error_iff.trans h.checkInsert_eq_error_iff
  | remove id => exact bind_pure_eq_error_iff.trans need_eq_error_iff
  | setDocumentElement id => exact bind_pure_eq_error_iff.trans needElement_eq_error_iff
  | setAttribute id name value =>
    exact map_eq_error_iff.trans (bind_pure_eq_error_iff.trans needElement_eq_error_iff)
  | removeAttribute id name =>
    exact map_eq_error_iff.trans (bind_pure_eq_error_iff.trans needElement_eq_error_iff)
  | setText id text =>
    exact map_eq_error_iff.trans (bind_pure_eq_error_iff.trans need_eq_error_iff)
  | clearText id =>
    exact map_eq_error_iff.trans (bind_pure_eq_error_iff.trans need_eq_error_iff)

end Document

/-! ## Edits in place -/

/-- A program that changes a document as it goes. A fault ends it and takes no change back. -/
abbrev InPlace (α : Type) := ExceptT TreeError (StateM Document) α

namespace InPlace

/-- What a check finds in the document as it stands. -/
def check {α : Type} (test : Document → Except TreeError α) : InPlace α := do
  let doc ← get
  match test doc with
  | .ok a => return a
  | .error e => throw e

/-- A change that cannot fail. -/
def change (f : Document → Document) : InPlace Unit := modify f

/-- A new node, and its identity. -/
def create (n : Node) : InPlace NodeId := do
  let doc ← get
  change (·.push n)
  return doc.size

/-- A new node as the last child of an element: the parent is looked at, the node created and then
attached. -/
def createUnder (parent : NodeId) (n : Node) : InPlace Unit := do
  let _ ← check (·.needElement parent)
  let id ← create n
  change (·.attach parent id fun children => children ++ [id])

/-- A node moved: the checks, the node taken from its old parent and then attached. -/
def move (parent child : NodeId) (place : List NodeId → List NodeId) : InPlace Unit := do
  check (·.checkInsert parent child)
  change (·.detach child)
  change (·.attach parent child place)

/-- The attributes of an element changed. -/
def changeAttributes (id : NodeId) (f : List Attribute → List Attribute) : InPlace Unit := do
  let _ ← check (·.needElement id)
  change (·.modify id (Node.mapAttributes f))

/-- The own text of a node changed. -/
def changeText (id : NodeId) (text : Option String) : InPlace Unit := do
  let _ ← check (·.need id)
  change (·.modify id fun n => { n with text := text })

end InPlace

open InPlace in
/-- The edit done in place. -/
def Edit.perform : Edit → InPlace Unit
  | .createElement spec _ => do
      let _ ← create spec.node
  | .createChild parent spec _ => createUnder parent spec.node
  | .createComment parent body => createUnder parent (Node.ofComment body)
  | .createCData parent body => createUnder parent (Node.ofCData body)
  | .appendChild parent child => move parent child fun children => children ++ [child]
  | .insertChild parent index child => move parent child (Document.placeAt index child)
  | .remove id => do
      let _ ← check (·.need id)
      change (·.detach id)
  | .setDocumentElement id => do
      let _ ← check (·.needElement id)
      change (·.detach id)
      change fun doc => { doc with documentElement := some id }
  | .setAttribute id name value => changeAttributes id (Tree.setAttribute name value)
  | .removeAttribute id name => changeAttributes id (Tree.removeAttribute name)
  | .setText id text => changeText id (some text)
  | .clearText id => changeText id none

/-- The outcome of a program, and the document that it leaves. -/
def InPlace.outcome {α : Type} (program : InPlace α) (doc : Document) :
    Except TreeError α × Document :=
  program.run.run doc

/-- The outcome of an edit that gives a changed document or a fault, done in place: a fault leaves
the document as it was. -/
def Document.settle (doc : Document) : Except TreeError Document → Except TreeError Unit × Document
  | .ok edited => (.ok (), edited)
  | .error e => (.error e, doc)

namespace InPlace

variable {α : Type} {doc edited : Document}

/-- A check that fails ends the program before it has changed anything, and what comes behind the
check cannot fail. -/
theorem outcome_check_bind {test : Document → Except TreeError α} {later : α → InPlace Unit}
    {result : Except TreeError Document}
    (hlater : ∀ a, (later a).outcome doc = (.ok (), edited))
    (hresult : result = (test doc).map fun _ => edited) :
    (check test >>= later).outcome doc = doc.settle result := by
  have hcheck : (check test >>= later).outcome doc =
      ((match test doc with
        | .ok a => pure a
        | .error e => throw e : InPlace α) >>= later).outcome doc := rfl
  rw [hcheck, hresult]
  cases test doc with
  | ok a => exact hlater a
  | error e => rfl

/-- A node created under an element: no fault comes between the creation and the attachment, so no
node is left over. -/
theorem outcome_createUnder (parent : NodeId) (n : Node) :
    (createUnder parent n).outcome doc = doc.settle ((doc.createUnder parent n).map (·.2)) := by
  apply outcome_check_bind
  · exact fun _ => rfl
  · rw [Document.createUnder]
    cases doc.needElement parent <;> rfl

/-- A move: a child that is refused is still where it was. -/
theorem outcome_move (parent child : NodeId) (place : List NodeId → List NodeId) :
    (move parent child place).outcome doc = doc.settle (doc.move parent child place) := by
  apply outcome_check_bind
  · exact fun _ => rfl
  · rw [Document.move]
    cases doc.checkInsert parent child <;> rfl

theorem outcome_changeAttributes (id : NodeId) (f : List Attribute → List Attribute)
    (old : Node → Option String) :
    (changeAttributes id f).outcome doc =
      doc.settle ((doc.needElement id >>= fun n =>
        pure (old n, doc.modify id (Node.mapAttributes f))).map (·.2)) := by
  apply outcome_check_bind
  · exact fun _ => rfl
  · cases doc.needElement id <;> rfl

theorem outcome_changeText (id : NodeId) (text : Option String) :
    (changeText id text).outcome doc = doc.settle ((doc.replaceText id text).map (·.2)) := by
  apply outcome_check_bind
  · exact fun _ => rfl
  · rw [Document.replaceText]
    cases doc.need id <;> rfl

end InPlace

open InPlace in
/-- Done in place, an edit that is refused leaves the document as it was, and any other one leaves
the document that it makes. -/
theorem Edit.outcome_perform (edit : Edit) (doc : Document) :
    edit.perform.outcome doc = doc.settle (edit.apply doc) := by
  cases edit with
  | createElement spec built => rfl
  | createChild parent spec built => exact outcome_createUnder parent spec.node
  | createComment parent body => exact outcome_createUnder parent (Node.ofComment body)
  | createCData parent body => exact outcome_createUnder parent (Node.ofCData body)
  | appendChild parent child => exact outcome_move parent child _
  | insertChild parent index child => exact outcome_move parent child _
  | remove id =>
    apply outcome_check_bind
    · exact fun _ => rfl
    · rw [Edit.apply, Document.remove]
      cases doc.need id <;> rfl
  | setDocumentElement id =>
    apply outcome_check_bind
    · exact fun _ => rfl
    · rw [Edit.apply, Document.setDocumentElement]
      cases doc.needElement id <;> rfl
  | setAttribute id name value =>
    exact outcome_changeAttributes id _ fun n => Attribute.lookup n.attributes name
  | removeAttribute id name =>
    exact outcome_changeAttributes id _ fun n => Attribute.lookup n.attributes name
  | setText id text => exact outcome_changeText id _
  | clearText id => exact outcome_changeText id _

/-- An edit that needs an element is refused at a marker, by its own check. That a marker has no
children and attributes is thus no matter of how nodes are stored alone: nothing that would give it
some is carried out. -/
theorem Edit.refused_of_isMarker {doc : Document} {edit : Edit} {id : NodeId}
    (hid : edit.element? = some id) (hmarker : doc.IsMarker id) :
    edit.Refused doc (.notAnElement id) := by
  cases edit <;> cases hid
  case appendChild => exact .parent (.marker hmarker)
  case insertChild => exact .parent (.marker hmarker)
  all_goals exact .marker hmarker

/-- Whatever run of edits has led to the document: an edit that would give a marker a child or an
attribute, take an attribute from it or make it the document element fails, and performed in place
it leaves the document as it was. -/
theorem Reachable.outcome_of_isMarker {doc : Document} {edit : Edit} {id : NodeId}
    (h : Reachable doc) (hid : edit.element? = some id) (hmarker : doc.IsMarker id) :
    edit.apply doc = .error (.notAnElement id) ∧
      edit.perform.outcome doc = (.error (.notAnElement id), doc) ∧ doc.after edit = doc := by
  have hrefused : edit.apply doc = .error (.notAnElement id) :=
    (h.wellFormed.apply_eq_error_iff edit).2 (edit.refused_of_isMarker hid hmarker)
  refine ⟨hrefused, ?_, ?_⟩
  · rw [edit.outcome_perform, hrefused]
    rfl
  · rw [Document.after, hrefused]

/-- In a reachable document an edit is refused exactly with the faults that the nodes it names give.
Done in place it has the outcome of `Edit.apply`, and where it is refused it leaves the document as
it was. -/
theorem refused_edit_changes_nothing {doc : Document} (h : Reachable doc) (edit : Edit) :
    (∀ e, edit.apply doc = .error e ↔ edit.Refused doc e) ∧
      (∀ edited, edit.apply doc = .ok edited → edit.perform.outcome doc = (.ok (), edited)) ∧
      (∀ e, edit.Refused doc e → edit.perform.outcome doc = (.error e, doc)) ∧
      (∀ e, edit.Refused doc e → doc.after edit = doc) := by
  have hrefused : ∀ e, edit.apply doc = .error e ↔ edit.Refused doc e :=
    fun e => h.wellFormed.apply_eq_error_iff edit
  refine ⟨hrefused, ?_, ?_, ?_⟩
  · intro edited hok
    rw [edit.outcome_perform, hok]
    rfl
  · intro e he
    rw [edit.outcome_perform, (hrefused e).2 he]
    rfl
  · intro e he
    rw [Document.after, (hrefused e).2 he]

/-- An element with a comment and an element below it. -/
def nestedPair : Document :=
  [Edit.createComment 0 "c", .createChild 0 (.named "b") (.named "b")].foldl Document.after
    (Document.withRoot (.named "a"))

theorem cycle_refused_in_nestedPair :
    Reachable nestedPair ∧ (Edit.appendChild 2 0).Refused nestedPair (.cycle 2 0) ∧
      (Edit.appendChild 2 0).perform.outcome nestedPair = (.error (.cycle 2 0), nestedPair) ∧
      (Edit.createComment 1 "d").perform.outcome nestedPair =
        (.error (.notAnElement 1), nestedPair) ∧
      (Edit.insertChild 1 0 7).perform.outcome nestedPair =
        (.error (.notAnElement 1), nestedPair) := by
  have hreachable : Reachable nestedPair := (Reachable.withRoot (.named "a")).run _
  have hmarker : nestedPair.IsMarker 1 := .inl (by decide +kernel)
  have hcycle : (Edit.appendChild 2 0).Refused nestedPair (.cycle 2 0) :=
    .cycle (by decide +kernel) (by decide +kernel) (.inr (.parent (by decide +kernel)))
  obtain ⟨-, -, hfirst, -⟩ := refused_edit_changes_nothing hreachable (.appendChild 2 0)
  obtain ⟨-, -, hsecond, -⟩ := refused_edit_changes_nothing hreachable (.createComment 1 "d")
  obtain ⟨-, -, hthird, -⟩ := refused_edit_changes_nothing hreachable (.insertChild 1 0 7)
  exact ⟨hreachable, hcycle, hfirst _ hcycle, hsecond _ (.marker hmarker),
    hthird _ (.parent (.marker hmarker))⟩

end MarkupPath.Tree
