import MarkupPath.Proofs.Tree.Reachable
import MarkupPath.Selection.BulkEdit

/-!
# Bulk edits change the members alone

An edit of each member of a result set goes member by member, and each edit works on the document
that the one before it has left. Whether a member can be edited depends on its kind alone, which no
edit changes, so the members that are refused are known beforehand (`editEach_eq`): `refusal?` tells
them and their faults. What the edits of the other members come to is told node by node: a change
of contents shows at the members and nowhere else (`node?_foldl_modify`), and removing takes the
members out of all lists of children in place (`node?_foldl_detach`), in whatever order they come
and however they are nested. `bulk_edits_of_members` puts this together for the four bulk edits.
-/

set_option autoImplicit false

namespace MarkupPath.Selection

open MarkupPath.Markup (Attribute)
open MarkupPath.Tree

/-! ## Members that are refused -/

/-- Why an edit of a node is refused: it is unknown, or it is a marker where an element is
needed. -/
def refusal? (needsElement : Bool) (doc : Document) (id : NodeId) : Option TreeError :=
  match doc.kind? id with
  | none => some (.unknownNode id)
  | some kind => if needsElement && kind != .element then some (.notAnElement id) else none

/-- The members that are refused, in order and with their faults. -/
def refusals (needsElement : Bool) (doc : Document) (ids : List NodeId) :
    List (NodeId × TreeError) :=
  ids.filterMap fun id => (refusal? needsElement doc id).map (id, ·)

/-- A refused member leaves the document as it is, the others have an effect on it. -/
def attempt (needsElement : Bool) (effect : Document → NodeId → Document) (doc : Document)
    (id : NodeId) : Except TreeError Document :=
  match refusal? needsElement doc id with
  | some e => .error e
  | none => .ok (effect doc id)

section Refusals

variable {needsElement : Bool} {effect : Document → NodeId → Document} {doc : Document}

theorem refusal?_congr {doc' : Document} {id : NodeId} (h : doc'.kind? id = doc.kind? id) :
    refusal? needsElement doc' id = refusal? needsElement doc id := by
  rw [refusal?, refusal?, h]

/-- Where no effect changes the kind of a node, the refused members are those that are refused at
the start, and the others have their effects one after the other. -/
theorem editEach_eq (hkind : ∀ doc id j, (effect doc id).kind? j = doc.kind? j)
    (doc : Document) (ids : List NodeId) :
    editEach (attempt needsElement effect) doc ids =
      (refusals needsElement doc ids,
        (ids.filter fun id => (refusal? needsElement doc id).isNone).foldl effect doc) := by
  induction ids generalizing doc with
  | nil => rfl
  | cons id rest ih =>
    rw [editEach, attempt, refusals, List.filterMap_cons, List.filter_cons]
    cases hrefused : refusal? needsElement doc id with
    | some e => simp [ih, refusals]
    | none =>
      have hsame : refusal? needsElement (effect doc id) = refusal? needsElement doc :=
        funext fun j => refusal?_congr (hkind doc id j)
      simp [ih, refusals, hsame]

end Refusals

/-! ## Single edits -/

section Single

variable {α : Type} (view : Node → α) (effect : Document → NodeId → Document) (doc : Document)
  (id : NodeId)

/-- An edit that looks for an element is refused at unknown nodes and at markers. -/
theorem bind_needElement_eq_attempt :
    (do let n ← doc.needElement id; return (view n, effect doc id) :
      Except TreeError (α × Document)).map (·.2) = attempt true effect doc id := by
  rw [Document.needElement, attempt, refusal?, Document.kind?]
  cases doc.node? id with
  | none => rfl
  | some n =>
    cases hn : n.isElement with
    | true => simp_all [Node.isElement, Except.map, bind, Except.bind, pure, Except.pure]
    | false => simp_all [Node.isElement, Except.map, bind, Except.bind]

/-- An edit that looks for any node is refused at unknown ones alone. -/
theorem bind_need_eq_attempt :
    (do let n ← doc.need id; return (view n, effect doc id) :
      Except TreeError (α × Document)).map (·.2) = attempt false effect doc id := by
  rw [Document.need, attempt, refusal?, Document.kind?]
  cases doc.node? id <;> rfl

theorem remove_eq_attempt : doc.remove id = attempt false Document.detach doc id := by
  rw [Document.remove, Document.need, attempt, refusal?, Document.kind?]
  cases doc.node? id <;> rfl

end Single

/-! ## Changes of contents -/

/-- Changing some nodes one after the other, possibly more than once, changes each of them as
changing it once does. -/
theorem node?_foldl_modify {change : Node → Node} (ids : List NodeId) {doc : Document}
    (hagain : ∀ (id : NodeId) n, doc.node? id = some n → change (change n) = change n)
    (j : NodeId) :
    (ids.foldl (fun doc id => doc.modify id change) doc).node? j =
      if j ∈ ids then (doc.node? j).map change else doc.node? j := by
  induction ids generalizing doc with
  | nil => simp
  | cons id rest ih =>
    have hafter : ∀ (k : NodeId) n, (doc.modify id change).node? k = some n →
        change (change n) = change n := by
      intro k n hn
      rw [Document.node?_modify] at hn
      split at hn
      · obtain ⟨m, hm, rfl⟩ := Option.map_eq_some_iff.1 hn
        rw [hagain k m hm, hagain k m hm]
      · exact hagain k n hn
    have htwice : ((doc.node? j).map change).map change = (doc.node? j).map change := by
      cases hn : doc.node? j with
      | none => rfl
      | some n => exact congrArg some (hagain j n hn)
    rw [List.foldl_cons, ih hafter, Document.node?_modify]
    by_cases hj : j = id
    · by_cases hrest : j ∈ rest <;> simp [hj, hj ▸ hrest, hj ▸ htwice]
    · simp [hj]

theorem size_foldl {effect : Document → NodeId → Document}
    (hsize : ∀ doc id, (effect doc id).size = doc.size) (ids : List NodeId) (doc : Document) :
    (ids.foldl effect doc).size = doc.size := by
  induction ids generalizing doc with
  | nil => rfl
  | cons id rest ih => rw [List.foldl_cons, ih, hsize]

theorem documentElement_foldl {effect : Document → NodeId → Document}
    (hroot : ∀ doc id, (effect doc id).documentElement = doc.documentElement)
    (ids : List NodeId) (doc : Document) :
    (ids.foldl effect doc).documentElement = doc.documentElement := by
  induction ids generalizing doc with
  | nil => rfl
  | cons id rest ih => rw [List.foldl_cons, ih, hroot]

/-! ## Edits made twice -/

theorem setAttribute_setAttribute (name value : String) (attributes : List Attribute) :
    setAttribute name value (setAttribute name value attributes) =
      setAttribute name value attributes := by
  induction attributes with
  | nil => simp [setAttribute]
  | cons a rest ih =>
    by_cases ha : (a.name == name) = true
    · simp [setAttribute, ha]
    · simp [setAttribute, ha, ih]

/-- With names that are not repeated, removing the first attribute of a name removes the name. -/
theorem not_mem_map_name_removeAttribute (name : String) {attributes : List Attribute}
    (h : (attributes.map (·.name)).Nodup) :
    name ∉ (removeAttribute name attributes).map (·.name) := by
  induction attributes with
  | nil => exact List.not_mem_nil
  | cons a rest ih =>
    rw [List.map_cons, List.nodup_cons] at h
    rw [removeAttribute, List.eraseP_cons]
    by_cases ha : a.name = name
    · simpa [ha] using h.1
    · rw [beq_eq_false_iff_ne.2 ha, cond_false, List.map_cons, List.mem_cons, not_or]
      exact ⟨Ne.symm ha, ih h.2⟩

/-- Only the first attribute of a name is removed, so a second removal finds nothing only because no
name is repeated. -/
theorem removeAttribute_removeAttribute (name : String) {attributes : List Attribute}
    (h : (attributes.map (·.name)).Nodup) :
    removeAttribute name (removeAttribute name attributes) = removeAttribute name attributes := by
  apply List.eraseP_of_forall_not
  intro a ha heq
  exact not_mem_map_name_removeAttribute name h (List.mem_map.2 ⟨a, ha, eq_of_beq heq⟩)

theorem mapAttributes_mapAttributes {n : Node} {g : List Attribute → List Attribute}
    (h : g (g n.attributes) = g n.attributes) :
    (n.mapAttributes g).mapAttributes g = n.mapAttributes g := by
  rcases n with ⟨_ | _ | _, _, _⟩
  · simp_all [Node.mapAttributes, Node.attributes]
  · rfl
  · rfl

/-! ## Removals -/

/-- A node without some nodes among its children, and without its parent if it is one of them. -/
def takenOut (ids : List NodeId) (j : NodeId) (n : Node) : Node :=
  { n.mapChildren (·.filter (· ∉ ids)) with parent := if j ∈ ids then none else n.parent }

theorem takenOut_nil (j : NodeId) (n : Node) : takenOut [] j n = n := by
  rcases n with ⟨_ | _ | _, _, _⟩ <;> simp [takenOut, Node.mapChildren]

/-- Nodes taken out one behind the other are taken out together. -/
theorem takenOut_takenOut (id : NodeId) (rest : List NodeId) (j : NodeId) (n : Node) :
    takenOut rest j (takenOut [id] j n) = takenOut (id :: rest) j n := by
  have hparent : (if j ∈ rest then none else if j = id then none else n.parent) =
      if j = id ∨ j ∈ rest then none else n.parent := by
    by_cases hj : j = id <;> simp [hj]
  have hchildren : ∀ l : List NodeId,
      (l.filter (· ∉ [id])).filter (· ∉ rest) = l.filter (· ∉ id :: rest) := by
    intro l
    rw [List.filter_filter]
    apply List.filter_congr
    intro c _
    simp [Bool.and_comm]
  rcases n with ⟨_ | _ | _, _, _⟩ <;> simp_all [takenOut, Node.mapChildren]

/-- From children that do not repeat a single node is taken by erasing it. -/
theorem takenOut_singleton {id j : NodeId} {n : Node} (hnodup : n.children.Nodup) :
    takenOut [id] j n =
      { n.mapChildren (·.erase id) with parent := if j = id then none else n.parent } := by
  have herase : n.children.filter (· ∉ [id]) = n.children.erase id := by
    rw [hnodup.erase_eq_filter]
    apply List.filter_congr
    intro c _
    by_cases hc : c = id <;> simp [hc]
  rcases n with ⟨_ | _ | _, _, _⟩ <;> simp_all [takenOut, Node.mapChildren, Node.children]

theorem mapChildren_eq_self {f : List NodeId → List NodeId} {n : Node}
    (h : f n.children = n.children) : n.mapChildren f = n := by
  rcases n with ⟨_ | _ | _, _, _⟩ <;> simp_all [Node.mapChildren, Node.children]

/-- Taking one node from its parent shows at the node and at its parent. -/
theorem node?_detach {doc : Document} (hdoc : doc.WellFormed) (id j : NodeId) :
    (doc.detach id).node? j = (doc.node? j).map (takenOut [id] j) := by
  cases hn : doc.node? j with
  | none =>
    rw [Option.map_none, Document.node?_eq_none_iff, Document.size_detach]
    exact doc.node?_eq_none_iff.1 hn
  | some n =>
    have hchildren : doc.children j = n.children := by rw [Document.children, hn]
    have hparent : doc.parent? j = n.parent := by
      rw [Document.parent?, hn]
      rfl
    have hother : doc.parent? id ≠ some j → n.mapChildren (·.erase id) = n := by
      intro hp
      apply mapChildren_eq_self
      apply List.erase_of_not_mem
      rwa [← hchildren, hdoc.mem_children_iff]
    rw [Option.map_some, takenOut_singleton (hchildren ▸ hdoc.nodup_children j), Document.detach]
    split
    · next hp =>
      rw [hn, hother (by simp [hp])]
      by_cases hj : j = id
      · rw [if_pos hj, ← hp, ← hj, hparent]
      · rw [if_neg hj]
    · next p hp =>
      have hpid : p ≠ id := fun heq => hdoc.acyclic id (.parent (heq ▸ hp))
      rw [Document.node?_modify, Document.node?_modify, hn]
      by_cases hj : j = p
      · rw [if_pos hj, if_neg (hj ▸ hpid), if_neg (hj ▸ hpid), Option.map_some,
          ← n.mapChildren_parent (·.erase id)]
      · rw [if_neg hj, hother (by simp [hp, Ne.symm hj])]
        by_cases hid : j = id <;> simp [hid]

/-- Taking nodes from their parents one after the other empties all lists of children of them, in
whatever order they come and however they are nested. -/
theorem node?_foldl_detach {doc : Document} (hdoc : doc.WellFormed) (ids : List NodeId)
    (j : NodeId) :
    (ids.foldl Document.detach doc).node? j = (doc.node? j).map (takenOut ids j) := by
  induction ids generalizing doc with
  | nil =>
    rw [List.foldl_nil, funext (takenOut_nil j)]
    exact Option.map_id'.symm
  | cons id rest ih =>
    rw [List.foldl_cons, ih (hdoc.detach id), node?_detach hdoc, Option.map_map]
    exact congrArg (Option.map · _) (funext (takenOut_takenOut id rest j))

/-- An unknown node has no parent to be taken from. -/
theorem foldl_detach_filter (doc : Document) (ids : List NodeId) :
    (ids.filter fun id => (refusal? false doc id).isNone).foldl Document.detach doc =
      ids.foldl Document.detach doc := by
  induction ids generalizing doc with
  | nil => rfl
  | cons id rest ih =>
    have hsame : refusal? false (doc.detach id) = refusal? false doc :=
      funext fun j => refusal?_congr (doc.kind?_detach id j)
    rw [List.filter_cons, List.foldl_cons, ← ih, hsame]
    cases hrefused : refusal? false doc id with
    | none => rfl
    | some e =>
      have hroot : doc.parent? id = none := by
        cases hn : doc.node? id <;> simp_all [refusal?, Document.kind?, Document.parent?]
      have hdetach : doc.detach id = doc := by rw [Document.detach, hroot]
      rw [hdetach]
      rfl

/-! ## Bulk edits -/

/-- An edit of contents reaches each of some nodes: the refused ones are reported in order, the
others are changed as a single edit changes them, and all else stays. -/
structure EditsEach (doc : Document) (ids : List NodeId) (needsElement : Bool)
    (change : Node → Node) (edit : Document → NodeId → Except TreeError Document)
    (outcome : List (NodeId × TreeError) × Document) : Prop where
  single : ∀ id, edit doc id = attempt needsElement (fun doc id => doc.modify id change) doc id
  failures : outcome.1 = refusals needsElement doc ids
  size : outcome.2.size = doc.size
  documentElement : outcome.2.documentElement = doc.documentElement
  changed : ∀ id ∈ ids, refusal? needsElement doc id = none →
    outcome.2.node? id = (doc.node? id).map change
  other : ∀ id, id ∉ ids ∨ refusal? needsElement doc id ≠ none →
    outcome.2.node? id = doc.node? id

/-- An edit that changes one node by itself: members are changed each once, as a second change of
one does nothing more. -/
theorem editsEach_of_change {doc : Document} {needsElement : Bool} {change : Node → Node}
    {edit : Document → NodeId → Except TreeError Document}
    (hedit : edit = attempt needsElement fun doc id => doc.modify id change)
    (hkind : ∀ n, (change n).kind = n.kind)
    (hagain : ∀ (id : NodeId) n, doc.node? id = some n → change (change n) = change n)
    (ids : List NodeId) :
    EditsEach doc ids needsElement change edit (editEach edit doc ids) := by
  subst hedit
  rw [editEach_eq fun doc id j => doc.kind?_modify id hkind j]
  refine ⟨fun _ => rfl, rfl, size_foldl (fun doc id => doc.size_modify id change) _ _,
    documentElement_foldl (fun doc id => doc.documentElement_modify id change) _ _, ?_, ?_⟩
  · intro id hid hnone
    rw [node?_foldl_modify _ hagain, if_pos]
    exact List.mem_filter.2 ⟨hid, by simp [hnone]⟩
  · intro id hid
    rw [node?_foldl_modify _ hagain, if_neg]
    intro hmem
    obtain ⟨hids, hnone⟩ := List.mem_filter.1 hmem
    exact hid.elim (· hids) (· (Option.isNone_iff_eq_none.1 hnone))

theorem editsEach_setAttribute (doc : Document) (s : ResultSet) (name value : String) :
    EditsEach doc s.ids true (Node.mapAttributes (setAttribute name value))
      (fun doc id => (doc.setAttribute id name value).map (·.2))
      (s.setAttribute doc name value) := by
  apply editsEach_of_change
  · exact funext fun doc => funext fun id => bind_needElement_eq_attempt _
      (fun doc id => doc.modify id (Node.mapAttributes (setAttribute name value))) doc id
  · exact Node.mapAttributes_kind _
  · exact fun _ n _ => mapAttributes_mapAttributes (setAttribute_setAttribute name value _)

/-- A bulk edit acts on the members alone and on each of them once, whatever their order and
nesting. Attributes are set or removed, and texts replaced, as single edits do it; removal takes the
members out of all lists of children in place and leaves them without a parent. Reported are, in
order, the unknown members, and the markers where attributes are edited. -/
theorem bulk_edits_of_members {doc : Document} (hdoc : Reachable doc) (s : ResultSet) :
    (∀ name value, EditsEach doc s.ids true (Node.mapAttributes (setAttribute name value))
        (fun doc id => (doc.setAttribute id name value).map (·.2))
        (s.setAttribute doc name value)) ∧
      (∀ name, EditsEach doc s.ids true (Node.mapAttributes (removeAttribute name))
        (fun doc id => (doc.removeAttribute id name).map (·.2)) (s.removeAttribute doc name)) ∧
      (∀ text, EditsEach doc s.ids false (fun n => { n with text := some text })
        (fun doc id => (doc.setText id text).map (·.2)) (s.setText doc text)) ∧
      ((s.removeElements doc).1 = refusals false doc s.ids ∧
        (s.removeElements doc).2.size = doc.size ∧
        (s.removeElements doc).2.documentElement = doc.documentElement ∧
        ∀ id, (s.removeElements doc).2.node? id = (doc.node? id).map fun n =>
          { n.mapChildren (·.filter (· ∉ s.ids)) with
            parent := if id ∈ s.ids then none else n.parent }) := by
  have hwf := hdoc.wellFormed
  refine ⟨editsEach_setAttribute doc s, ?_, ?_, ?_⟩
  · intro name
    apply editsEach_of_change
    · exact funext fun doc => funext fun id => bind_needElement_eq_attempt _
        (fun doc id => doc.modify id (Node.mapAttributes (removeAttribute name))) doc id
    · exact Node.mapAttributes_kind _
    · intro id n hn
      have hnodup := hwf.nodup_attributes id
      rw [Document.attributes, hn] at hnodup
      exact mapAttributes_mapAttributes (removeAttribute_removeAttribute name hnodup)
  · intro text
    apply editsEach_of_change
    · exact funext fun doc => funext fun id => bind_need_eq_attempt _
        (fun doc id => doc.modify id fun n => { n with text := some text }) doc id
    · exact fun _ => rfl
    · exact fun _ _ _ => rfl
  · have houtcome : s.removeElements doc =
        (refusals false doc s.ids, s.ids.foldl Document.detach doc) := by
      rw [ResultSet.removeElements, ResultSet.apply, funext fun doc => funext fun id =>
        remove_eq_attempt doc id, editEach_eq fun doc id j => doc.kind?_detach id j,
        foldl_detach_filter]
    rw [houtcome]
    exact ⟨rfl, size_foldl Document.size_detach _ _,
      documentElement_foldl Document.documentElement_detach _ _, node?_foldl_detach hwf s.ids⟩

/-- A comment beside an element that has a child. -/
def besideComment : List Edit :=
  [.createComment 0 "c", .createChild 0 (.named "b") (.named "b"),
    .createChild 2 (.named "d") (.named "d")]

/-- Of the nested members `b` and `d`, the comment and an unknown node, in that order and with `b`
twice, the last two are refused an attribute, and only the unknown one a removal. -/
theorem bulk_edits_beside_comment :
    let doc := besideComment.foldl Document.after (Document.withRoot (.named "a"))
    let s : ResultSet := ⟨[2, 3, 1, 9, 2], [0], ⟨".", .path ⟨false, []⟩⟩⟩
    (s.setAttribute doc "k" "v").1 = [(1, .notAnElement 1), (9, .unknownNode 9)] ∧
      (s.setAttribute doc "k" "v").2.node? 3 =
        some ⟨.element "d" [⟨"k", "v"⟩] [], none, some 2⟩ ∧
      (s.setAttribute doc "k" "v").2.node? 0 = doc.node? 0 ∧
      (s.removeElements doc).1 = [(9, .unknownNode 9)] ∧
      (s.removeElements doc).2.node? 0 = some ⟨.element "a" [] [], none, none⟩ ∧
      (s.removeElements doc).2.node? 2 = some ⟨.element "b" [] [], none, none⟩ := by
  intro doc s
  have hdoc : Reachable doc := (Reachable.withRoot (.named "a")).run besideComment
  obtain ⟨hset, -, -, hfailures, -, -, hnode⟩ := bulk_edits_of_members hdoc s
  have hk := hset "k" "v"
  refine ⟨?_, ?_, hk.other 0 (.inl (by decide)), ?_, ?_, ?_⟩
  · rw [hk.failures]
    decide +kernel
  · rw [hk.changed 3 (by decide) (by decide +kernel)]
    decide +kernel
  · rw [hfailures]
    decide +kernel
  · rw [hnode]
    decide +kernel
  · rw [hnode]
    decide +kernel

end MarkupPath.Selection
