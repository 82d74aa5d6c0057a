import MarkupPath.Proofs.Tree.Reachable
import MarkupPath.Proofs.Tree.Renaming

/-!
# Edits outside some trees

An edit names the nodes it works on, its `Edit.targets`. If none of them belongs to the trees around
some roots, then these trees are the same behind the edit (`Unchanged.after`), and so they are
behind a whole run of such edits (`Unchanged.run`). Besides its targets an edit changes only the
parent that a moved node is taken from, which belongs to the same tree, and a new node belongs to no
tree that was there before.
-/

set_option autoImplicit false

namespace MarkupPath.Tree

/-- The nodes that an edit is given. -/
def Edit.targets : Edit → List NodeId
  | .createElement _ _ => []
  | .createChild parent _ _ | .createComment parent _ | .createCData parent _ => [parent]
  | .appendChild parent child | .insertChild parent _ child => [parent, child]
  | .remove id | .setDocumentElement id | .setAttribute id _ _ | .removeAttribute id _ |
    .setText id _ | .clearText id => [id]

namespace Document

variable {doc : Document} {roots : List NodeId} {id parent child n : NodeId}

/-! ## Nodes that parts of edits leave alone -/

theorem node?_modify_of_ne (f : Node → Node) (hn : n ≠ id) :
    (doc.modify id f).node? n = doc.node? n := by
  rw [node?_modify, if_neg hn]

theorem node?_detach_of_ne (hn : n ≠ id) (hparent : doc.parent? id ≠ some n) :
    (doc.detach id).node? n = doc.node? n := by
  rw [detach]
  split
  · rfl
  · next p hp =>
    have hne : n ≠ p := by
      rintro rfl
      exact hparent hp
    rw [node?_modify_of_ne _ hne, node?_modify_of_ne _ hn]

theorem node?_attach_of_ne (place : List NodeId → List NodeId) (hparent : n ≠ parent)
    (hchild : n ≠ child) : (doc.attach parent child place).node? n = doc.node? n := by
  rw [node?_attach, node?_modify_of_ne _ hchild, node?_modify_of_ne _ hparent]

/-! ## Each edit -/

theorem ne_of_around (hn : doc.Around roots n) (hid : ¬ doc.Around roots id) : n ≠ id := by
  rintro rfl
  exact hid hn

section

variable (h : doc.WellFormed) (hn : doc.Around roots n)

include h hn

/-- A node taken from a tree elsewhere takes nothing from the trees around the roots. -/
theorem node?_detach_of_outside (hid : ¬ doc.Around roots id) :
    (doc.detach id).node? n = doc.node? n := by
  refine node?_detach_of_ne (ne_of_around hn hid) fun hp => hid ?_
  exact (h.around_parent_iff hp).1 hn

theorem node?_createUnder_of_outside (hknown : ∀ r ∈ roots, r < doc.size)
    (hparent : ¬ doc.Around roots parent) {new : Node} {created : NodeId × Document}
    (hok : doc.createUnder parent new = .ok created) : created.2.node? n = doc.node? n := by
  obtain ⟨_, -, hok⟩ := exists_of_bind_eq_ok hok
  cases hok
  -- the new node gets an identity that no node around the roots has
  have hfresh : n ≠ doc.size := Nat.ne_of_lt (h.lt_size_of_around hknown hn)
  rw [pushChild, node?_attach_of_ne _ (ne_of_around hn hparent) hfresh, node?_push, if_neg hfresh]

theorem node?_move_of_outside (hparent : ¬ doc.Around roots parent)
    (hchild : ¬ doc.Around roots child) {place : List NodeId → List NodeId} {moved : Document}
    (hok : doc.move parent child place = .ok moved) : moved.node? n = doc.node? n := by
  obtain ⟨_, -, hok⟩ := exists_of_bind_eq_ok hok
  cases hok
  rw [node?_attach_of_ne _ (ne_of_around hn hparent) (ne_of_around hn hchild),
    node?_detach_of_outside h hn hchild]

end

/-- An edit with targets outside the trees around the roots changes no node of them. -/
theorem node?_apply_of_outside (h : doc.WellFormed) (hn : doc.Around roots n)
    (hknown : ∀ r ∈ roots, r < doc.size) {edit : Edit}
    (houtside : ∀ id ∈ edit.targets, ¬ doc.Around roots id) {edited : Document}
    (hok : edit.apply doc = .ok edited) : edited.node? n = doc.node? n := by
  -- an edit that returns a value as well gives its document in a pair
  have hsecond : ∀ {α : Type} {result : Except TreeError (α × Document)},
      (∀ pair, result = .ok pair → pair.2.node? n = doc.node? n) →
      result.map (·.2) = .ok edited → edited.node? n = doc.node? n := by
    intro α result hall hmap
    cases result with
    | error e => cases hmap
    | ok pair =>
      cases hmap
      exact hall pair rfl
  -- a change of the contents of one node
  have hmodify : ∀ {α : Type} {id : NodeId} {g : Node → α} {f : Node → Node}
      {check : Except TreeError Node}, ¬ doc.Around roots id →
      ∀ pair, (do let m ← check; return (g m, doc.modify id f)) = Except.ok pair →
        pair.2.node? n = doc.node? n := by
    intro α id g f check hid pair hpair
    obtain ⟨m, -, hpair⟩ := exists_of_bind_eq_ok hpair
    cases hpair
    exact node?_modify_of_ne _ (ne_of_around hn hid)
  cases edit with
  | createElement spec built =>
    cases hok
    exact (node?_push ..).trans (if_neg (Nat.ne_of_lt (h.lt_size_of_around hknown hn)))
  | createChild parent spec built =>
    have hparent := houtside parent List.mem_cons_self
    exact hsecond (fun _ => node?_createUnder_of_outside h hn hknown hparent) hok
  | createComment parent body =>
    have hparent := houtside parent List.mem_cons_self
    exact hsecond (fun _ => node?_createUnder_of_outside h hn hknown hparent) hok
  | createCData parent body =>
    have hparent := houtside parent List.mem_cons_self
    exact hsecond (fun _ => node?_createUnder_of_outside h hn hknown hparent) hok
  | appendChild parent child =>
    have hchild := houtside child (List.mem_cons_of_mem _ List.mem_cons_self)
    exact node?_move_of_outside h hn (houtside parent List.mem_cons_self) hchild hok
  | insertChild parent index child =>
    have hchild := houtside child (List.mem_cons_of_mem _ List.mem_cons_self)
    exact node?_move_of_outside h hn (houtside parent List.mem_cons_self) hchild hok
  | remove id =>
    obtain ⟨_, -, hok⟩ := exists_of_bind_eq_ok hok
    cases hok
    exact node?_detach_of_outside h hn (houtside id List.mem_cons_self)
  | setDocumentElement id =>
    obtain ⟨_, -, hok⟩ := exists_of_bind_eq_ok hok
    cases hok
    exact node?_detach_of_outside h hn (houtside id List.mem_cons_self)
  | setAttribute id name value => exact hsecond (hmodify (houtside id List.mem_cons_self)) hok
  | removeAttribute id name => exact hsecond (hmodify (houtside id List.mem_cons_self)) hok
  | setText id text => exact hsecond (hmodify (houtside id List.mem_cons_self)) hok
  | clearText id => exact hsecond (hmodify (houtside id List.mem_cons_self)) hok

end Document

/-! ## Runs of edits -/

open Document

namespace Unchanged

variable {doc : Document} {roots : List NodeId}

theorem after (h : doc.WellFormed) (hknown : ∀ r ∈ roots, r < doc.size) {edit : Edit}
    (houtside : ∀ id ∈ edit.targets, ¬ doc.Around roots id) :
    Unchanged doc (doc.after edit) roots := by
  intro n hn
  rw [Document.after]
  split
  · next hok => exact node?_apply_of_outside h hn hknown houtside hok
  · rfl

/-- The trees around the roots are the same behind a run of edits with targets outside them. -/
theorem run (h : doc.WellFormed) (hknown : ∀ r ∈ roots, r < doc.size) {edits : List Edit}
    (houtside : ∀ edit ∈ edits, ∀ id ∈ edit.targets, ¬ doc.Around roots id) :
    Unchanged doc (edits.foldl Document.after doc) roots := by
  induction edits generalizing doc with
  | nil => exact fun _ _ => rfl
  | cons edit edits ih =>
    obtain ⟨hedit, hedits⟩ := List.forall_mem_cons.1 houtside
    have hfirst := Unchanged.after h hknown hedit
    have hafter := h.after edit
    have hiff : ∀ {n}, (doc.after edit).Around roots n ↔ doc.Around roots n :=
      hfirst.around_iff h hafter
    -- the roots are still known, and what was outside is outside
    have hroots : ∀ r ∈ roots, r < (doc.after edit).size := fun r hr =>
      (Renaming.of_unchanged hfirst h hafter).lt_size h hknown (h.around_of_mem hr)
    have hlater := ih hafter hroots fun edit hedit id hid hround =>
      hedits edit hedit id hid (hiff.1 hround)
    intro n hn
    exact (hlater n (hiff.2 hn)).trans (hfirst n hn)

end Unchanged

end MarkupPath.Tree
