import MarkupPath.Proofs.Evaluation.DocumentOrder

/-!
# Tests that are decided

`Visiting.Yields m a` says that a computation returns one value and never fails, whatever number of
visits it starts with. The candidates of a step are tested at their places among all candidates,
which `places` lists; where every test is decided by a verdict on its place, keeping is filtering
the places (`yields_keep`), and so is the filter of a list of nodes (`filterNodes_eq`).
-/

set_option autoImplicit false

namespace MarkupPath.Evaluation

open MarkupPath.Query MarkupPath.Tree

namespace Visiting

variable {α β : Type}

/-- The computation never fails and returns this value. -/
abbrev Yields (m : Visiting α) (a : α) : Prop := Gives (fun _ => False) m (· = a)

theorem Yields.pure (a : α) : Yields (pure a) a := Gives.pure rfl

theorem Yields.bind {m : Visiting α} {f : α → Visiting β} {a : α} {b : β} (hm : Yields m a)
    (hf : Yields (f a) b) : Yields (m >>= f) b :=
  Gives.bind hm fun _ ha => ha ▸ hf

theorem Yields.run'_eq {m : Visiting α} {a : α} (h : Yields m a) (k : Nat) :
    m.run' k = .ok a := by
  have hk := h k
  cases hrun : m.run' k with
  | error e =>
    rw [hrun] at hk
    exact hk.elim
  | ok b =>
    rw [hrun] at hk
    exact congrArg Except.ok hk

end Visiting

open Visiting

/-! ## Places -/

/-- Nodes with their places, counted on from a position, among `size` candidates. -/
def places (size : Nat) : Nat → List NodeId → List Context
  | _, [] => []
  | position, id :: rest => ⟨id, position, size⟩ :: places size (position + 1) rest

theorem map_node_places (size position : Nat) (ids : List NodeId) :
    (places size position ids).map Context.node = ids := by
  induction ids generalizing position with
  | nil => rfl
  | cons id rest ih => rw [places, List.map_cons, ih]

theorem length_places (size position : Nat) (ids : List NodeId) :
    (places size position ids).length = ids.length := by
  rw [← List.length_map (f := Context.node), map_node_places]

/-- A verdict that looks at the node alone filters the nodes. -/
theorem map_node_filter_places (verdict : NodeId → Bool) (size position : Nat)
    (ids : List NodeId) :
    ((places size position ids).filter fun ctx => verdict ctx.node).map Context.node =
      ids.filter verdict := by
  have hmap := List.filter_map (p := verdict) (f := Context.node) (l := places size position ids)
  rw [map_node_places] at hmap
  exact hmap.symm

/-- Of tests that are decided, those places are kept that the verdict holds of. -/
theorem yields_keep {test : Context → Visiting Bool} {verdict : Context → Bool} {size : Nat}
    {ids : List NodeId} (htest : ∀ ctx : Context, ctx.node ∈ ids →
      Yields (test ctx) (verdict ctx)) (position : Nat) :
    Yields (keep test size position ids)
      (((places size position ids).filter verdict).map Context.node) := by
  induction ids generalizing position with
  | nil => exact .pure []
  | cons id rest ih =>
    rw [keep]
    refine (htest _ List.mem_cons_self).bind ?_
    refine (ih (fun ctx hctx => htest ctx (List.mem_cons_of_mem _ hctx)) (position + 1)).bind ?_
    rw [places, List.filter_cons]
    split
    · exact .pure _
    · exact .pure _

/-! ## Predicates -/

section Predicates

variable {env : Setting} {ctx : Context}

theorem yields_holdAll_nil : Yields (holdAll env [] ctx) true := by
  rw [holdAll]
  exact .pure true

/-- Predicates are decided one after the other, at the same place. -/
theorem yields_holdAll_cons {predicate : Expr} {rest : List Expr} {value : Value} {kept : Bool}
    (hvalue : Yields (eval env predicate ctx) value) (hrest : Yields (holdAll env rest ctx) kept) :
    Yields (holdAll env (predicate :: rest) ctx) (holdsAt ctx.position value && kept) := by
  rw [holdAll]
  refine hvalue.bind ?_
  cases holdsAt ctx.position value with
  | true => exact hrest
  | false => exact .pure false

end Predicates

/-- A filter by a predicate that is decided everywhere filters the places of the nodes. -/
theorem filterNodes_eq {doc : Document} {roots ids : List NodeId} {predicate : Expr}
    {verdict : Context → Bool} (hroots : ∀ r ∈ roots, r < doc.size)
    (hids : ∀ id ∈ ids, id < doc.size) (hpredicate : ∀ ctx : Context, ctx.node ∈ ids →
      Yields (holdAll (Setting.of doc roots none) [predicate] ctx) (verdict ctx)) :
    filterNodes doc roots ids predicate =
      .ok (((places ids.length 1 ids).filter verdict).map Context.node) := by
  rw [filterNodes, checkKnown_eq_ok_iff.2 hroots, checkKnown_eq_ok_iff.2 hids]
  exact (yields_keep hpredicate 1).run'_eq 0

end MarkupPath.Evaluation
