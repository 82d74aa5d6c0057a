import MarkupPath.Proofs.Evaluation.Matching
import MarkupPath.Proofs.Tree.Outside

/-!
# Answers depend on shape and content alone

If the trees around the roots of one document are those of another one with their nodes renamed,
then the settings of evaluations over them are `Matching` (`matching_of_renaming`), also at the
document above the roots (`matchingDocument_of_renaming`). Hence every expression has the same value
or fault over both, with the nodes of a node set renamed, and edits outside the trees around the
roots change no answer (`evaluateValue_of_renaming`).

Sorting looks at nothing but places in the order of the setting, so it commutes with a renaming of
that order (`inOrder_map`), even for nodes that are no elements and have no place in it.
-/

set_option autoImplicit false

namespace MarkupPath.Evaluation

open MarkupPath.Query MarkupPath.Tree Visiting

/-! ## Sorting renamed nodes -/

section Sorting

variable {f : NodeId → NodeId} {near : NodeId → Prop} {order ids : List NodeId}

/-- Nodes have the same places in the renamed order. -/
theorem idxOf_map (hinj : Set.InjOn f {id | near id}) (horder : ∀ id ∈ order, near id)
    {id : NodeId} (hid : near id) : (order.map f).idxOf (f id) = order.idxOf id := by
  induction order with
  | nil => rfl
  | cons x rest ih =>
    obtain ⟨hx, hrest⟩ := List.forall_mem_cons.1 horder
    have hsame : (f x == f id) = (x == id) := by
      rw [Bool.eq_iff_iff, beq_iff_eq, beq_iff_eq]
      exact hinj.eq_iff hx hid
    rw [List.map_cons, List.idxOf_cons, List.idxOf_cons, ih hrest, hsame]

/-- Nodes that are near are not renamed to one, so repetitions are the same. -/
theorem dropRepeats_map (hinj : Set.InjOn f {id | near id}) (hids : ∀ id ∈ ids, near id) :
    dropRepeats (ids.map f) = (dropRepeats ids).map f := by
  induction ids using dropRepeats.induct with
  | case1 => rfl
  | case2 => rfl
  | case3 a b rest heq ih =>
    have hfab : (f a == f b) = true := beq_iff_eq.2 (congrArg f (beq_iff_eq.1 heq))
    have hrest := ih (List.forall_mem_cons.1 hids).2
    rw [List.map_cons, List.map_cons, dropRepeats, dropRepeats, if_pos heq, if_pos hfab]
    exact hrest
  | case4 a b rest hne ih =>
    obtain ⟨ha, hrest⟩ := List.forall_mem_cons.1 hids
    have hfab : ¬ (f a == f b) = true := fun heq =>
      hne (beq_iff_eq.2 (hinj ha (hrest b List.mem_cons_self) (beq_iff_eq.1 heq)))
    rw [List.map_cons, List.map_cons, dropRepeats, dropRepeats, if_neg hne, if_neg hfab,
      ← List.map_cons, ih hrest, List.map_cons]

/-- Sorting by a renamed order is renaming what the order sorts. -/
theorem inOrder_map (hinj : Set.InjOn f {id | near id}) (horder : ∀ id ∈ order, near id)
    (hids : ∀ id ∈ ids, near id) :
    inOrder (order.map f) (ids.map f) = (inOrder order ids).map f := by
  unfold inOrder
  extract_lets ranked' ranked
  -- the ranks are the same, so the ranked nodes are sorted alike
  have hranked : ranked' = ranked.map (Prod.map id f) := by
    simp only [ranked', ranked, List.map_map]
    refine List.map_congr_left fun id hid => ?_
    simp [Prod.map, idxOf_map hinj horder (hids id hid)]
  have hsorted : ranked'.mergeSort (fun a b => a.1 ≤ b.1) =
      (ranked.mergeSort fun a b => a.1 ≤ b.1).map (Prod.map id f) := by
    rw [hranked]
    exact (List.map_mergeSort (f := Prod.map id f) fun _ _ _ _ => rfl).symm
  have hmem : ∀ id ∈ (ranked.mergeSort fun a b => a.1 ≤ b.1).map (·.2), near id := by
    intro id hid
    obtain ⟨entry, hentry, rfl⟩ := List.mem_map.1 hid
    obtain ⟨x, hx, rfl⟩ := List.mem_map.1 (List.mem_mergeSort.1 hentry)
    exact hids x hx
  rw [← dropRepeats_map hinj hmem, hsorted, List.map_map, List.map_map]
  rfl

end Sorting

/-! ## Settings over renamed trees -/

/-- A test looks only at the kind and the name of a node. -/
theorem passes_congr {doc doc' : Document} {x y : NodeId} (hkind : doc'.kind? y = doc.kind? x)
    (hname : doc'.name? y = doc.name? x) (test : NodeTest) :
    passes doc' test y = passes doc test x := by
  rw [Document.kind?, Document.kind?] at hkind
  rw [Document.name?, Document.name?] at hname
  rw [passes, passes]
  cases hy : doc'.node? y <;> cases hx : doc.node? x <;>
    simp_all [Node.isElement, Node.localName]

section Renaming

variable {doc doc' : Document} {roots : List NodeId} {f : NodeId → NodeId} (limit : Option Nat)

variable (ren : Renaming doc doc' roots f) (h : doc.WellFormed) (h' : doc'.WellFormed)
  (hknown : ∀ r ∈ roots, r < doc.size)

include ren h h' hknown

/-- Each axis leads from a renamed node to the renamed nodes, in the same order. -/
theorem navigate_of_renaming (axis : Axis) (x : Item)
    (hx : x.Around (Setting.of doc roots limit)) :
    navigate doc' (roots.map f) axis (x.rename f) = (navigate doc roots axis x).map f := by
  have hroots : ∀ r ∈ roots, doc.Around roots r := fun r hr => h.around_of_mem hr
  cases x with
  | node id =>
    have hid : doc.Around roots id := hx
    cases axis with
    | self =>
      have hself : ∀ x ∈ [id], doc.Around roots x := by simpa using hid
      exact ren.filter_isElement hself
    | child =>
      rw [Item.rename, navigate, navigate, ren.children_eq hid]
      refine ren.filter_isElement fun c hc => ?_
      exact (h.around_parent_iff (h.mem_children_iff.1 hc)).1 hid
    | descendantOrSelf => exact ren.elementsUnder_map h h' hknown hid
    | parent =>
      rw [Item.rename, navigate, navigate, ren.parent?_eq hid, Option.toList_map]
      refine ren.filter_isElement fun p hp => ?_
      exact (h.around_parent_iff (Option.mem_toList.1 hp)).2 hid
  | document =>
    cases axis with
    | self => rfl
    | parent => rfl
    | child => exact ren.filter_isElement hroots
    | descendantOrSelf =>
      rw [Item.rename, navigate, navigate, List.flatMap_map, List.map_flatMap]
      exact List.flatMap_congr fun r hr => ren.elementsUnder_map h h' hknown (hroots r hr)

omit ren h' in
theorem around_of_mem_navigate {axis : Axis} (x : Item)
    (hx : x.Around (Setting.of doc roots limit)) :
    ∀ y ∈ navigate doc roots axis x, doc.Around roots y := by
  intro y hy
  have henv := Setting.Sound.of h hknown limit
  exact around_of_reached henv hx ((mem_navigate_iff henv hx).1 hy).1

theorem sorted_of_renaming {ids : List NodeId} (hids : ∀ id ∈ ids, doc.Around roots id) :
    (Setting.of doc' (roots.map f) limit).sorted (ids.map f) =
      ((Setting.of doc roots limit).sorted ids).map f := by
  rw [Setting.sorted, Setting.of, ren.elementsAround_map h h' hknown]
  refine inOrder_map ren.bijOn.injOn (fun id hid => ?_) hids
  exact ((h.mem_elementsAround_iff hknown).1 hid).2

/-- The settings of evaluations over trees and over the renamed trees match. -/
theorem matching_of_renaming : Matching (· = ·) f (doc.Around roots) (Setting.of doc roots limit)
    (Setting.of doc' (roots.map f) limit) where
  mirrors_visit := mirrors_visit_of_eq rfl
  near_navigate := fun {_ id y} hid hy =>
    around_of_mem_navigate limit h hknown (.node id) hid y hy
  navigate_eq := fun {id} axis hid =>
    navigate_of_renaming limit ren h h' hknown axis (.node id) hid
  passes_eq := fun test hid => passes_congr (ren.kind?_eq hid) (ren.name?_eq hid) test
  name?_eq := ren.name?_eq
  text?_eq := ren.text?_eq
  attributes_eq := ren.attributes_eq
  sorted_eq := sorted_of_renaming limit ren h h' hknown

theorem matchingDocument_of_renaming : MatchingDocument (· = ·) f (doc.Around roots)
    (Setting.of doc roots limit) (Setting.of doc' (roots.map f) limit) :=
  (matching_of_renaming limit ren h h' hknown).matchingDocument (List.length_map f)
    (fun _ => around_of_mem_navigate limit h hknown .document trivial)
    fun axis => navigate_of_renaming limit ren h h' hknown axis .document trivial

/-- Over renamed trees an evaluation has the renamed value, or the same fault. -/
theorem evaluateValue_rename (e : Expr) :
    evaluateValue doc' (roots.map f) e limit =
      (evaluateValue doc roots e limit).map (Value.rename f) := by
  cases roots with
  | nil => rfl
  | cons first rest =>
    have hknown' : ∀ r ∈ (first :: rest).map f, r < doc'.size := by
      intro y hy
      obtain ⟨r, hr, rfl⟩ := List.mem_map.1 hy
      exact ren.lt_size h hknown (h.around_of_mem hr)
    have hevery : e.Every (fun _ => True) fun _ _ => True :=
      Expr.every_of_forall (fun _ => trivial) (fun _ _ => trivial) e
    have hrun := (matching_of_renaming limit ren h h' hknown).mirrors_evalFrom
      (fun _ _ _ => matchingDocument_of_renaming limit ren h h' hknown) rfl
      (fun r hr => h.around_of_mem hr) (h.around_of_mem List.mem_cons_self) hevery
    rw [evaluateValue_eq rfl hknown, evaluateValue_eq rfl hknown']
    exact hrun.run'_eq 0 0 rfl

end Renaming

/-! ## Whole evaluations -/

/-- An answer depends only on the shape and the content of the trees around the roots. Over any
reachable document whose trees around the renamed roots are those trees with their nodes renamed, an
expression has the same value or fault, with the nodes of a node set renamed; and a run of edits
with targets outside those trees changes no answer. -/
theorem evaluateValue_of_renaming {doc : Document} {roots : List NodeId} (hdoc : Reachable doc)
    (hknown : ∀ r ∈ roots, r < doc.size) :
    (∀ (doc' : Document) (f : NodeId → NodeId), Reachable doc' → Renaming doc doc' roots f →
      ∀ (e : Expr) (limit : Option Nat), evaluateValue doc' (roots.map f) e limit =
        (evaluateValue doc roots e limit).map (Value.rename f)) ∧
    ∀ edits : List Edit, (∀ edit ∈ edits, ∀ id ∈ edit.targets, ¬ doc.Around roots id) →
      ∀ (e : Expr) (limit : Option Nat),
        evaluateValue (edits.foldl Document.after doc) roots e limit =
          evaluateValue doc roots e limit := by
  have hwf := hdoc.wellFormed
  constructor
  · intro doc' f hdoc' ren e limit
    exact evaluateValue_rename limit ren hwf hdoc'.wellFormed hknown e
  · intro edits houtside e limit
    have hsame := Unchanged.run hwf hknown houtside
    have hwf' := (hdoc.run edits).wellFormed
    -- unchanged trees are renamed by the identity, which renames no value
    have heval := evaluateValue_rename limit (Renaming.of_unchanged hsame hwf hwf') hwf hwf' hknown
      e
    rwa [List.map_id, Value.map_rename_id] at heval

/-- The chain of `nest`, created from the inside out. -/
def nestReversed : Document :=
  [.createElement (.named "b") (.named "b"), .createElement (.named "a") (.named "a"),
    .appendChild 1 0, .appendChild 2 1].foldl Document.after (Document.withRoot (.named "c"))

/-- The two chains are renamed into each other, and all their nodes lie around the middle one. -/
theorem renaming_nestReversed : Renaming nest nestReversed [1] fun id => 2 - id := by
  have hnest : Reachable nest := .edit _ (.edit _ (.withRoot (.named "a")))
  have hreversed : Reachable nestReversed := (Reachable.withRoot (.named "c")).run _
  have haround : ∀ id, nest.Around [1] id ↔ id < 3 := by
    intro id
    refine ⟨hnest.wellFormed.lt_size_of_around (by decide +kernel), fun hid => ?_⟩
    refine ⟨1, List.mem_cons_self, hnest.wellFormed.sameTree_iff.2 ?_⟩
    interval_cases id <;> decide +kernel
  have haround' : ∀ id, nestReversed.Around [1] id ↔ id < 3 := by
    intro id
    refine ⟨hreversed.wellFormed.lt_size_of_around (by decide +kernel), fun hid => ?_⟩
    refine ⟨1, List.mem_cons_self, hreversed.wellFormed.sameTree_iff.2 ?_⟩
    interval_cases id <;> decide +kernel
  have hbijOn : Set.BijOn (fun id => 2 - id) {id | nest.Around [1] id}
      {id | nestReversed.Around [1] id} := by
    simp only [haround, haround']
    have hlt : ∀ id : Nat, 2 - id < 3 := fun id => by omega
    have hback : ∀ id : Nat, id < 3 → 2 - (2 - id) = id := fun id hid => by omega
    refine ⟨fun id _ => hlt id, fun a ha b hb hab => ?_, fun id hid =>
      ⟨2 - id, hlt id, hback id hid⟩⟩
    rw [← hback a ha, ← hback b hb]
    exact congrArg (2 - ·) hab
  refine ⟨hbijOn, ?_, ?_, ?_, ?_, ?_, ?_⟩
  all_goals
    intro id hid
    have hlt := (haround id).1 hid
    interval_cases id <;> decide +kernel

/-- From the middle of the chain the two lower nodes are found, outer one first, whichever of them
was created first and whatever happens to a further tree. -/
theorem below_middle_of_chain :
    let below : Expr := .path ⟨false, [⟨.descendantOrSelf, .any, []⟩]⟩
    let elsewhere : List Edit := [.createElement (.named "x") (.named "x"),
      .createChild 3 (.named "y") (.named "y"), .remove 4]
    evaluateValue nest [1] below none = .ok (.nodes [1, 2]) ∧
      evaluateValue nestReversed [1] below none = .ok (.nodes [1, 0]) ∧
      evaluateValue (elsewhere.foldl Document.after nest) [1] below none = .ok (.nodes [1, 2]) := by
  intro below elsewhere
  have hnest : Reachable nest := .edit _ (.edit _ (.withRoot (.named "a")))
  have hreversed : Reachable nestReversed := (Reachable.withRoot (.named "c")).run _
  have hknown : ∀ r ∈ [1], r < nest.size := by decide +kernel
  have hvalue : evaluateValue nest [1] below none = .ok (.nodes [1, 2]) := by cbv
  obtain ⟨hrename, hunchanged⟩ := evaluateValue_of_renaming hnest hknown
  refine ⟨hvalue, ?_, ?_⟩
  · have hreverse := hrename _ _ hreversed renaming_nestReversed below none
    rw [hvalue] at hreverse
    exact hreverse
  · have hnew : ∀ id, 3 ≤ id → ¬ nest.Around [1] id := by
      intro id hid haround
      exact absurd (hnest.wellFormed.lt_size_of_around hknown haround) (Nat.not_lt.2 hid)
    rw [hunchanged elsewhere (by simp [elsewhere, Edit.targets, hnew]) below none, hvalue]

end MarkupPath.Evaluation
