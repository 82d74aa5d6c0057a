import MarkupPath.Proofs.Number.Reading
import MarkupPath.Proofs.Selection.BulkEdits
import MarkupPath.Proofs.Selection.Filters

/-!
# Filtering after a bulk write

A write of an attribute finds it by its exact name, while the filter by an attribute looks at the
first one that its name test admits, and that may be another one: a test without a prefix admits the
local name under any prefix. So after `setAttribute` a member passes `whereAttributeEq` with the
same name and value unless such another attribute comes first and has a value that compares
different (`whereAttributeEq_setAttribute`). The value itself always compares equal, as a number or
as a text (`compareOperands_self`).
-/

set_option autoImplicit false

namespace MarkupPath.Selection

open MarkupPath.Evaluation MarkupPath.Query MarkupPath.Tree
open MarkupPath.Markup (Attribute)

/-! ## The attribute that a test finds -/

/-- The attribute that the test of a name looks at: the first that it admits. -/
def tested? (name : String) (attributes : List Attribute) : Option Attribute :=
  attributes.find? fun a => (NameTest.name name).admits (attributeLocalPart a.name) a.name

/-- The test of a name looks at an attribute of another name, and that one's value differs from the
given one. -/
def shadowed (name value : String) (attributes : List Attribute) : Bool :=
  (tested? name attributes).any fun a =>
    a.name != name && !compareOperands .equal (.text a.value) (.text value)

theorem attributeLocalPart_eq_self {name : String} (h : name.toList.contains ':' = false) :
    attributeLocalPart name = name := by
  have hall : ∀ c ∈ name.toList.reverse, (c != ':') = true := by
    intro c hc
    rw [bne_iff_ne]
    rintro rfl
    rw [List.contains_eq_mem, decide_eq_false_iff_not] at h
    exact h (List.mem_reverse.1 hc)
  rw [attributeLocalPart, List.takeWhile_eq_self_iff.2 hall, List.reverse_reverse,
    String.ofList_toList]

/-- The test of a name admits the attribute of that very name, with a prefix or without one. -/
theorem admits_self (name : String) :
    (NameTest.name name).admits (attributeLocalPart name) name = true := by
  rw [NameTest.admits]
  split
  · exact beq_self_eq_true name
  · next h =>
    rw [attributeLocalPart_eq_self (Bool.eq_false_iff.2 h)]
    exact beq_self_eq_true name

/-- A test with a prefix admits no other attribute. -/
theorem eq_of_admits {name other : String} (hname : name.toList.contains ':' = true)
    (h : (NameTest.name name).admits (attributeLocalPart other) other = true) : other = name := by
  rw [NameTest.admits, if_pos hname] at h
  exact (eq_of_beq h).symm

/-- Setting an attribute changes what the test of its name looks at, unless that is an attribute of
another name. -/
theorem tested?_setAttribute (name value : String) (attributes : List Attribute) :
    tested? name (setAttribute name value attributes) =
      some (((tested? name attributes).filter fun a => a.name != name).getD ⟨name, value⟩) := by
  induction attributes with
  | nil => simp [tested?, setAttribute, admits_self]
  | cons a rest ih =>
    rw [setAttribute]
    by_cases ha : a.name = name
    · simp [tested?, ha, admits_self, Option.filter_some]
    · rw [beq_eq_false_iff_ne.2 ha, if_neg Bool.false_ne_true]
      rw [tested?] at ih ⊢
      cases hadmits : (NameTest.name name).admits (attributeLocalPart a.name) a.name with
      | true => simp [tested?, hadmits, ha, Option.filter_some]
      | false =>
        rw [List.find?_cons, hadmits, ih]
        simp [tested?, hadmits]

/-! ## The comparison -/

/-- A text compares equal to itself: the number that it starts with is no NaN. -/
theorem compareOperands_self (text : String) :
    compareOperands .equal (.text text) (.text text) = true := by
  rw [compareOperands]
  cases hnumber : (Operand.text text).number? with
  | none => exact beq_self_eq_true text
  | some x =>
    have hnan : x.isNaN = false := Number.isNaN_of_leading? hnumber
    have hself : (x == x) = true := by
      rw [Float.beq_self_iff]
      rwa [Float.isNaN_eq_decide_eq_nan, decide_eq_false_iff_not] at hnan
    simp only [compareNumbers, hnan, Bool.or_self, Bool.false_eq_true, if_false]
    exact hself

/-! ## The filter -/

/-- The filter by an attribute keeps the members at which the attribute that the test looks at
compares equal. -/
theorem whereAttributeEq_eq {doc : Document} {s : ResultSet} (hroots : ∀ r ∈ s.roots, r < doc.size)
    (hmembers : ∀ id ∈ s.ids, id < doc.size) (name value : String) :
    ∃ t, s.whereAttributeEq doc name value = .ok t ∧
      t.ids = s.ids.filter fun id => (tested? name (doc.attributes id)).any fun a =>
        compareOperands .equal (.text a.value) (.text value) := by
  have happly := (MemberFilter.attributeEq name value).apply_eq ⟨hroots, hmembers⟩
  refine ⟨_, happly, List.filter_congr fun id _ => ?_⟩
  exact Option.any_map

/-- The attributes of an element behind a bulk write. -/
theorem attributes_setAttribute {doc : Document} {s : ResultSet} {id : NodeId} (hid : id ∈ s.ids)
    (helement : doc.isElement id = true) (name value : String) :
    (s.setAttribute doc name value).2.attributes id =
      setAttribute name value (doc.attributes id) := by
  obtain ⟨n, hn, hkind⟩ := doc.isElement_iff.1 helement
  have haccepted : refusal? true doc id = none := by
    rw [refusal?, Document.kind?, hn]
    simpa [Node.isElement] using hkind
  rw [Document.attributes, (editsEach_setAttribute doc s name value).changed id hid haccepted, hn,
    Document.attributes, hn]
  exact (Node.mapAttributes_attributes _ n).trans (if_pos hkind)

/-- After a write of an attribute to all members, the filter by the same name and value keeps those
members at which the test of the name does not look at an attribute of another name and with a
different value. With a prefix in the name, or without such other attributes, it keeps all. -/
theorem whereAttributeEq_setAttribute {doc : Document} {s : ResultSet}
    (hroots : ∀ r ∈ s.roots, r < doc.size) (hmembers : ∀ id ∈ s.ids, doc.isElement id = true)
    (name value : String) :
    ∃ t, s.whereAttributeEq (s.setAttribute doc name value).2 name value = .ok t ∧
      t.ids = s.ids.filter (fun id => !shadowed name value (doc.attributes id)) ∧
      ((name.toList.contains ':' = true ∨ ∀ id ∈ s.ids, ∀ a ∈ doc.attributes id,
        attributeLocalPart a.name = name → a.name = name) → t.ids = s.ids) := by
  have hsize := (editsEach_setAttribute doc s name value).size
  have hroots' : ∀ r ∈ s.roots, r < (s.setAttribute doc name value).2.size := by
    rw [hsize]
    exact hroots
  have hmembers' : ∀ id ∈ s.ids, id < (s.setAttribute doc name value).2.size := by
    rw [hsize]
    exact fun id hid => Document.lt_size_of_isElement (hmembers id hid)
  obtain ⟨t, ht, hids⟩ := whereAttributeEq_eq hroots' hmembers' name value
  have hkept : t.ids = s.ids.filter fun id => !shadowed name value (doc.attributes id) := by
    rw [hids]
    apply List.filter_congr
    intro id hid
    rw [attributes_setAttribute hid (hmembers id hid), tested?_setAttribute, shadowed,
      Option.any_some]
    cases tested? name (doc.attributes id) with
    | none => exact compareOperands_self value
    | some a =>
      by_cases ha : a.name = name
      · simp [ha, Option.filter_some, compareOperands_self]
      · simp [ha, Option.filter_some]
  refine ⟨t, ht, hkept, fun hnone => ?_⟩
  rw [hkept, List.filter_eq_self]
  intro id hid
  rw [shadowed]
  cases htested : tested? name (doc.attributes id) with
  | none => rfl
  | some a =>
    have hadmits := List.find?_some htested
    have ha : a.name = name := by
      cases hprefix : name.toList.contains ':' with
      | true => exact eq_of_admits hprefix hadmits
      | false =>
        rw [NameTest.admits, hprefix, if_neg Bool.false_ne_true] at hadmits
        exact hnone.resolve_left (Bool.eq_false_iff.1 hprefix) id hid a
          (List.mem_of_find?_eq_some htested) (eq_of_beq hadmits).symm
    simp [ha]

/-- An element with a prefixed attribute, and a child without attributes. -/
def prefixedAttribute : Document :=
  (Document.withRoot ((ElementSpec.named "r").withAttribute "x:a" "u")).after
    (.createChild 0 (.named "c") (.named "c"))

theorem reachable_prefixedAttribute : Reachable prefixedAttribute :=
  .edit _ (.withRoot (.withAttribute "x:a" "u" (.named "r")))

/-- A write of `a` to both elements is seen at the child alone, a write of `x:a` at both. -/
theorem whereAttributeEq_prefixedAttribute :
    let s : ResultSet := ⟨[0, 1], [0], ⟨".", .path ⟨false, [⟨.self, .any, []⟩]⟩⟩⟩
    (∃ t, s.whereAttributeEq (s.setAttribute prefixedAttribute "a" "v").2 "a" "v" = .ok t ∧
        t.ids = [1]) ∧
      ∃ t, s.whereAttributeEq (s.setAttribute prefixedAttribute "x:a" "v").2 "x:a" "v" = .ok t ∧
        t.ids = [0, 1] := by
  intro s
  have hroots : ∀ r ∈ s.roots, r < prefixedAttribute.size := by decide +kernel
  have hmembers : ∀ id ∈ s.ids, prefixedAttribute.isElement id = true := by decide +kernel
  obtain ⟨t, ht, hids, -⟩ := whereAttributeEq_setAttribute hroots hmembers "a" "v"
  obtain ⟨u, hu, -, hall⟩ := whereAttributeEq_setAttribute hroots hmembers "x:a" "v"
  refine ⟨⟨t, ht, ?_⟩, u, hu, hall (.inl (by decide +kernel))⟩
  rw [hids]
  decide +kernel

/-- Not every write to the members of an evaluated set is seen by the filter of the same name: under
a prefix, an attribute of that local name may come first. -/
theorem not_forall_whereAttributeEq_setAttribute :
    ¬ ∀ (doc : Document) (roots : List NodeId) (e : Expression) (s : ResultSet),
      Reachable doc → (∀ r ∈ roots, r < doc.size) → ResultSet.ofExpression doc roots e = .ok s →
      (∀ id ∈ s.ids, doc.isElement id = true) → ∀ name value : String,
        ∃ t, s.whereAttributeEq (s.setAttribute doc name value).2 name value = .ok t ∧
          t.ids = s.ids := by
  intro hall
  let s : ResultSet := ⟨[0], [0], ⟨"/r", .path ⟨true, [⟨.child, .element (.name "r"), []⟩]⟩⟩⟩
  have he : ResultSet.ofExpression prefixedAttribute [0] s.expression = .ok s := by cbv
  obtain ⟨t, ht, hids⟩ := hall prefixedAttribute [0] s.expression s reachable_prefixedAttribute
    (by decide +kernel) he (by decide +kernel) "a" "v"
  have hroots : ∀ r ∈ s.roots, r < (s.setAttribute prefixedAttribute "a" "v").2.size := by
    decide +kernel
  have hmembers : ∀ id ∈ s.ids, id < (s.setAttribute prefixedAttribute "a" "v").2.size := by
    decide +kernel
  obtain ⟨u, hu, hkept⟩ := whereAttributeEq_eq hroots hmembers "a" "v"
  cases ht.symm.trans hu
  rw [hids] at hkept
  exact absurd hkept (by decide +kernel)

end MarkupPath.Selection
