import MarkupPath.Proofs.Tree.Assembly
import MarkupPath.Proofs.Tree.Part

/-!
# Documents are built by recursion

Reading markup is one loop with a stack of open elements. Below an open element the events that
write some parts do to the document what the recursion on those parts does, and leave the stack as
it was (`Assembly.run_of_writes`); and a run that closes the element has read events of that kind
(`Assembly.exists_writes_of_run`). Hence a text is accepted exactly when its events hold one
element, and its document is the one of that element (`ofMarkup_eq_ok_iff`).
-/

set_option autoImplicit false

namespace MarkupPath.Tree

open MarkupPath.Markup MarkupPath.Text

/-! ## Growing a document -/

/-- The node with further children and further segments of its own text. -/
def Node.receive (children : List NodeId) (segments : List String) (n : Node) : Node :=
  { n.mapChildren (· ++ children) with
    text := if segments = [] then n.text else some (n.text.getD "" ++ String.join segments) }

@[simp] theorem Node.receive_name (children : List NodeId) (segments : List String) (n : Node) :
    (n.receive children segments).name = n.name :=
  n.mapChildren_name _

theorem Node.receive_segments_nil (children : List NodeId) :
    Node.receive children [] = Node.mapChildren (· ++ children) := by
  funext n
  rcases n with ⟨_ | _ | _, _, _⟩ <;> rfl

theorem Node.receive_nil (n : Node) : n.receive [] [] = n := by
  rcases n with ⟨_ | _ | _, _, _⟩ <;> simp [receive, mapChildren]

/-- Contents may be received in pieces. -/
theorem Node.receive_comp_receive (cs ds : List NodeId) (ss ts : List String) :
    Node.receive ds ts ∘ Node.receive cs ss = Node.receive (cs ++ ds) (ss ++ ts) := by
  funext n
  have htext : ∀ text : Option String,
      (if ts = [] then if ss = [] then text else some (text.getD "" ++ String.join ss)
        else some ((if ss = [] then text else some (text.getD "" ++ String.join ss)).getD "" ++
          String.join ts)) =
      if ss ++ ts = [] then text else some (text.getD "" ++ String.join (ss ++ ts)) := by
    intro text
    cases ss <;> cases ts <;> simp [String.append_assoc]
  rcases n with ⟨_ | _ | _, text, _⟩ <;> simp [receive, mapChildren, htext]

section Arrays

variable {α : Type} {xs ys : Array α} {i : Nat} {f g : α → α}

theorem modify_append_left (hi : i < xs.size) : (xs ++ ys).modify i f = xs.modify i f ++ ys := by
  apply Array.ext_getElem?
  intro j
  rw [Array.getElem?_modify, Array.getElem?_append, Array.getElem?_append, Array.size_modify,
    Array.getElem?_modify]
  split <;> split <;> first | rfl | omega

theorem modify_push_last (hi : i = xs.size) (x : α) :
    (xs.push x).modify i f = xs.push (f x) := by
  apply Array.ext_getElem?
  intro j
  rw [Array.getElem?_modify, Array.getElem?_push, Array.getElem?_push, hi]
  by_cases hj : j = xs.size
  · simp [hj]
  · rw [if_neg (Ne.symm hj), if_neg hj, if_neg hj]

theorem modify_modify : (xs.modify i f).modify i g = xs.modify i (g ∘ f) := by
  apply Array.ext_getElem?
  intro j
  simp only [Array.getElem?_modify]
  split <;> simp [Option.map_map]

theorem modify_eq_self (hf : ∀ x, f x = x) : xs.modify i f = xs := by
  apply Array.ext_getElem?
  intro j
  rw [Array.getElem?_modify, show f = id from funext hf, Option.map_id, id, ite_self]

end Arrays

namespace Document

variable (options : ReadOptions) (doc : Document) (id : NodeId)

/-- The document with the nodes of parts below one of its elements. -/
def grow (parts : List Part) : Document :=
  { doc with
    nodes := doc.nodes.modify id
        (Node.receive (Part.heads options doc.size parts)
          (parts.filterMap (Part.segment? options))) ++
      (Part.nodesOf options (some id) doc.size parts).toArray }

@[simp] theorem size_grow (parts : List Part) :
    (doc.grow options id parts).size = doc.size + Part.sizes options parts := by
  simp [grow, Document.size, Part.length_nodesOf]

theorem grow_nil : doc.grow options id [] = doc := by
  rw [grow, Part.nodesOf, Array.append_empty, modify_eq_self]
  exact Node.receive_nil

variable {id}

theorem name?_grow (parts : List Part) {j : NodeId} (hj : j < doc.size) :
    (doc.grow options id parts).name? j = doc.name? j := by
  rw [name?, name?, node?, node?, grow, Array.getElem?_append_left (by rwa [Array.size_modify]),
    Array.getElem?_modify]
  split
  · rw [Option.map_map]
    congr 1
    funext n
    exact n.receive_name _ _
  · rfl

theorem grow_grow (hid : id < doc.size) (ps qs : List Part) :
    (doc.grow options id ps).grow options id qs = doc.grow options id (ps ++ qs) := by
  have hsize := doc.size_grow options id ps
  rw [grow, hsize]
  have hid' : id < (doc.nodes.modify id (Node.receive (Part.heads options doc.size ps)
      (ps.filterMap (Part.segment? options)))).size := by rwa [Array.size_modify]
  rw [grow, grow, Part.heads_append, Part.nodesOf_append, List.filterMap_append,
    modify_append_left hid', modify_modify, Node.receive_comp_receive, Array.append_assoc]
  simp only [List.append_toArray]

/-- A new last child stands behind all nodes. -/
theorem pushChild_eq (hid : id < doc.size) (hroot : doc.documentElement = none) (n : Node) :
    doc.pushChild id n =
      { doc with
        nodes := (doc.nodes.modify id (Node.mapChildren (· ++ [doc.size]))).push
          { n with parent := some id } } := by
  have hnodes : (doc.nodes.push n).modify id (Node.mapChildren (· ++ [doc.size])) =
      (doc.nodes.modify id (Node.mapChildren (· ++ [doc.size]))).push n := by
    rw [← Array.append_singleton, modify_append_left hid, Array.append_singleton]
  have hlast : doc.size = (doc.nodes.modify id (Node.mapChildren (· ++ [doc.size]))).size :=
    Array.size_modify.symm
  rw [pushChild, attach]
  simp only [modify, push, hroot, hnodes]
  rw [modify_push_last hlast, if_neg (by simp)]

/-- A part without nodes and segments changes nothing. -/
theorem grow_nothing (p : Part) (hnodes : ∀ parent first, p.nodes options parent first = [])
    (hsegment : p.segment? options = none) : doc.grow options id [p] = doc := by
  have hsize : p.size options = 0 := by
    rw [← Part.length_nodes options none 0, hnodes, List.length_nil]
  rw [grow, Part.heads, if_pos hsize, Part.heads, Part.nodesOf, hnodes, Part.nodesOf,
    List.filterMap_cons, hsegment, List.filterMap_nil, List.append_nil, Array.append_empty,
    modify_eq_self]
  exact Node.receive_nil

/-- A part that is a segment is put behind the own text. -/
theorem grow_segment (p : Part) {segment : String}
    (hnodes : ∀ parent first, p.nodes options parent first = [])
    (hsegment : p.segment? options = some segment) :
    doc.modify id (fun n => { n with text := some (n.text.getD "" ++ segment) }) =
      doc.grow options id [p] := by
  have hsize : p.size options = 0 := by
    rw [← Part.length_nodes options none 0, hnodes, List.length_nil]
  have hreceive : Node.receive [] [segment] =
      fun n => { n with text := some (n.text.getD "" ++ segment) } := by
    funext n
    rcases n with ⟨_ | _ | _, _, _⟩ <;> simp [Node.receive, Node.mapChildren]
  rw [modify, grow, Part.heads, if_pos hsize, Part.heads, Part.nodesOf, hnodes, Part.nodesOf,
    List.filterMap_cons, hsegment, List.filterMap_nil, List.append_nil, Array.append_empty,
    hreceive]

/-- A part that is one node is a new last child. -/
theorem grow_single (hid : id < doc.size) (hroot : doc.documentElement = none) (p : Part) {n : Node}
    (hnodes : p.nodes options (some id) doc.size = [{ n with parent := some id }])
    (hsegment : p.segment? options = none) :
    doc.pushChild id n = doc.grow options id [p] := by
  have hsize : p.size options = 1 := by
    rw [← Part.length_nodes options (some id) doc.size, hnodes, List.length_singleton]
  rw [doc.pushChild_eq hid hroot, grow, Part.heads, hsize, if_neg Nat.one_ne_zero, Part.heads,
    Part.nodesOf, hnodes, Part.nodesOf, List.append_nil, List.filterMap_cons, hsegment,
    List.filterMap_nil, Node.receive_segments_nil]
  simp

/-- A new element that received what its parts make. -/
theorem receive_element (name : String) (attributes : List Attribute) (parent : Option NodeId)
    (first : NodeId) (parts : List Part) :
    Node.receive (Part.heads options first parts) (parts.filterMap (Part.segment? options))
        ⟨.element name attributes [], none, parent⟩ =
      ⟨.element name attributes (Part.heads options first parts), Part.ownText options parts,
        parent⟩ := by
  rw [Part.ownText]
  cases parts.filterMap (Part.segment? options) <;>
    simp [Node.receive, Node.mapChildren, Part.joined]

/-- A new last child with parts below it is an element with these parts. -/
theorem grow_pushChild (hid : id < doc.size) (hroot : doc.documentElement = none) (name : String)
    (attributes : List Attribute) (parts : List Part) :
    (doc.pushChild id (ElementSpec.node ⟨name, attributes, none⟩)).grow options doc.size parts =
      doc.grow options id [.element name attributes parts] := by
  have hlast : doc.size = (doc.nodes.modify id (Node.mapChildren (· ++ [doc.size]))).size :=
    Array.size_modify.symm
  have hsize : (doc.pushChild id (ElementSpec.node ⟨name, attributes, none⟩)).size =
      doc.size + 1 := by rw [pushChild, size_attach, size_push]
  have hnode := receive_element options name attributes (some id) (doc.size + 1) parts
  rw [grow, hsize, doc.pushChild_eq hid hroot, grow]
  simp only [ElementSpec.node]
  rw [modify_push_last hlast, hnode, Part.heads,
    if_neg (by rw [Part.size]; exact Nat.succ_ne_zero _), Part.heads, Part.nodesOf, Part.nodes,
    Part.nodesOf, List.append_nil, List.filterMap_cons, Part.segment?, List.filterMap_nil,
    Node.receive_segments_nil]
  simp

end Document

namespace Assembly

/-! ## Events below an open element -/

/-- What holds of a construction while an element is open. -/
structure Inside (a : Assembly) (id : NodeId) (opened : List (NodeId × Nat)) : Prop where
  opened_eq : ∃ offset, a.opened = (id, offset) :: opened
  known : id < a.document.size
  unfinished : a.document.documentElement = none

/-- The construction with parts below an element. -/
def grow (options : ReadOptions) (a : Assembly) (id : NodeId) (parts : List Part) : Assembly :=
  { a with document := a.document.grow options id parts }

section Below

variable {options : ReadOptions} {a b : Assembly} {id : NodeId} {opened : List (NodeId × Nat)}

theorem Inside.grow (h : a.Inside id opened) (parts : List Part) :
    (a.grow options id parts).Inside id opened where
  opened_eq := h.opened_eq
  known := by
    rw [Assembly.grow, Document.size_grow]
    exact Nat.lt_add_right _ h.known
  unfinished := h.unfinished

/-- An event that opens or closes nothing adds the parts that it writes. -/
theorem step_of_not_isBracket (h : a.Inside id opened) {e : Located}
    (he : isBracket e.event = false) :
    a.step options e = .ok (a.grow options id (partsOf e.event)) := by
  obtain ⟨doc, stack, root⟩ := a
  obtain ⟨offset, hopened⟩ := h.opened_eq
  cases hopened
  have hid : id < doc.size := h.known
  have hroot : doc.documentElement = none := h.unfinished
  rw [step, grow]
  split
  · next hevent => rw [hevent] at he; cases he
  · next name attributes hevent =>
    have hgrow := doc.grow_pushChild options hid hroot name attributes []
    rw [Document.grow_nil] at hgrow
    rw [hevent, partsOf, ← hgrow, addElement]
  · next hevent => rw [hevent] at he; cases he
  · next content hevent =>
    rw [hevent, partsOf]
    split
    · next hblank =>
      rw [doc.grow_nothing options (.text content) (fun _ _ => rfl) (if_pos hblank)]
    · next hblank =>
      rw [← doc.grow_segment options (.text content) (fun _ _ => rfl) (if_neg hblank)]
      rfl
  · next content hevent =>
    rw [hevent, partsOf]
    simp only
    split
    · next hkeep =>
      rw [← doc.grow_single options hid hroot (.cdata content) (n := Node.ofCData content)
        (if_pos hkeep) (if_pos hkeep)]
    · next hkeep =>
      rw [← doc.grow_segment options (.cdata content) (fun _ _ => if_neg hkeep) (if_neg hkeep)]
      rfl
  · next content hevent =>
    rw [hevent, partsOf]
    simp only
    split
    · next hkeep =>
      rw [← doc.grow_single options hid hroot (.comment content) (n := Node.ofComment content)
        (if_pos hkeep) rfl]
    · next hkeep =>
      rw [doc.grow_nothing options (.comment content) (fun _ _ => if_neg hkeep) rfl]
  all_goals
    next hevent =>
    rw [hevent, show partsOf _ = [] from rfl, doc.grow_nil]

/-- The construction with a new element below the innermost open one, itself open. -/
def enter (a : Assembly) (id : NodeId) (name : String) (attributes : List Attribute)
    (offset : Nat) : Assembly :=
  { a with
    document := a.document.pushChild id (ElementSpec.node ⟨name, attributes, none⟩)
    opened := (a.document.size, offset) :: a.opened }

theorem step_of_startTag (h : a.Inside id opened) {e : Located} {name : String}
    {attributes : List Attribute} (he : e.event = .startTag name attributes) :
    a.step options e = .ok (a.enter id name attributes e.start) := by
  obtain ⟨doc, stack, root⟩ := a
  obtain ⟨offset, hopened⟩ := h.opened_eq
  cases hopened
  rw [step, he]
  rfl

theorem Inside.enter (h : a.Inside id opened) (name : String) (attributes : List Attribute)
    (offset : Nat) : (a.enter id name attributes offset).Inside a.document.size a.opened where
  opened_eq := ⟨offset, rfl⟩
  known := by simp [Assembly.enter, Document.pushChild]
  unfinished := by
    rw [Assembly.enter, a.document.pushChild_eq h.known h.unfinished]
    exact h.unfinished

/-- The element that is entered is the new node, under the name of its tag. -/
theorem Inside.name?_enter (h : a.Inside id opened) (name : String) (attributes : List Attribute)
    (offset : Nat) :
    (a.enter id name attributes offset).document.name? a.document.size = some name := by
  have hlast : a.document.size =
      (a.document.nodes.modify id (Node.mapChildren (· ++ [a.document.size]))).size :=
    Array.size_modify.symm
  rw [Assembly.enter, a.document.pushChild_eq h.known h.unfinished, Document.name?, Document.node?]
  simp only [Array.getElem?_push]
  rw [if_pos hlast]
  rfl

theorem step_of_endTag (h : a.Inside id opened) {e : Located}
    (he : e.event = .endTag ((a.document.name? id).getD "")) :
    a.step options e = .ok { a with opened := opened } := by
  obtain ⟨offset, hopened⟩ := h.opened_eq
  rw [step, he, hopened]
  exact if_pos (beq_self_eq_true _)

/-- An end tag that is accepted has the name of the element that it closes. -/
theorem endTag_of_step (h : a.Inside id opened) {e : Located} {name : String}
    (he : e.event = .endTag name) (hok : a.step options e = .ok b) :
    name = (a.document.name? id).getD "" := by
  obtain ⟨offset, hopened⟩ := h.opened_eq
  rw [step, he, hopened] at hok
  simp only at hok
  split at hok
  · next hname => exact (eq_of_beq hname).symm
  · cases hok

/-- Behind its end tag a new element is below the open one with all its parts. -/
theorem step_of_close (h : a.Inside id opened) (name : String) (attributes : List Attribute)
    (offset : Nat) (parts : List Part) {e : Located} (he : e.event = .endTag name) :
    ((a.enter id name attributes offset).grow options a.document.size parts).step options e =
      .ok (a.grow options id [.element name attributes parts]) := by
  have hentered := h.enter name attributes offset
  have hname : (((a.enter id name attributes offset).grow options a.document.size
      parts).document.name? a.document.size).getD "" = name := by
    rw [grow, Document.name?_grow _ _ _ hentered.known, h.name?_enter, Option.getD_some]
  rw [step_of_endTag (hentered.grow parts) (by rw [hname, he]), grow, grow, enter,
    Document.grow_pushChild _ _ h.known h.unfinished]

theorem run_cons {e : Located} (hstep : a.step options e = .ok b) (es : List Located) :
    (e :: es).foldlM (step options) a = es.foldlM (step options) b := by
  rw [List.foldlM_cons, hstep]
  rfl

theorem run_append {es : List Located} (hrun : es.foldlM (step options) a = .ok b)
    (fs : List Located) :
    (es ++ fs).foldlM (step options) a = fs.foldlM (step options) b := by
  rw [List.foldlM_append, hrun]
  rfl

/-- Below an open element, events that write parts do what the recursion on the parts does. -/
theorem run_of_writes {es : List Event} {parts : List Part} (hw : Writes es parts)
    {located : List Located} (hes : located.map (·.event) = es) (h : a.Inside id opened) :
    located.foldlM (step options) a = .ok (a.grow options id parts) := by
  induction hw generalizing located a id opened with
  | nil =>
    cases List.map_eq_nil_iff.1 hes
    rw [grow, Document.grow_nil]
    rfl
  | @single event es ps he _ ih =>
    obtain ⟨e, rest, rfl, rfl, hrest⟩ := List.map_eq_cons_iff.1 hes
    rw [run_cons (step_of_not_isBracket h he), ih hrest (h.grow _), grow, grow,
      Document.grow_grow _ _ h.known]
    rfl
  | @tagged name attributes inside es parts ps _ _ ihinside ih =>
    obtain ⟨first, rest, rfl, hfirst, hrest⟩ := List.map_eq_cons_iff.1 hes
    obtain ⟨middle, last, rfl, hmiddle, hlast⟩ := List.map_eq_append_iff.1 hrest
    obtain ⟨close, later, rfl, hclose, hlater⟩ := List.map_eq_cons_iff.1 hlast
    have hentered := h.enter name attributes first.start
    rw [run_cons (step_of_startTag h hfirst), run_append (ihinside hmiddle hentered),
      run_cons (step_of_close h name attributes first.start parts hclose), ih hlater (h.grow _),
      grow, grow, Document.grow_grow _ _ h.known]
    rfl

/-- A run that closes an open element has read events that write parts, and the end tag. -/
theorem exists_writes_of_run {located : List Located} (h : a.Inside id opened)
    (hok : located.foldlM (step options) a = .ok b) (hb : b.opened = []) :
    ∃ inside e after parts, located = inside ++ e :: after ∧
      e.event = .endTag ((a.document.name? id).getD "") ∧
      Writes (inside.map (·.event)) parts := by
  -- on the number of events: behind a start tag, first those up to its end tag, then the others
  induction hlength : located.length using Nat.strongRecOn generalizing located a id opened with
  | ind n ih =>
    subst hlength
    cases located with
    | nil =>
      cases hok
      obtain ⟨offset, hopened⟩ := h.opened_eq
      rw [hb] at hopened
      cases hopened
    | cons e located =>
      by_cases he : isBracket e.event = false
      · rw [run_cons (step_of_not_isBracket h he)] at hok
        obtain ⟨inside, close, after, parts, rfl, hclose, hparts⟩ :=
          ih _ (Nat.lt_succ_self _) (h.grow _) hok rfl
        rw [grow, Document.name?_grow _ _ _ h.known] at hclose
        exact ⟨e :: inside, close, after, _, rfl, hclose, .single he hparts⟩
      cases hevent : e.event with
      | startTag name attributes =>
        have hentered := h.enter name attributes e.start
        rw [run_cons (step_of_startTag h hevent)] at hok
        obtain ⟨inside, close, later, parts, rfl, hclose, hparts⟩ :=
          ih _ (Nat.lt_succ_self _) hentered hok rfl
        rw [h.name?_enter, Option.getD_some] at hclose
        rw [run_append (run_of_writes hparts rfl hentered),
          run_cons (step_of_close h name attributes e.start parts hclose)] at hok
        obtain ⟨between, last, after, qs, rfl, hlast, hqs⟩ :=
          ih later.length (by simp; omega) (h.grow _) hok rfl
        rw [grow, Document.name?_grow _ _ _ h.known] at hlast
        refine ⟨e :: (inside ++ close :: between), last, after,
          .element name attributes parts :: qs, by simp, hlast, ?_⟩
        rw [List.map_cons, List.map_append, List.map_cons, hevent, hclose]
        exact .tagged hparts hqs
      | endTag name =>
        rw [List.foldlM_cons] at hok
        obtain ⟨middle, hstep, -⟩ := exists_of_bind_eq_ok hok
        have hname := endTag_of_step h hevent hstep
        exact ⟨[], e, located, [], rfl, hname ▸ hevent, .nil⟩
      | _ =>
        rw [hevent] at he
        exact absurd rfl he

end Below

/-! ## Events outside of all elements -/

section Outside

variable {options : ReadOptions} {a b : Assembly} {e : Located} {es : List Located}

/-- Outside the root only what is significant counts. -/
theorem step_of_not_significant (hopened : a.opened = []) (he : isSignificant e.event = false) :
    a.step options e = .ok a := by
  rw [step]
  cases hevent : e.event with
  | text content =>
    rw [hevent] at he
    exact if_pos (by simpa [isSignificant] using he)
  | comment content => rw [hopened]
  | startTag name attributes => rw [hevent] at he; cases he
  | endTag name => rw [hevent] at he; cases he
  | emptyTag name attributes => rw [hevent] at he; cases he
  | cdata content => rw [hevent] at he; cases he
  | _ => rfl

theorem run_of_not_significant (hopened : a.opened = [])
    (hes : ∀ e ∈ es.map (·.event), isSignificant e = false) :
    es.foldlM (step options) a = .ok a := by
  induction es with
  | nil => rfl
  | cons e es ih =>
    obtain ⟨he, hes⟩ := List.forall_mem_cons.1 hes
    rw [run_cons (step_of_not_significant hopened he)]
    exact ih hes

/-- The construction with its first element, which is the root. -/
def withRoot (name : String) (attributes : List Attribute) (opened : List (NodeId × Nat)) :
    Assembly :=
  ⟨Document.empty.push (ElementSpec.node ⟨name, attributes, none⟩), opened, some 0⟩

/-- Outside of all elements an event that counts is the root's first tag. -/
theorem step_outside (hopened : a.opened = []) (hok : a.step options e = .ok b) :
    (isSignificant e.event = false ∧ b = a) ∨
      (a.root = none ∧ ∃ name attributes, (e.event = .emptyTag name attributes ∨
        e.event = .startTag name attributes)) := by
  obtain ⟨doc, stack, root⟩ := a
  cases hopened
  rw [step] at hok
  cases hevent : e.event with
  | startTag name attributes =>
    cases root with
    | some root => rw [hevent] at hok; cases hok
    | none => exact .inr ⟨rfl, name, attributes, .inr rfl⟩
  | emptyTag name attributes =>
    cases root with
    | some root => rw [hevent] at hok; cases hok
    | none => exact .inr ⟨rfl, name, attributes, .inl rfl⟩
  | text content =>
    rw [hevent] at hok
    simp only at hok
    split at hok
    · next hblank =>
      cases hok
      exact .inl ⟨by simp [isSignificant, hblank], rfl⟩
    · cases hok
  | endTag name => rw [hevent] at hok; cases hok
  | cdata content => rw [hevent] at hok; cases hok
  | _ =>
    rw [hevent] at hok
    cases hok
    exact .inl ⟨rfl, rfl⟩

/-- Behind the root nothing that counts is accepted. -/
theorem not_significant_of_run {root : NodeId} (hopened : a.opened = [])
    (hroot : a.root = some root) (hok : es.foldlM (step options) a = .ok b) :
    ∀ e ∈ es.map (·.event), isSignificant e = false := by
  induction es with
  | nil => exact List.forall_mem_nil _
  | cons e es ih =>
    rw [List.foldlM_cons] at hok
    obtain ⟨middle, hstep, hrun⟩ := exists_of_bind_eq_ok hok
    rcases step_outside hopened hstep with ⟨he, rfl⟩ | ⟨hnone, -⟩
    · exact List.forall_mem_cons.2 ⟨he, ih hrun⟩
    · rw [hroot] at hnone
      cases hnone

/-- The document of an element, without it being the document element. -/
theorem document_of_root (options : ReadOptions) (name : String) (attributes : List Attribute)
    (opened : List (NodeId × Nat)) (parts : List Part) :
    ((withRoot name attributes opened).document.grow options 0 parts) =
      ⟨((Part.element name attributes parts).nodes options none 0).toArray, none⟩ := by
  have hpush : (Document.empty.push (ElementSpec.node ⟨name, attributes, none⟩)).nodes =
      #[].push ⟨.element name attributes [], none, none⟩ := rfl
  have hlast : (0 : Nat) = (#[] : Array Node).size := rfl
  rw [withRoot, Document.grow, Document.size_push, hpush, modify_push_last hlast,
    Document.receive_element, Part.nodes]
  simp [Document.empty, Document.size]

theorem inside_withRoot (name : String) (attributes : List Attribute) (offset : Nat) :
    (withRoot name attributes [(0, offset)]).Inside 0 [] where
  opened_eq := ⟨offset, rfl⟩
  known := Nat.zero_lt_one
  unfinished := rfl

/-- Behind its end tag the root has all its parts, and nothing is open. -/
theorem step_of_root_close (name : String) (attributes : List Attribute) (offset : Nat)
    (parts : List Part) (he : e.event = .endTag name) :
    ((withRoot name attributes [(0, offset)]).grow options 0 parts).step options e =
      .ok ⟨⟨((Part.element name attributes parts).nodes options none 0).toArray, none⟩, [],
        some 0⟩ := by
  have hroot := inside_withRoot name attributes offset
  have hname : (((withRoot name attributes [(0, offset)]).grow options 0 parts).document.name?
      0).getD "" = name := by
    rw [grow, Document.name?_grow _ _ _ hroot.known]
    rfl
  rw [step_of_endTag (hroot.grow parts) (by rw [hname, he]), grow, document_of_root]
  rfl

/-- A run over events that hold one element builds its document. -/
theorem run_of_holdsElement {p : Part} (h : HoldsElement (es.map (·.event)) p) :
    es.foldlM (step options) start =
      .ok ⟨⟨(p.nodes options none 0).toArray, none⟩, [], some 0⟩ := by
  obtain ⟨before, inside, after, hes, hbefore, hinside, hafter⟩ := h
  obtain ⟨first, last, rfl, hfirst, rfl⟩ := List.map_eq_append_iff.1 hes
  obtain ⟨first, middle, rfl, rfl, hmiddle⟩ := List.map_eq_append_iff.1 hfirst
  rw [List.append_assoc, run_append (run_of_not_significant rfl hbefore)]
  refine (run_append ?_ last).trans (run_of_not_significant rfl hafter)
  cases hinside with
  | empty name attributes =>
    obtain ⟨e, rest, rfl, he, hrest⟩ := List.map_eq_cons_iff.1 hmiddle
    cases List.map_eq_nil_iff.1 hrest
    have hstep : start.step options e = .ok (withRoot name attributes []) := by
      rw [step, he]
      rfl
    rw [run_cons hstep, ← document_of_root options name attributes [], Document.grow_nil]
    rfl
  | @tagged name attributes inside parts hparts =>
    obtain ⟨e, rest, rfl, he, hrest⟩ := List.map_eq_cons_iff.1 hmiddle
    obtain ⟨between, ends, rfl, hbetween, hends⟩ := List.map_eq_append_iff.1 hrest
    obtain ⟨close, rest, rfl, hclose, hnone⟩ := List.map_eq_cons_iff.1 hends
    cases List.map_eq_nil_iff.1 hnone
    have hstep : start.step options e = .ok (withRoot name attributes [(0, e.start)]) := by
      rw [step, he]
      rfl
    have hroot := inside_withRoot name attributes e.start
    rw [run_cons hstep, run_append (run_of_writes hparts hbetween hroot),
      run_cons (step_of_root_close name attributes e.start parts hclose)]
    rfl

/-- A run that ends behind a root has read events that hold one element. -/
theorem exists_holdsElement_of_run {root : NodeId} (hok : es.foldlM (step options) start = .ok b)
    (hopened : b.opened = []) (hroot : b.root = some root) :
    ∃ p, HoldsElement (es.map (·.event)) p := by
  induction es with
  | nil =>
    cases hok
    cases hroot
  | cons e es ih =>
    have hrun := hok
    rw [List.foldlM_cons] at hok
    obtain ⟨middle, hstep, hok⟩ := exists_of_bind_eq_ok hok
    rcases step_outside rfl hstep with ⟨he, rfl⟩ | ⟨-, name, attributes, hevent | hevent⟩
    · obtain ⟨p, before, inside, after, hes, hbefore, hinside, hafter⟩ := ih hok
      refine ⟨p, e.event :: before, inside, after, by rw [List.map_cons, hes]; rfl, ?_, hinside,
        hafter⟩
      exact List.forall_mem_cons.2 ⟨he, hbefore⟩
    · rw [step, hevent] at hstep
      cases hstep
      exact ⟨_, [], _, es.map (·.event), by rw [List.map_cons, hevent]; rfl,
        List.forall_mem_nil _, .empty name attributes, not_significant_of_run rfl rfl hok⟩
    · rw [step, hevent] at hstep
      cases hstep
      have hentered := inside_withRoot name attributes e.start
      obtain ⟨inside, close, after, parts, rfl, hclose, hparts⟩ :=
        exists_writes_of_run hentered hok hopened
      have hname : close.event = .endTag name := hclose
      change List.foldlM _ (withRoot name attributes [(0, e.start)]) _ = _ at hok
      rw [run_append (run_of_writes hparts rfl hentered),
        run_cons (step_of_root_close name attributes e.start parts hname)] at hok
      refine ⟨_, [], _, after.map (·.event), ?_, List.forall_mem_nil _,
        @WritesElement.tagged name attributes _ _ hparts,
        not_significant_of_run rfl rfl hok⟩
      simp [hevent, hname]

end Outside

end Assembly

/-! ## Whole texts -/

/-- A text is accepted exactly when it is read to its end and its events hold one element, and then
its document is the one of that element. -/
theorem ofMarkup_eq_ok_iff {options : ReadOptions} {text : List Char} {doc : Document} :
    Document.ofMarkup options text = .ok doc ↔
      (transcript text).failure = none ∧
        ∃ p, HoldsElement ((transcript text).events.map (·.event)) p ∧
          doc = p.document options := by
  constructor
  · intro h
    obtain ⟨a, hrun, h⟩ := exists_of_bind_eq_ok h
    split at h
    · cases h
    · next hfailure =>
      refine ⟨hfailure, ?_⟩
      rw [Assembly.finish] at h
      split at h
      · cases h
      · cases h
      · next root hopened hroot =>
        obtain ⟨p, hp⟩ := Assembly.exists_holdsElement_of_run hrun hopened hroot
        rw [Assembly.run_of_holdsElement hp] at hrun
        cases hrun
        cases hroot
        cases h
        exact ⟨p, hp, rfl⟩
  · rintro ⟨hfailure, p, hp, rfl⟩
    rw [Document.ofMarkup]
    simp only [Assembly.run_of_holdsElement hp, hfailure]
    rfl

/-- A text is accepted exactly when it is read to its end and the events that count form one
element. Its document is then the one built by recursion on the parts of that element: the element
is the document element, the nodes are numbered as they stand in the text, and all others are below
it. -/
theorem ofMarkup_builds_element (options : ReadOptions) (text : List Char) :
    ((∃ doc, Document.ofMarkup options text = .ok doc) ↔
      (transcript text).failure = none ∧
        FormsElement (((transcript text).events.map (·.event)).filter isSignificant)) ∧
    (∀ doc, Document.ofMarkup options text = .ok doc ↔
      (transcript text).failure = none ∧
        ∃ p, HoldsElement ((transcript text).events.map (·.event)) p ∧
          doc = p.document options) ∧
    ∀ doc, Document.ofMarkup options text = .ok doc →
      doc.documentElement = some 0 ∧ doc.parent? 0 = none ∧
        doc.preorder 0 = List.range doc.size ∧
        ∀ id, 0 < id → id < doc.size → doc.Ancestor 0 id := by
  refine ⟨?_, fun doc => ofMarkup_eq_ok_iff, ?_⟩
  · rw [formsElement_iff]
    constructor
    · rintro ⟨doc, hdoc⟩
      obtain ⟨hfailure, p, hp, -⟩ := ofMarkup_eq_ok_iff.1 hdoc
      exact ⟨hfailure, p, hp⟩
    · rintro ⟨hfailure, p, hp⟩
      exact ⟨_, ofMarkup_eq_ok_iff.2 ⟨hfailure, p, hp, rfl⟩⟩
  · intro doc hdoc
    have hwf := Document.wellFormed_of_ofMarkup hdoc
    obtain ⟨-, p, ⟨before, inside, after, -, -, hinside, -⟩, rfl⟩ := ofMarkup_eq_ok_iff.1 hdoc
    obtain ⟨name, attributes, parts, rfl⟩ := hinside.eq_element
    have hwalk := Part.preorder_document options name attributes parts
    rw [Part.size_document]
    refine ⟨rfl, rfl, hwalk, ?_⟩
    intro id hid hlt
    -- the walk of the document element meets every node
    have hmem : id ∈ ((Part.element name attributes parts).document options).preorder 0 := by
      rw [hwalk]
      exact List.mem_range.2 hlt
    have hzero : 0 < ((Part.element name attributes parts).document options).size := by
      rw [Part.size_document]
      exact Nat.lt_of_le_of_lt (Nat.zero_le _) hlt
    rcases (hwf.mem_preorder_iff hzero).1 hmem with rfl | hbelow
    · exact absurd hid (Nat.lt_irrefl _)
    · exact hbelow

example :
    (Part.element "a" []
        [.text "x", .comment "c", .element "b" [] [.cdata "z"], .text "y"]).document ⟨true, false⟩ =
      ⟨#[⟨.element "a" [] [1, 2], some "xy", none⟩, ⟨.comment, some "c", some 0⟩,
        ⟨.element "b" [] [], some "z", some 0⟩], some 0⟩ := by
  decide

end MarkupPath.Tree
