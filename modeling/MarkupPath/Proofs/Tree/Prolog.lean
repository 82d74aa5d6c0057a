import MarkupPath.Proofs.Markup.Doctype
import MarkupPath.Tree.Assembly
import Mathlib.Control.Monad.Basic

/-!
# What stands in front of a document

A document under construction refers to the text only by the places of its open tags, so events
further on build the same document (`Assembly.run_shift`). An event that builds nothing may
therefore stand in front of a text: the rest gives the same document, or the same fault further on
(`ofMarkup_of_read`). Document type declarations are such events, as far as the reader takes them as
a whole (`ofMarkup_doctypeText`); with brackets or a `>` in literals it may not
(`not_ofMarkup_declaration`).
-/

set_option autoImplicit false

namespace MarkupPath.Tree

open MarkupPath.Markup MarkupPath.Text

/-! ## Construction further on -/

namespace Assembly

variable (count : Nat)

/-- The construction with its open tags further on. -/
def shift (a : Assembly) : Assembly := { a with opened := a.opened.map (Prod.map id (· + count)) }

theorem addElement_shift (a : Assembly) (spec : ElementSpec) (offset : Nat) :
    (a.shift count).addElement spec (offset + count) =
      relocate count (shift count) (a.addElement spec offset) := by
  obtain ⟨doc, opened, root⟩ := a
  cases opened <;> cases root <;> rfl

/-- An event further on is added as the event itself. -/
theorem step_shift (options : ReadOptions) (a : Assembly) (e : Located) :
    (a.shift count).step options (e.shift count) =
      relocate count (shift count) (a.step options e) := by
  obtain ⟨event, start, stop⟩ := e
  cases event with
  | startTag name attributes =>
    exact (congrArg (· >>= _) (a.addElement_shift count ⟨name, attributes, none⟩ start)).trans
      (relocate_bind count _ fun _ => rfl)
  | emptyTag name attributes => exact a.addElement_shift count ⟨name, attributes, none⟩ start
  | text content =>
    obtain ⟨doc, opened, root⟩ := a
    simp only [step, Located.shift]
    split
    · rfl
    · cases opened <;> rfl
  | endTag content | cdata content | comment content =>
    -- these look at the innermost open tag first
    obtain ⟨doc, opened, root⟩ := a
    cases opened with
    | nil => rfl
    | cons tag opened =>
      simp only [step, shift, Located.shift, List.map_cons, Prod.map, id]
      split <;> rfl
  | instruction _ _ | declaration | doctype _ => rfl

theorem run_shift (options : ReadOptions) (a : Assembly) (events : List Located) :
    (events.map (Located.shift count)).foldlM (step options) (a.shift count) =
      relocate count (shift count) (events.foldlM (step options) a) := by
  induction events generalizing a with
  | nil => rfl
  | cons e events ih =>
    rw [List.map_cons, List.foldlM_cons, List.foldlM_cons, step_shift]
    exact relocate_bind count _ ih

theorem finish_shift (a : Assembly) (stop : Nat) :
    (a.shift count).finish (count + stop) = relocate count id (a.finish stop) := by
  obtain ⟨doc, opened, root⟩ := a
  rw [Nat.add_comm]
  cases opened <;> cases root <;> rfl

end Assembly

/-- An event that builds nothing leaves the document of the text behind it, or the fault there. -/
theorem ofMarkup_of_read {options : ReadOptions} {first text : List Char} {event : Event}
    (hne : first ≠ []) (hread : Event.read (Place.start (first ++ text)) =
      .ok (event, (Place.start text).shift (byteLength first)))
    (hstep : Assembly.start.step options ⟨event, 0, byteLength first⟩ = .ok Assembly.start) :
    Document.ofMarkup options (first ++ text) =
      relocate (byteLength first) id (Document.ofMarkup options text) := by
  rw [Document.ofMarkup, Document.ofMarkup, transcript_of_read hne hread, List.foldlM_cons, hstep,
    byteLength_append]
  -- what is left is the run over the events of the text alone, further on, and its end
  obtain ⟨events, failure⟩ := transcript text
  refine (congrArg (· >>= _) (Assembly.start.run_shift (byteLength first) options events)).trans
    (relocate_bind _ _ fun a => ?_)
  cases failure with
  | none => exact a.finish_shift _ _
  | some e => rfl

/-! ## Document type declarations -/

/-- A document type declaration has no effect on the document, whatever options and text: the text
behind it gives the same document, or the same fault further on. This holds of the declarations
whose text is enclosed, with the brackets in literals counted. -/
theorem ofMarkup_doctypeText (options : ReadOptions) {content : List Char}
    (h : Enclosed false content) (text : List Char) :
    Document.ofMarkup options (doctypeText content ++ text) =
      relocate (byteLength (doctypeText content)) id (Document.ofMarkup options text) := by
  obtain ⟨event, hread⟩ := Event.read_doctypeText h text
  refine ofMarkup_of_read ?_ hread rfl
  rw [doctypeText_eq]
  exact List.append_ne_nil_of_left_ne_nil (by decide) _

/-- A literal with an apostrophe and with brackets, and a `>` in it and in the internal subset. -/
theorem ofMarkup_doctypeText_of_literal :
    let content := " r SYSTEM ".toList ++
      ('"' :: "it's [a>b]".toList ++ '"' :: ('[' :: "<!ELEMENT r ANY>".toList ++ [']']))
    Declaration Enclosed false content ∧
      Document.ofMarkup .default (doctypeText content ++ "<r/>".toList) =
        .ok ⟨#[⟨.element "r" [] [], none, none⟩], some 0⟩ := by
  intro content
  have hsubset : Declaration Enclosed true "<!ELEMENT r ANY>".toList := by
    rw [← List.append_nil "<!ELEMENT r ANY>".toList]
    exact (Declaration.nil true).plain (by decide +kernel)
  have hcontent : Declaration Enclosed false content := by
    refine (Declaration.quoted (by decide) (by decide +kernel) ?_
      (.brackets hsubset (.nil false))).plain (by decide +kernel)
    decide +kernel
  have hread : Document.ofMarkup .default "<r/>".toList =
      .ok ⟨#[⟨.element "r" [] [], none, none⟩], some 0⟩ := by decide +kernel
  refine ⟨hcontent, ?_⟩
  rw [ofMarkup_doctypeText .default hcontent.enclosed, hread]
  rfl

/-- A `>` in a literal ends the declaration early, and the rest of it is text outside the root. -/
theorem not_ofMarkup_declaration :
    ¬ ∀ (options : ReadOptions) (content text : List Char) (doc : Document),
      Declaration (fun _ _ => True) false content → Document.ofMarkup options text = .ok doc →
        Document.ofMarkup options (doctypeText content ++ text) = .ok doc := by
  intro h
  have hread : Document.ofMarkup .default "<r/>".toList =
      .ok ⟨#[⟨.element "r" [] [], none, none⟩], some 0⟩ := by decide +kernel
  have hcontent : Declaration (fun _ _ => True) false
      (" r SYSTEM ".toList ++ ('"' :: "a>b".toList ++ ['"'])) :=
    (Declaration.quoted (by decide) (by decide +kernel) trivial (.nil false)).plain
      (by decide +kernel)
  have hrefused : Document.ofMarkup .default (doctypeText
      (" r SYSTEM ".toList ++ ('"' :: "a>b".toList ++ ['"'])) ++ "<r/>".toList) =
        .error ⟨.textOutside, 22⟩ := by decide +kernel
  cases hrefused.symm.trans (h _ _ _ _ hcontent hread)

end MarkupPath.Tree
