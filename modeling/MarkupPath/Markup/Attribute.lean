import MarkupPath.Markup.Name
import MarkupPath.Markup.Reference

/-!
# Attribute lists

The text between the name of an element and the end of its tag is a list of attributes
`name="value"`. `Attribute.list` reads it: names are pairwise distinct, values stand in either kind
of quotes, hold no `<` and have their references expanded. `length_of_read` says that each attribute
takes text, so that reading ends.
-/

set_option autoImplicit false

namespace MarkupPath.Markup

open MarkupPath.Text

/-- An attribute: its name as written and its value. -/
structure Attribute where
  name : String
  value : String
  deriving DecidableEq, Repr

/-- Value of the first attribute of a name. -/
def Attribute.lookup (attributes : List Attribute) (name : String) : Option String :=
  (attributes.find? fun a => a.name == name).map (·.value)

/-- What can be wrong in a list of attributes. -/
inductive AttributeFault where
  | name
  | value
  | quote
  | tagInValue
  | openQuote
  | duplicate
  deriving DecidableEq, Repr

/-- The fault in words. -/
def AttributeFault.message : AttributeFault → String
  | .name => "attribute name must start with a letter, underscore, or colon"
  | .value => "attribute value required"
  | .quote => "attribute value must be quoted"
  | .tagInValue => "attribute value cannot contain '<'"
  | .openQuote => "attribute value has mismatched quotes"
  | .duplicate => "duplicate attribute"

/-- A fault and the byte at which it shows. -/
structure AttributeError where
  fault : AttributeFault
  offset : Nat
  deriving DecidableEq, Repr

namespace Attribute

/-- The quoted value that stands at `p`, without its quotes, and the place behind it. -/
def readValue (p : Place) : Except AttributeError (List Char × Place) :=
  match p.rest with
  | [] => .error ⟨.quote, p.offset⟩
  | quote :: text =>
      if quote == '"' || quote == '\'' then
        let value := text.takeWhile fun c => c != quote && c != '<'
        match text.dropWhile fun c => c != quote && c != '<' with
        | [] => .error ⟨.openQuote, p.offset⟩
        | stop :: rest =>
            if stop == quote then .ok (value, p.past (quote :: value ++ [stop]) rest)
            else .error ⟨.tagInValue, (p.past (quote :: value) []).offset⟩
      else .error ⟨.quote, p.offset⟩

/-- The attribute that stands at `p`, with its value as written, and the place behind it. -/
def read (p : Place) : Except AttributeError (List Char × List Char × Place) :=
  match Name.read? p with
  | none => .error ⟨.name, p.offset⟩
  | some (name, q) =>
      let q := q.skipWhile isMarkupBlank
      match q.after? ['='] with
      | none => .error ⟨.value, q.offset⟩
      | some r =>
          match readValue (r.skipWhile isMarkupBlank) with
          | .error e => .error e
          | .ok (value, s) => .ok (name, value, s)

/-- A value is passed with the quotation marks around it. -/
theorem before_of_readValue {p q : Place} {value : List Char} (h : readValue p = .ok (value, q)) :
    ∃ quote, p.Before (quote :: value ++ [quote]) q := by
  unfold readValue at h
  split at h
  · cases h
  · next quote text hrest =>
      split at h
      · simp only at h
        split at h
        · cases h
        · next stop rest hdrop =>
            split at h
            · next hstop =>
                cases h
                refine ⟨quote, ?_⟩
                rw [← eq_of_beq hstop]
                refine Place.before_past ?_
                rw [hrest, eq_of_beq hstop]
                conv => lhs; rw [← @List.takeWhile_append_dropWhile _ _ text, hdrop]
                simp [eq_of_beq hstop]
            · cases h
      · cases h

/-- An attribute is passed from its name on, which is not empty. -/
theorem before_of_read {p q : Place} {name value : List Char}
    (h : read p = .ok (name, value, q)) :
    ∃ taken, p.Before (name ++ taken) q ∧ name ≠ [] := by
  unfold read at h
  split at h
  · cases h
  · next hname =>
      simp only at h
      split at h
      · cases h
      · next hafter =>
          split at h
          · cases h
          · next hvalue =>
              cases h
              obtain ⟨_, hread⟩ := before_of_readValue hvalue
              exact ⟨_, (Name.before_of_read? hname).trans ((Place.before_skipWhile _ _).trans
                ((Place.before_of_after? hafter).trans ((Place.before_skipWhile _ _).trans hread))),
                Name.ne_nil_of_read? hname⟩

theorem length_of_read {p q : Place} {name value : List Char}
    (h : read p = .ok (name, value, q)) : q.rest.length < p.rest.length := by
  obtain ⟨taken, hbefore, hname⟩ := before_of_read h
  have := hbefore.length
  have := List.length_pos_iff.2 hname
  simp only [List.length_append] at *
  omega

/-- The attributes from `p` to the end of the text, behind those already read. -/
def readAll (known : List Attribute) (p : Place) : Except AttributeError (List Attribute) :=
  let q := p.skipWhile isMarkupBlank
  if q.rest.isEmpty then .ok known
  else
    match _h : read q with
    | .error e => .error e
    | .ok (name, value, r) =>
        let name := String.ofList name
        if known.any fun a => a.name == name then .error ⟨.duplicate, q.offset⟩
        else readAll (known ++ [⟨name, String.ofList (Reference.expand value)⟩]) r
termination_by p.rest.length
decreasing_by
  have : r.rest.length < (p.skipWhile isMarkupBlank).rest.length := length_of_read _h
  have := (Place.before_skipWhile isMarkupBlank p).length
  omega

/-- The attributes that a text lists. -/
def list (text : List Char) : Except AttributeError (List Attribute) :=
  readAll [] (Place.start text)

end Attribute

end MarkupPath.Markup
