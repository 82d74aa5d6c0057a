import MarkupPath.Proofs.Markup.Relocation

/-!
# Where a document type declaration ends

The reader counts square brackets and looks for the first `>` outside them. So it takes a
declaration as a whole exactly if the text in it is `Enclosed`: every `>` is in brackets, which are
balanced but for closing ones too many (`splitDoctype?_eq_some_iff`). Quotes mean nothing to the
reader. In a `Declaration` they delimit literals, in which brackets and `>` mean nothing, so it is
taken as a whole if each literal is enclosed on its own (`Declaration.enclosed`).
-/

set_option autoImplicit false

namespace MarkupPath.Markup

open MarkupPath.Text

/-! ## Texts of declarations -/

/-- The document type declaration with a text in it. -/
def doctypeText (content : List Char) : List Char := "<!DOCTYPE".toList ++ (content ++ ['>'])

theorem doctypeText_eq (content : List Char) :
    doctypeText content = "<!DOCTYPE".toList ++ (content ++ ['>']) := rfl

theorem doctypeText_append (content text : List Char) :
    doctypeText content ++ text = "<!DOCTYPE".toList ++ (content ++ '>' :: text) := by
  rw [doctypeText_eq, List.append_assoc, List.append_assoc, List.singleton_append]

/-- Text in brackets or outside, with balanced brackets in it. Outside, a `>` has to be in brackets,
and a closing bracket may be one too many. -/
inductive Enclosed : Bool → List Char → Prop where
  | nil (inside : Bool) : Enclosed inside []
  | char {inside : Bool} {c : Char} {rest : List Char} : c ≠ '[' → c ≠ ']' →
      (c = '>' → inside = true) → Enclosed inside rest → Enclosed inside (c :: rest)
  | brackets {inside : Bool} {subset rest : List Char} : Enclosed true subset →
      Enclosed inside rest → Enclosed inside ('[' :: subset ++ ']' :: rest)
  | stray {rest : List Char} : Enclosed false rest → Enclosed false (']' :: rest)

/-- Text in brackets or outside, with literals between quotes of one kind and, apart from these,
with balanced brackets and each `>` in brackets. Literals may be restricted. -/
inductive Declaration (literal : Bool → List Char → Prop) : Bool → List Char → Prop where
  | nil (inside : Bool) : Declaration literal inside []
  | char {inside : Bool} {c : Char} {rest : List Char} : c ∉ ['"', '\'', '[', ']'] →
      (c = '>' → inside = true) → Declaration literal inside rest →
      Declaration literal inside (c :: rest)
  | quoted {inside : Bool} {quote : Char} {body rest : List Char} : quote ∈ ['"', '\''] →
      quote ∉ body → literal inside body → Declaration literal inside rest →
      Declaration literal inside (quote :: body ++ quote :: rest)
  | brackets {inside : Bool} {subset rest : List Char} : Declaration literal true subset →
      Declaration literal inside rest → Declaration literal inside ('[' :: subset ++ ']' :: rest)

theorem Enclosed.append {inside : Bool} {first second : List Char} (h : Enclosed inside first)
    (h' : Enclosed inside second) : Enclosed inside (first ++ second) := by
  induction h with
  | nil => exact h'
  | char hopen hclose hend _ ih => exact .char hopen hclose hend (ih h')
  | brackets hsubset _ _ ih =>
    rw [List.append_assoc]
    exact .brackets hsubset (ih h')
  | stray _ ih => exact .stray (ih h')

/-- A character of a declaration that neither quotes nor brackets anything, nor ends it. -/
def isPlain (inside : Bool) (c : Char) : Bool :=
  (['"', '\'', '[', ']'].all (c != ·)) && (c != '>' || inside)

theorem Declaration.plain {literal : Bool → List Char → Prop} {inside : Bool}
    {content rest : List Char} (h : Declaration literal inside rest)
    (hcontent : content.all (isPlain inside) = true) :
    Declaration literal inside (content ++ rest) := by
  induction content with
  | nil => exact h
  | cons c content ih =>
    rw [List.all_cons, Bool.and_eq_true, isPlain, Bool.and_eq_true] at hcontent
    obtain ⟨⟨hmark, hend⟩, hcontent⟩ := hcontent
    exact .char (by simpa using hmark) (fun hc => by simpa [hc] using hend) (ih hcontent)

/-- Literals that are enclosed on their own do not matter to the brackets around them. -/
theorem Declaration.enclosed {inside : Bool} {content : List Char}
    (h : Declaration Enclosed inside content) : Enclosed inside content := by
  induction h with
  | nil inside => exact .nil inside
  | char hc hend _ ih =>
    simp only [List.mem_cons, not_or] at hc
    exact .char hc.2.2.1 hc.2.2.2.1 hend ih
  | @quoted inside quote body rest hquote _ hbody _ ih =>
    -- a quote is one character of text, before the literal and behind it
    have hplain : quote ≠ '[' ∧ quote ≠ ']' ∧ quote ≠ '>' := by
      simp only [List.mem_cons, List.not_mem_nil, or_false] at hquote
      rcases hquote with rfl | rfl <;> decide
    have hmark : ∀ {text : List Char}, Enclosed inside text → Enclosed inside (quote :: text) :=
      fun htext => .char hplain.1 hplain.2.1 (fun hend => absurd hend hplain.2.2) htext
    exact hmark (hbody.append (hmark ih))
  | brackets _ _ ihsubset ih => exact .brackets ihsubset ih

/-! ## What the reader takes -/

/-- Text behind so many opening brackets that are not closed before it. -/
inductive Closes : Nat → List Char → Prop where
  | outside {content : List Char} : Enclosed false content → Closes 0 content
  | inside {depth : Nat} {subset rest : List Char} : Enclosed true subset → Closes depth rest →
      Closes (depth + 1) (subset ++ ']' :: rest)

namespace Closes

theorem char {depth : Nat} {c : Char} {rest : List Char} (h : Closes depth rest) (hopen : c ≠ '[')
    (hclose : c ≠ ']') (hend : c = '>' → depth ≠ 0) : Closes depth (c :: rest) := by
  cases h with
  | outside h => exact .outside (.char hopen hclose (fun hc => absurd rfl (hend hc)) h)
  | inside hsubset h => exact .inside (.char hopen hclose (fun _ => rfl) hsubset) h

theorem closing {depth : Nat} {rest : List Char} (h : Closes (depth - 1) rest) :
    Closes depth (']' :: rest) := by
  cases depth with
  | zero =>
    cases h with
    | outside h => exact .outside (.stray h)
  | succ depth => exact .inside (.nil true) h

theorem opening {depth : Nat} {rest : List Char} (h : Closes (depth + 1) rest) :
    Closes depth ('[' :: rest) := by
  cases h with
  | @inside _ subset rest hsubset h =>
    cases h with
    | outside h => exact .outside (.brackets hsubset h)
    | @inside _ subset' rest hsubset' h =>
      have hwhole := Closes.inside (.brackets hsubset hsubset') h
      rwa [List.append_assoc] at hwhole

end Closes

namespace Event

section

variable (depth : Nat) (rest : List Char)

theorem splitDoctype?_open : splitDoctype? depth ('[' :: rest) =
    (splitDoctype? (depth + 1) rest).map (Prod.map ('[' :: ·) id) := rfl

theorem splitDoctype?_close : splitDoctype? depth (']' :: rest) =
    (splitDoctype? (depth - 1) rest).map (Prod.map (']' :: ·) id) := rfl

theorem splitDoctype?_char {c : Char} (hopen : c ≠ '[') (hclose : c ≠ ']')
    (hend : c = '>' → depth ≠ 0) : splitDoctype? depth (c :: rest) =
      (splitDoctype? depth rest).map (Prod.map (c :: ·) id) := by
  have hgoes : ¬ (c == '>' && depth == 0) = true := by simpa using hend
  simp only [splitDoctype?, if_neg hgoes, beq_iff_eq, if_neg hopen, if_neg hclose]
  rfl

end

/-- Enclosed text is passed over, and behind it as many brackets are open as before it. -/
theorem splitDoctype?_append {inside : Bool} {content : List Char} (h : Enclosed inside content)
    {depth : Nat} (hdepth : inside = true ↔ depth ≠ 0) (rest : List Char) :
    splitDoctype? depth (content ++ rest) =
      (splitDoctype? depth rest).map (Prod.map (content ++ ·) id) := by
  induction h generalizing depth rest with
  | nil =>
    rw [List.nil_append]
    cases splitDoctype? depth rest <;> rfl
  | char hopen hclose hend _ ih =>
    rw [List.cons_append, splitDoctype?_char _ _ hopen hclose fun hc => hdepth.1 (hend hc),
      ih hdepth, Option.map_map]
    rfl
  | brackets _ _ ihsubset ih =>
    rw [List.append_assoc, List.cons_append, splitDoctype?_open, ihsubset (by simp),
      List.cons_append, splitDoctype?_close, Nat.add_sub_cancel, ih hdepth]
    simp only [Option.map_map]
    refine congrArg (Option.map · _) (funext fun halves => ?_)
    simp [Prod.map]
  | stray _ ih =>
    obtain rfl : depth = 0 := by simpa using hdepth
    rw [List.cons_append, splitDoctype?_close, ih hdepth, Option.map_map]
    rfl

/-- What is taken ends with a `>`, and the text before that closes the brackets that were open. -/
theorem closes_of_splitDoctype? {depth : Nat} {text taken rest : List Char}
    (h : splitDoctype? depth text = some (taken, rest)) :
    ∃ content, taken = content ++ ['>'] ∧ Closes depth content := by
  induction text generalizing depth taken with
  | nil => cases h
  | cons c text ih =>
    -- what is taken behind this character closes one bracket more, one less or as many
    have hbehind : ∀ {depth' : Nat}, (splitDoctype? depth' text).map (Prod.map (c :: ·) id) =
        some (taken, rest) → ∃ content, taken = c :: content ++ ['>'] ∧ Closes depth' content := by
      intro depth' hmap
      obtain ⟨⟨taken', rest'⟩, hsplit, heq⟩ := Option.map_eq_some_iff.1 hmap
      cases heq
      obtain ⟨content, rfl, hcloses⟩ := ih hsplit
      exact ⟨content, rfl, hcloses⟩
    by_cases hopen : c = '['
    · subst hopen
      obtain ⟨content, rfl, hcloses⟩ := hbehind h
      exact ⟨_, rfl, hcloses.opening⟩
    · by_cases hclose : c = ']'
      · subst hclose
        obtain ⟨content, rfl, hcloses⟩ := hbehind h
        exact ⟨_, rfl, hcloses.closing⟩
      · by_cases hend : c = '>' ∧ depth = 0
        · obtain ⟨rfl, rfl⟩ := hend
          cases h
          exact ⟨[], rfl, .outside (.nil false)⟩
        · have hgoes : c = '>' → depth ≠ 0 := fun hc hzero => hend ⟨hc, hzero⟩
          rw [splitDoctype?_char _ _ hopen hclose hgoes] at h
          obtain ⟨content, rfl, hcloses⟩ := hbehind h
          exact ⟨_, rfl, hcloses.char hopen hclose hgoes⟩

/-- A declaration is taken as a whole exactly if the text in it is enclosed. -/
theorem splitDoctype?_eq_some_iff {content rest : List Char} :
    splitDoctype? 0 (content ++ '>' :: rest) = some (content ++ ['>'], rest) ↔
      Enclosed false content := by
  constructor
  · intro h
    obtain ⟨content', htaken, hcloses⟩ := closes_of_splitDoctype? h
    cases List.append_cancel_right htaken
    cases hcloses with
    | outside h => exact h
  · intro h
    rw [splitDoctype?_append h (by simp)]
    rfl

/-- In front of any text the declaration is read, and the text is left. -/
theorem read_doctypeText {content : List Char} (h : Enclosed false content) (text : List Char) :
    ∃ event, read (Place.start (doctypeText content ++ text)) =
      .ok (.doctype event, (Place.start text).shift (byteLength (doctypeText content))) := by
  generalize hp : Place.start (doctypeText content ++ text) = p
  have hrest : p.rest = "<!DOCTYPE".toList ++ (content ++ '>' :: text) := by
    rw [← hp, ← doctypeText_append]
    rfl
  have hopen : opening? p =
      some (.doctype, p.past "<!DOCTYPE".toList (content ++ '>' :: text)) := by
    simp [opening?, openings, Place.after?, Text.after?, hrest]
  refine ⟨"<!DOCTYPE" ++ String.ofList (content ++ ['>']), ?_⟩
  rw [read, hopen]
  dsimp only [Place.past]
  rw [readDoctype, splitDoctype?_eq_some_iff.2 h, ← hp]
  simp only [Place.past, Place.start, Place.shift, doctypeText_eq, byteLength_append,
    Nat.add_assoc]

end Event

instance (content : List Char) : Decidable (Enclosed false content) :=
  decidable_of_iff (Event.splitDoctype? 0 (content ++ ['>']) = some (content ++ ['>'], []))
    Event.splitDoctype?_eq_some_iff

end MarkupPath.Markup
