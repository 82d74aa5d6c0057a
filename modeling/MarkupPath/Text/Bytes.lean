import MarkupPath.Text.Cut

/-!
# Texts as bytes

A program that keeps a text in UTF-8 searches its bytes and cuts it at byte positions. A cut inside
a character gives no text: `isSome_slice?_iff` says that there is a text between two positions if
they are in order and both are boundaries, and else none.
-/

set_option autoImplicit false

namespace MarkupPath.Text

/-- The bytes of a text in UTF-8. -/
def utf8 (text : List Char) : List UInt8 := text.flatMap String.utf8EncodeChar

/-- The text before a byte and the text from it on, unless the byte is inside a character or behind
the end. -/
def splitAt? : Nat → List Char → Option (List Char × List Char)
  | 0, text => some ([], text)
  | _ + 1, [] => none
  | n + 1, c :: rest =>
      if c.utf8Size ≤ n + 1 then
        (splitAt? (n + 1 - c.utf8Size) rest).map fun halves => (c :: halves.1, halves.2)
      else none

/-- The text between two bytes, if they are in order and both on a boundary. -/
def slice? (text : List Char) (start stop : Nat) : Option (List Char) :=
  if start ≤ stop then do
    let (_, rest) ← splitAt? start text
    let (inside, _) ← splitAt? (stop - start) rest
    return inside
  else none

/-- A byte before or behind a character of the text. -/
def IsBoundary (text : List Char) (n : Nat) : Prop :=
  ∃ before after, text = before ++ after ∧ byteLength before = n

theorem IsBoundary.le {text : List Char} {n : Nat} (h : IsBoundary text n) :
    n ≤ byteLength text := by
  obtain ⟨before, after, rfl, rfl⟩ := h
  rw [byteLength_append]
  exact Nat.le_add_right _ _

theorem splitAt?_byteLength (before after : List Char) :
    splitAt? (byteLength before) (before ++ after) = some (before, after) := by
  induction before with
  | nil => rw [byteLength_nil, splitAt?, List.nil_append]
  | cons c before ih =>
      have hpos := c.utf8Size_pos
      obtain ⟨n, hn⟩ := Nat.exists_eq_add_one_of_ne_zero
        (Nat.ne_of_gt (Nat.add_pos_left hpos (byteLength before)))
      rw [byteLength_cons, List.cons_append, hn, splitAt?, ← hn, if_pos (Nat.le_add_right _ _),
        Nat.add_sub_cancel_left, ih, Option.map_some]

/-- A text is split into two that make it up again. -/
theorem splitAt?_eq_some {n : Nat} {text before after : List Char}
    (h : splitAt? n text = some (before, after)) :
    text = before ++ after ∧ byteLength before = n := by
  fun_induction splitAt? n text generalizing before after with
  | case1 text =>
      cases h
      exact ⟨rfl, rfl⟩
  | case2 n => cases h
  | case3 n c rest hsize ih =>
      obtain ⟨⟨first, second⟩, hsplit, heq⟩ := Option.map_eq_some_iff.1 h
      cases heq
      obtain ⟨rfl, hlength⟩ := ih hsplit
      exact ⟨rfl, by rw [byteLength_cons, hlength, Nat.add_sub_cancel' hsize]⟩
  | case4 n c rest hsize => cases h

theorem slice?_byteLength (before inside after : List Char) :
    slice? (before ++ (inside ++ after)) (byteLength before)
      (byteLength before + byteLength inside) = some inside := by
  rw [slice?, if_pos (Nat.le_add_right _ _), splitAt?_byteLength, Nat.add_sub_cancel_left]
  simp only [Option.bind_eq_bind, Option.bind_some, splitAt?_byteLength]
  rfl

/-- Of two cuts of a text the one at the smaller byte comes first. -/
theorem exists_between {first second before after : List Char}
    (h : first ++ second = before ++ after) (hle : byteLength first ≤ byteLength before) :
    ∃ inside, before = first ++ inside := by
  rcases List.append_eq_append_iff.1 h with ⟨inside, hinside, -⟩ | ⟨inside, hinside, -⟩
  · exact ⟨inside, hinside⟩
  · cases inside with
    | nil => exact ⟨[], by rw [hinside, List.append_nil, List.append_nil]⟩
    | cons c inside =>
        have hpos := c.utf8Size_pos
        rw [hinside, byteLength_append, byteLength_cons] at hle
        omega

/-- There is a text between two boundaries in order, and between no other positions. -/
theorem isSome_slice?_iff {text : List Char} {start stop : Nat} :
    (slice? text start stop).isSome ↔
      start ≤ stop ∧ IsBoundary text start ∧ IsBoundary text stop := by
  constructor
  · intro h
    obtain ⟨inside, hslice⟩ := Option.isSome_iff_exists.1 h
    rw [slice?] at hslice
    split at hslice
    · next hle =>
        obtain ⟨⟨before, rest⟩, hbefore, hrest⟩ := Option.bind_eq_some_iff.1 hslice
        obtain ⟨⟨inside, after⟩, hinside, -⟩ := Option.bind_eq_some_iff.1 hrest
        obtain ⟨rfl, rfl⟩ := splitAt?_eq_some hbefore
        obtain ⟨rfl, hlength⟩ := splitAt?_eq_some hinside
        refine ⟨hle, ⟨before, _, rfl, rfl⟩, before ++ inside, after, ?_, ?_⟩
        · rw [List.append_assoc]
        · rw [byteLength_append, hlength, Nat.add_sub_cancel' hle]
    · cases hslice
  · rintro ⟨hle, ⟨before, rest, rfl, rfl⟩, upto, after, htext, rfl⟩
    obtain ⟨inside, rfl⟩ := exists_between htext hle
    rw [List.append_assoc] at htext
    rw [htext, byteLength_append, slice?_byteLength]
    rfl

example : slice? ['é'] 0 1 = none := by decide

/-! ## Searching bytes -/

/-- Number of bytes before the first occurrence of `mark`. -/
def indexOf? (mark : List UInt8) : List UInt8 → Option Nat
  | [] => if mark.isEmpty then some 0 else none
  | b :: rest =>
      if mark.isPrefixOf (b :: rest) then some 0 else (indexOf? mark rest).map (· + 1)

/-- Number of bytes that a machine with states in `σ` takes before it stops. -/
def stopIndex? {σ : Type} (step : σ → UInt8 → Option σ) : σ → List UInt8 → Option Nat
  | _, [] => none
  | s, b :: rest =>
      match step s b with
      | none => some 0
      | some next => (stopIndex? step next rest).map (· + 1)

end MarkupPath.Text
