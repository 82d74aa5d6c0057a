import MarkupPath.Proofs.Text.Cut
import MarkupPath.Text.Bytes
import Mathlib.Data.List.TakeWhile

/-!
# Searching bytes is searching characters

A character of ASCII is one byte, and no byte of another character is one of ASCII
(`beq_of_mem_utf8EncodeChar`). So what a search for ASCII finds among the bytes of a text is what it
finds among the characters: the first character outside a class (`findIdx?_utf8`), the first
occurrence of a mark (`indexOf?_utf8`), and the place where a machine stops that is told the same by
all bytes of a character (`stopIndex?_utf8_cons`).
-/

set_option autoImplicit false

namespace MarkupPath.Text

/-! ## Bytes of a text -/

@[simp] theorem utf8_nil : utf8 [] = [] := rfl

theorem utf8_cons (c : Char) (text : List Char) :
    utf8 (c :: text) = String.utf8EncodeChar c ++ utf8 text := List.flatMap_cons

theorem utf8_append (first second : List Char) :
    utf8 (first ++ second) = utf8 first ++ utf8 second :=
  List.flatMap_append

@[simp] theorem length_utf8 (text : List Char) : (utf8 text).length = byteLength text := by
  induction text with
  | nil => rfl
  | cons c text ih =>
      rw [utf8_cons, List.length_append, String.length_utf8EncodeChar, ih, byteLength_cons]

theorem drop_utf8_append (before after : List Char) :
    (utf8 (before ++ after)).drop (byteLength before) = utf8 after := by
  rw [utf8_append, ← length_utf8 before, List.drop_left]

theorem length_le_byteLength (text : List Char) : text.length ≤ byteLength text := by
  induction text with
  | nil => exact Nat.le_refl 0
  | cons c text ih =>
      have hpos := c.utf8Size_pos
      rw [List.length_cons, byteLength_cons]
      omega

theorem exists_utf8EncodeChar_eq_cons (c : Char) :
    ∃ b bytes, String.utf8EncodeChar c = b :: bytes := by
  refine List.exists_cons_of_ne_nil fun hnil => ?_
  have hlength := String.length_utf8EncodeChar c
  rw [hnil] at hlength
  exact Nat.ne_of_gt c.utf8Size_pos hlength.symm

/-- Before a position behind a character stands the last byte of that character. -/
theorem exists_getElem?_utf8_sub_one (before : List Char) (c : Char) (after : List Char) :
    ∃ b ∈ String.utf8EncodeChar c,
      (utf8 (before ++ [c] ++ after))[byteLength (before ++ [c]) - 1]? = some b := by
  obtain ⟨b, bytes, hbytes⟩ := exists_utf8EncodeChar_eq_cons c
  have hne : String.utf8EncodeChar c ≠ [] := hbytes ▸ List.cons_ne_nil b bytes
  refine ⟨_, List.getLast_mem hne, ?_⟩
  have hpos : byteLength (before ++ [c]) - 1 < (utf8 (before ++ [c])).length := by
    have hsize := c.utf8Size_pos
    rw [length_utf8, byteLength_append, byteLength_cons]
    omega
  rw [utf8_append, List.getElem?_append_left hpos, ← length_utf8, ← List.getLast?_eq_getElem?,
    utf8_append, utf8_cons, utf8_nil, List.append_nil, List.getLast?_append,
    List.getLast?_eq_some_getLast hne, Option.some_or]

/-! ## ASCII -/

section

variable {c d : Char} {b : UInt8}

theorem utf8Size_of_lt (h : c.toNat < 128) : c.utf8Size = 1 :=
  Char.utf8Size_eq_one_iff.2 (UInt32.le_iff_toNat_le.2 (Nat.le_of_lt_succ h))

theorem utf8EncodeChar_of_lt (h : c.toNat < 128) : String.utf8EncodeChar c = [c.toUInt8] :=
  String.utf8EncodeChar_eq_singleton (utf8Size_of_lt h)

theorem toUInt8_mem_of_lt (h : c.toNat < 128) : c.toUInt8 ∈ String.utf8EncodeChar c := by
  rw [utf8EncodeChar_of_lt h]
  exact List.mem_singleton_self _

theorem utf8_cons_of_lt (h : c.toNat < 128) (text : List Char) :
    utf8 (c :: text) = c.toUInt8 :: utf8 text := by
  rw [utf8_cons, utf8EncodeChar_of_lt h, List.singleton_append]

theorem getElem?_utf8_append_cons (h : c.toNat < 128) (before after : List Char) :
    (utf8 (before ++ c :: after))[byteLength before]? = some c.toUInt8 := by
  rw [← List.head?_drop, drop_utf8_append, utf8_cons_of_lt h, List.head?_cons]

theorem toNat_toUInt8_of_lt (h : c.toNat < 128) : c.toUInt8.toNat = c.toNat := by
  have hsmall : c.toNat < 2 ^ 8 := Nat.lt_trans h (by decide)
  exact Nat.mod_eq_of_lt hsmall

/-- Characters of ASCII are the same if their bytes are. -/
theorem toUInt8_inj (hc : c.toNat < 128) (hd : d.toNat < 128) :
    c.toUInt8 = d.toUInt8 ↔ c = d := by
  refine ⟨fun h => Char.toNat_inj.1 ?_, fun h => by rw [h]⟩
  rw [← toNat_toUInt8_of_lt hc, h, toNat_toUInt8_of_lt hd]

/-- The bytes of a character outside ASCII are. -/
theorem le_of_mem_utf8EncodeChar (h : 128 ≤ c.toNat) (hb : b ∈ String.utf8EncodeChar c) :
    128 ≤ b.toNat := by
  have hwide : ¬ c.val.toNat ≤ 127 := Nat.not_le.2 h
  rw [String.utf8EncodeChar] at hb
  simp only [if_neg hwide] at hb
  split at hb
  · simp only [List.mem_cons, List.not_mem_nil, or_false] at hb
    rcases hb with rfl | rfl <;> simp only [UInt8.toNat_ofNat'] <;> omega
  · split at hb <;> simp only [List.mem_cons, List.not_mem_nil, or_false] at hb
    · rcases hb with rfl | rfl | rfl <;> simp only [UInt8.toNat_ofNat'] <;> omega
    · rcases hb with rfl | rfl | rfl | rfl <;> simp only [UInt8.toNat_ofNat'] <;> omega

/-- Each byte of a character tells whether it is one of ASCII. -/
theorem beq_of_mem_utf8EncodeChar (hb : b ∈ String.utf8EncodeChar c) (hd : d.toNat < 128) :
    (b == d.toUInt8) = (c == d) := by
  rw [Bool.eq_iff_iff, beq_iff_eq, beq_iff_eq]
  rcases Nat.lt_or_ge c.toNat 128 with hc | hc
  · rw [utf8EncodeChar_of_lt hc, List.mem_singleton] at hb
    rw [hb, toUInt8_inj hc hd]
  · have hb := le_of_mem_utf8EncodeChar hc hb
    constructor
    · rintro rfl
      rw [toNat_toUInt8_of_lt hd] at hb
      exact absurd hb (Nat.not_le.2 hd)
    · rintro rfl
      exact absurd hc (Nat.not_le.2 hd)

theorem beq_eq_false_of_le (hc : 128 ≤ c.toNat) (hd : d.toNat < 128) : (c == d) = false :=
  beq_eq_false_iff_ne.2 fun h => Nat.not_lt.2 hc (h ▸ hd)

end

/-! ## Classes -/

section

variable {byte? byte?' : UInt8 → Bool} {class? class?' : Char → Bool} {d : Char}

/-- Each byte of a character tells whether the character is in a class. -/
def Tells (byte? : UInt8 → Bool) (class? : Char → Bool) : Prop :=
  ∀ c, ∀ b ∈ String.utf8EncodeChar c, byte? b = class? c

theorem tells_beq (hd : d.toNat < 128) : Tells (· == d.toUInt8) (· == d) :=
  fun _ _ hb => beq_of_mem_utf8EncodeChar hb hd

theorem Tells.or (h : Tells byte? class?) (h' : Tells byte?' class?') :
    Tells (fun b => byte? b || byte?' b) (fun c => class? c || class?' c) :=
  fun c b hb => congrArg₂ (· || ·) (h c b hb) (h' c b hb)

/-- The first byte in a class is the first one of a character in the class. -/
theorem findIdx?_utf8 (h : Tells byte? class?) (text : List Char) :
    (utf8 text).findIdx? byte? = (text.dropWhile fun c => !class? c).head?.map fun _ =>
      byteLength (text.takeWhile fun c => !class? c) := by
  induction text with
  | nil => rfl
  | cons c text ih =>
      rw [utf8_cons]
      cases hclass : class? c with
      | true =>
          obtain ⟨b, bytes, hbytes⟩ := exists_utf8EncodeChar_eq_cons c
          have hb : byte? b = true := (h c b (hbytes ▸ List.mem_cons_self)).trans hclass
          rw [hbytes, List.cons_append, List.findIdx?_cons, if_pos hb,
            List.dropWhile_cons_of_neg (by simp [hclass]),
            List.takeWhile_cons_of_neg (by simp [hclass])]
          rfl
      | false =>
          have hnone : (String.utf8EncodeChar c).findIdx? byte? = none :=
            List.findIdx?_eq_none_iff.2 fun b hb => (h c b hb).trans hclass
          rw [List.findIdx?_append, hnone, Option.none_or, ih, String.length_utf8EncodeChar,
            List.dropWhile_cons_of_pos (by simp [hclass]),
            List.takeWhile_cons_of_pos (by simp [hclass]), byteLength_cons, Option.map_map]
          exact congrArg (Option.map · _) (funext fun _ => Nat.add_comm _ _)

theorem findIdx?_eq_none (hd : d.toNat < 128) {text : List Char} (h : d ∉ text) :
    (utf8 text).findIdx? (· == d.toUInt8) = none := by
  have hall : (text.dropWhile fun c => !(c == d)) = [] :=
    List.dropWhile_eq_nil_iff.2 fun c hc => bne_iff_ne.2 fun heq => h (heq ▸ hc)
  rw [findIdx?_utf8 (tells_beq hd), hall]
  rfl

theorem findIdx?_append_cons (hd : d.toNat < 128) {before : List Char} (h : d ∉ before)
    (after : List Char) :
    (utf8 (before ++ d :: after)).findIdx? (· == d.toUInt8) = some (byteLength before) := by
  have hall : ∀ c ∈ before, (!(c == d)) = true := fun c hc => bne_iff_ne.2 fun heq => h (heq ▸ hc)
  have hstop : ∀ c ∈ (d :: after).head?, (!(c == d)) = false := by simp
  rw [findIdx?_utf8 (tells_beq hd), takeWhile_append_stop hall hstop,
    dropWhile_append_stop hall hstop]
  rfl

end

/-! ## Marks -/

/-- All characters are in ASCII. -/
def IsAscii (mark : List Char) : Prop := ∀ c ∈ mark, c.toNat < 128

instance : DecidablePred IsAscii := List.decidableBAll fun c : Char => c.toNat < 128

theorem isPrefixOf_utf8 {mark : List Char} (hmark : IsAscii mark) (text : List Char) :
    (utf8 mark).isPrefixOf (utf8 text) = (after? mark text).isSome := by
  induction mark generalizing text with
  | nil => simp [after?]
  | cons m mark ih =>
      obtain ⟨hm, hrest⟩ := List.forall_mem_cons.1 hmark
      rw [utf8_cons_of_lt hm]
      cases text with
      | nil => rfl
      | cons c text =>
          obtain ⟨b, bytes, hbytes⟩ := exists_utf8EncodeChar_eq_cons c
          have hb := beq_of_mem_utf8EncodeChar (hbytes ▸ List.mem_cons_self) hm
          rw [utf8_cons, hbytes, List.cons_append, List.isPrefixOf_cons_cons, Bool.beq_comm, hb,
            after?, Bool.beq_comm (a := m)]
          cases heq : c == m with
          | false => rfl
          | true =>
              -- the character is that of the mark, and so has no other byte
              rw [eq_of_beq heq, utf8EncodeChar_of_lt hm] at hbytes
              obtain ⟨-, rfl⟩ := List.cons.inj hbytes
              rw [List.nil_append, ih hrest]
              rfl

/-- No mark begins among the bytes of characters outside ASCII. -/
theorem indexOf?_append {m : Char} {mark : List Char} (hm : m.toNat < 128)
    {bytes : List UInt8} (hbytes : ∀ b ∈ bytes, (b == m.toUInt8) = false) (rest : List UInt8) :
    indexOf? (utf8 (m :: mark)) (bytes ++ rest) =
      (indexOf? (utf8 (m :: mark)) rest).map (· + bytes.length) := by
  induction bytes with
  | nil => simp
  | cons b bytes ih =>
      obtain ⟨hb, hlater⟩ := List.forall_mem_cons.1 hbytes
      have hprefix : (utf8 (m :: mark)).isPrefixOf (b :: (bytes ++ rest)) = false := by
        rw [utf8_cons_of_lt hm, List.isPrefixOf_cons_cons, Bool.beq_comm, hb, Bool.false_and]
      rw [List.cons_append, indexOf?, hprefix, if_neg Bool.false_ne_true, ih hlater,
        Option.map_map]
      rfl

/-- A mark stands among the bytes of a text where it stands in the text. -/
theorem indexOf?_utf8 {m : Char} {mark : List Char} (hmark : IsAscii (m :: mark))
    (text : List Char) : indexOf? (utf8 (m :: mark)) (utf8 text) =
      (cut? (m :: mark) text).map fun halves => byteLength halves.1 := by
  have hm := (List.forall_mem_cons.1 hmark).1
  induction text with
  | nil =>
      rw [utf8_cons_of_lt hm]
      rfl
  | cons c text ih =>
      obtain ⟨b, bytes, hbytes⟩ := exists_utf8EncodeChar_eq_cons c
      have hprefix := isPrefixOf_utf8 hmark (c :: text)
      have hsize : bytes.length + 1 = c.utf8Size := by
        rw [← String.length_utf8EncodeChar, hbytes, List.length_cons]
      rw [utf8_cons c, hbytes, List.cons_append] at hprefix ⊢
      rw [cut?, indexOf?, hprefix]
      cases after? (m :: mark) (c :: text) with
      | some after => rfl
      | none =>
          have hskip : ∀ b' ∈ bytes, (b' == m.toUInt8) = false := by
            rcases Nat.lt_or_ge c.toNat 128 with hc | hc
            · rw [utf8EncodeChar_of_lt hc] at hbytes
              rw [← (List.cons.inj hbytes).2]
              exact List.forall_mem_nil _
            · intro b' hb'
              have hmem : b' ∈ String.utf8EncodeChar c := hbytes ▸ List.mem_cons_of_mem b hb'
              rw [beq_of_mem_utf8EncodeChar hmem hm, beq_eq_false_of_le hc hm]
          rw [Option.isSome_none, if_neg Bool.false_ne_true, indexOf?_append hm hskip, ih]
          simp only [Option.map_map]
          congr 1
          funext halves
          simp only [Function.comp_apply, byteLength_cons, ← hsize]
          omega

/-! ## Machines -/

section

variable {σ : Type} {step : σ → UInt8 → Option σ} {s : σ}

/-- A machine goes over bytes that leave its state as it is. -/
theorem stopIndex?_append {bytes : List UInt8} (h : ∀ b ∈ bytes, step s b = some s)
    (rest : List UInt8) :
    stopIndex? step s (bytes ++ rest) = (stopIndex? step s rest).map (· + bytes.length) := by
  induction bytes with
  | nil => simp
  | cons b bytes ih =>
      obtain ⟨hb, hlater⟩ := List.forall_mem_cons.1 h
      rw [List.cons_append, stopIndex?, hb]
      simp only [ih hlater, Option.map_map]
      rfl

/-- A machine takes a character as each of its bytes tells, and one outside ASCII leaves the state
as it is. -/
theorem stopIndex?_utf8_cons {c : Char} {next : Option σ}
    (h : ∀ b ∈ String.utf8EncodeChar c, step s b = next) (hwide : 128 ≤ c.toNat → next = some s)
    (text : List Char) : stopIndex? step s (utf8 (c :: text)) =
      next.elim (some 0) fun s' => (stopIndex? step s' (utf8 text)).map (c.utf8Size + ·) := by
  rcases Nat.lt_or_ge c.toNat 128 with hc | hc
  · rw [utf8EncodeChar_of_lt hc] at h
    rw [utf8_cons_of_lt hc, stopIndex?, h _ List.mem_cons_self, utf8Size_of_lt hc]
    cases next with
    | none => rfl
    | some s' => exact congrArg (Option.map · _) (funext fun _ => Nat.add_comm _ _)
  · rw [hwide hc] at h ⊢
    rw [utf8_cons, stopIndex?_append h, String.length_utf8EncodeChar]
    exact congrArg (Option.map · _) (funext fun _ => Nat.add_comm _ _)

end

end MarkupPath.Text
