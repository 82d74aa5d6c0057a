import MarkupPath.Proofs.Markup.AttributeList
import Mathlib.Data.List.Forall2
import Mathlib.Data.Nat.Digits.Defs
import Mathlib.Tactic.Ring

/-!
# The references that are replaced

`IsReference` lists the references, each with the character that it stands for: five names, and the
numbers of XML characters in decimal or hexadecimal digits. `Replaces` is the replacement of all of
them in one pass from left to right, which keeps everything else. The reader does just this, save
that its numbers may have a plus sign in front (`replaces_iff`).
-/

set_option autoImplicit false

namespace MarkupPath.Markup.Reference

open MarkupPath.Text

/-! ## Numbers -/

/-- The character is the digit of this value, in lower or upper case. -/
def IsDigit (base : Nat) (c : Char) (value : Nat) : Prop :=
  value < base ∧ ("0123456789abcdef".toList[value]? = some c ∨
    "0123456789ABCDEF".toList[value]? = some c)

/-- The digits, at least one, write the number in a base. Zeros may stand in front. -/
def Denotes (base : Nat) (digits : List Char) (n : Nat) : Prop :=
  digits ≠ [] ∧ ∃ values, List.Forall₂ (IsDigit base) digits values ∧
    n = Nat.ofDigits base values.reverse

/-- What may stand before the digits: nothing, or a plus sign if signs are admitted. -/
def IsSign (signed : Bool) (sign : List Char) : Prop := sign = [] ∨ (signed = true ∧ sign = ['+'])

/-- The text is a reference to the character. -/
inductive IsReference (signed : Bool) : List Char → Char → Prop where
  | name {name : String} {c : Char} (h : (name, c) ∈ named) :
      IsReference signed (reference name) c
  | decimal {sign digits : List Char} {n : Nat} (hsign : IsSign signed sign)
      (h : Denotes 10 digits n) (hxml : isXmlCodePoint n = true) :
      IsReference signed ('&' :: '#' :: (sign ++ digits) ++ [';']) (Char.ofNat n)
  | hexadecimal {x : Char} {sign digits : List Char} {n : Nat} (hx : x = 'x' ∨ x = 'X')
      (hsign : IsSign signed sign) (h : Denotes 16 digits n) (hxml : isXmlCodePoint n = true) :
      IsReference signed ('&' :: '#' :: x :: (sign ++ digits) ++ [';']) (Char.ofNat n)

/-- The second text is the first one with its references replaced in one pass from left to right:
where a reference stands it is replaced and left behind, and any other character is kept. -/
inductive Replaces (signed : Bool) : List Char → List Char → Prop where
  | nil : Replaces signed [] []
  | replace {r after out : List Char} {c : Char} (h : IsReference signed r c)
      (hafter : Replaces signed after out) : Replaces signed (r ++ after) (c :: out)
  | keep {c : Char} {after out : List Char}
      (h : ∀ r c', IsReference signed r c' → ¬ r <+: c :: after)
      (hafter : Replaces signed after out) : Replaces signed (c :: after) (c :: out)

/-! ## Digits -/

/-- Digits of either base are single bytes. -/
theorem lt_of_digitValue? {c : Char} {value : Nat} (h : digitValue? c = some value) :
    c.toNat < 128 := by
  have hle : ∀ {d : Char}, c ≤ d → d.toNat < 128 → c.toNat < 128 := by
    intro d hcd hd
    have hnat : c.toNat ≤ d.toNat := UInt32.le_iff_toNat_le.1 hcd
    omega
  rw [digitValue?] at h
  split at h
  · next hdigit =>
    simp only [Char.isDigit, Bool.and_eq_true, decide_eq_true_eq] at hdigit
    exact hle (d := '9') hdigit.2 (by decide)
  · split at h
    · next hlower =>
      simp only [Bool.and_eq_true, decide_eq_true_eq] at hlower
      exact hle hlower.2 (by decide)
    · split at h
      · next hupper =>
        simp only [Bool.and_eq_true, decide_eq_true_eq] at hupper
        exact hle hupper.2 (by decide)
      · cases h

/-- All digits of all bases. -/
def allDigits : List Char := "0123456789abcdefABCDEF".toList

theorem IsDigit.mem {base : Nat} {c : Char} {value : Nat} (h : IsDigit base c value) :
    c ∈ allDigits := by
  rcases h.2 with h | h
  · exact List.mem_append_left "ABCDEF".toList (List.mem_of_getElem? h)
  · have hmem : c ∈ "0123456789ABCDEF".toList := List.mem_of_getElem? h
    exact List.Sublist.subset (by decide) hmem

theorem Denotes.mem {base n : Nat} {digits : List Char} (h : Denotes base digits n) :
    ∀ c ∈ digits, c ∈ allDigits := by
  obtain ⟨-, values, hvalues, -⟩ := h
  induction hvalues with
  | nil => exact List.forall_mem_nil _
  | cons hdigit _ ih => exact List.forall_mem_cons.2 ⟨hdigit.mem, ih⟩

/-- The digits are those of which the reader knows a value. -/
theorem isDigit_iff {base : Nat} (hbase : base ≤ 16) {c : Char} {value : Nat} :
    IsDigit base c value ↔ digitValue? c = some value ∧ value < base := by
  have hall : ∀ value < 16, ∀ n < 128, digitValue? (Char.ofNat n) = some value ↔
      ("0123456789abcdef".toList[value]? = some (Char.ofNat n) ∨
        "0123456789ABCDEF".toList[value]? = some (Char.ofNat n)) := by
    decide +kernel
  rw [IsDigit, and_comm]
  refine and_congr_left fun hvalue => ?_
  by_cases hc : c.toNat < 128
  · have hiff := hall value (by omega) c.toNat hc
    rw [Char.ofNat_toNat] at hiff
    exact hiff.symm
  · -- all digits are in ASCII
    have hall : allDigits.all (fun d => d.toNat < 128) = true := by decide
    have hascii : ∀ d ∈ allDigits, d.toNat < 128 := fun d hd =>
      of_decide_eq_true (List.all_eq_true.1 hall d hd)
    exact iff_of_false (fun h => hc (hascii c (IsDigit.mem ⟨hvalue, h⟩)))
      fun h => hc (lt_of_digitValue? h)

/-- What the reader does with one digit. -/
def addDigit (base value : Nat) (c : Char) : Option Nat := do
  let digit ← digitValue? c
  if digit < base then some (base * value + digit) else none

/-- Only a digit of the base is added to a number, as its last place. -/
theorem addDigit_eq_some_iff {base : Nat} (hbase : base ≤ 16) {value sum : Nat} {c : Char} :
    addDigit base value c = some sum ↔
      ∃ digit, IsDigit base c digit ∧ sum = base * value + digit := by
  rw [addDigit, Option.bind_eq_bind, Option.bind_eq_some_iff]
  constructor
  · rintro ⟨digit, hdigit, hsum⟩
    split at hsum
    · next hlt =>
      cases hsum
      exact ⟨digit, (isDigit_iff hbase).2 ⟨hdigit, hlt⟩, rfl⟩
    · cases hsum
  · rintro ⟨digit, hdigit, rfl⟩
    obtain ⟨hvalue, hlt⟩ := (isDigit_iff hbase).1 hdigit
    exact ⟨digit, hvalue, if_pos hlt⟩

/-- Reading digits one after another gives the number that they write behind the ones before. -/
theorem foldlM_addDigit_eq_some_iff {base : Nat} (hbase : base ≤ 16) {digits : List Char}
    {start n : Nat} :
    digits.foldlM (addDigit base) start = some n ↔
      ∃ values, List.Forall₂ (IsDigit base) digits values ∧
        n = start * base ^ digits.length + Nat.ofDigits base values.reverse := by
  induction digits generalizing start with
  | nil =>
    constructor
    · intro h
      exact ⟨[], .nil, by simpa using (Option.some.inj h).symm⟩
    · rintro ⟨values, hvalues, rfl⟩
      cases hvalues
      simp
  | cons c digits ih =>
    -- the first digit counts as often as the base to the number of those behind it
    have hplaces : ∀ digit values, List.Forall₂ (IsDigit base) digits values →
        (base * start + digit) * base ^ digits.length + Nat.ofDigits base values.reverse =
          start * base ^ (c :: digits).length + Nat.ofDigits base (digit :: values).reverse := by
      intro digit values hvalues
      rw [List.reverse_cons, Nat.ofDigits_append, List.length_reverse, ← hvalues.length_eq,
        Nat.ofDigits_singleton, List.length_cons, pow_succ]
      ring
    rw [List.foldlM_cons, Option.bind_eq_bind, Option.bind_eq_some_iff]
    constructor
    · rintro ⟨sum, hsum, hlater⟩
      obtain ⟨digit, hdigit, rfl⟩ := (addDigit_eq_some_iff hbase).1 hsum
      obtain ⟨values, hvalues, rfl⟩ := ih.1 hlater
      exact ⟨digit :: values, .cons hdigit hvalues, hplaces digit values hvalues⟩
    · rintro ⟨values, hvalues, rfl⟩
      cases hvalues with
      | @cons _ digit _ values hdigit hlater =>
        exact ⟨_, (addDigit_eq_some_iff hbase).2 ⟨digit, hdigit, rfl⟩,
          ih.2 ⟨values, hlater, (hplaces digit values hlater).symm⟩⟩

theorem denotes_iff {base : Nat} (hbase : base ≤ 16) {digits : List Char} {n : Nat} :
    Denotes base digits n ↔ digits ≠ [] ∧ digits.foldlM (addDigit base) 0 = some n := by
  rw [Denotes, foldlM_addDigit_eq_some_iff hbase]
  simp only [Nat.zero_mul, Nat.zero_add]

/-- No number starts with a sign. -/
theorem not_denotes_plus {base : Nat} (hbase : base ≤ 16) {digits : List Char} {n : Nat} :
    ¬ Denotes base ('+' :: digits) n := by
  rintro ⟨-, values, hvalues, -⟩
  cases hvalues with
  | cons hplus _ => exact absurd ((isDigit_iff hbase).1 hplus).1 nofun

/-- The numbers that the reader reads are those that digits write, with or without a plus sign. -/
theorem number?_eq_some_iff {base : Nat} (hbase : base ≤ 16) {text : List Char} {n : Nat} :
    number? base text = some n ↔
      ∃ sign digits, text = sign ++ digits ∧ IsSign true sign ∧ Denotes base digits n := by
  have hread : ∀ digits : List Char,
      (if digits.isEmpty then none else digits.foldlM (addDigit base) 0) = some n ↔
        Denotes base digits n := by
    intro digits
    rw [denotes_iff hbase]
    cases digits <;> simp
  by_cases hplus : ∃ digits, text = '+' :: digits
  · obtain ⟨digits, rfl⟩ := hplus
    refine (hread digits).trans ⟨fun h => ⟨['+'], digits, rfl, .inr ⟨rfl, rfl⟩, h⟩, ?_⟩
    rintro ⟨sign, digits', htext, rfl | ⟨-, rfl⟩, h⟩
    · rw [List.nil_append] at htext
      rw [← htext] at h
      exact absurd h (not_denotes_plus hbase)
    · rwa [(List.cons.inj htext).2]
  · have hnumber : number? base text =
        if text.isEmpty then none else text.foldlM (addDigit base) 0 := by
      rw [number?]
      · rfl
      · exact fun digits htext => hplus ⟨digits, htext⟩
    rw [hnumber, hread]
    refine ⟨fun h => ⟨[], text, rfl, .inl rfl, h⟩, ?_⟩
    rintro ⟨sign, digits, rfl, rfl | ⟨-, rfl⟩, h⟩
    · exact h
    · exact absurd ⟨digits, rfl⟩ hplus

/-! ## References -/

theorem charOfNumber?_eq_some_iff {n : Nat} {c : Char} :
    charOfNumber? n = some c ↔ isXmlCodePoint n = true ∧ Char.ofNat n = c := by
  rw [charOfNumber?]
  split
  · next hxml => simp [hxml]
  · next hxml => simp [hxml]

/-- Reading digits in a word of 32 bits: a sum that does not fit is none. -/
def addDigit32 (base value : Nat) (c : Char) : Option Nat :=
  (addDigit base value c).filter (· < 2 ^ 32)

/-- Digits make a number larger, so it does not fit in the end if it does not on the way. -/
theorem foldlM_addDigit32 {base : Nat} (hbase : 0 < base ∧ base ≤ 16) {digits : List Char}
    {start : Nat} (hstart : start < 2 ^ 32) :
    digits.foldlM (addDigit32 base) start =
      (digits.foldlM (addDigit base) start).filter (· < 2 ^ 32) := by
  induction digits generalizing start with
  | nil => exact (Option.filter_some_pos (by simpa using hstart)).symm
  | cons c digits ih =>
    rw [List.foldlM_cons, List.foldlM_cons, addDigit32]
    cases addDigit base start c with
    | none => rfl
    | some sum =>
      by_cases hsum : sum < 2 ^ 32
      · rw [Option.filter_some_pos (by simpa using hsum)]
        exact ih hsum
      · have hlarge : ∀ n, digits.foldlM (addDigit base) sum = some n → ¬ n < 2 ^ 32 := by
          intro n hn
          obtain ⟨values, -, rfl⟩ := (foldlM_addDigit_eq_some_iff hbase.2).1 hn
          have hpow : sum * 1 ≤ sum * base ^ digits.length :=
            Nat.mul_le_mul_left sum (Nat.pow_pos hbase.1)
          omega
        rw [Option.filter_some_neg (by simpa using hsum)]
        refine (Option.filter_eq_none_iff.2 fun n hn => ?_).symm
        simpa using hlarge n hn

/-- No character has a number that does not fit, so it makes no difference that numbers are read in
a word of 32 bits. -/
theorem foldlM_addDigit32_bind {base : Nat} (hbase : 0 < base ∧ base ≤ 16) (digits : List Char) :
    (digits.foldlM (addDigit32 base) 0).bind charOfNumber? =
      (digits.foldlM (addDigit base) 0).bind charOfNumber? := by
  rw [foldlM_addDigit32 hbase (by decide)]
  cases digits.foldlM (addDigit base) 0 with
  | none => rfl
  | some n =>
    by_cases hn : n < 2 ^ 32
    · rw [Option.filter_some_pos (by simpa using hn)]
    · have hnone : isXmlCodePoint n = false := by
        simp only [isXmlCodePoint, Bool.or_eq_false_iff, Bool.and_eq_false_iff,
          beq_eq_false_iff_ne, decide_eq_false_iff_not]
        omega
      rw [Option.filter_some_neg (by simpa using hn), Option.bind_none, Option.bind_some,
        charOfNumber?, hnone, if_neg Bool.false_ne_true]

/-- The character of a number that is read in a base. -/
theorem number?_bind_eq_some_iff {base : Nat} (hbase : base ≤ 16) {text : List Char} {c : Char} :
    (number? base text).bind charOfNumber? = some c ↔
      ∃ sign digits n, text = sign ++ digits ∧ IsSign true sign ∧ Denotes base digits n ∧
        isXmlCodePoint n = true ∧ Char.ofNat n = c := by
  rw [Option.bind_eq_some_iff]
  constructor
  · rintro ⟨n, hnumber, hchar⟩
    obtain ⟨sign, digits, htext, hsign, hdigits⟩ := (number?_eq_some_iff hbase).1 hnumber
    exact ⟨sign, digits, n, htext, hsign, hdigits, charOfNumber?_eq_some_iff.1 hchar⟩
  · rintro ⟨sign, digits, n, htext, hsign, hdigits, hchar⟩
    exact ⟨n, (number?_eq_some_iff hbase).2 ⟨sign, digits, htext, hsign, hdigits⟩,
      charOfNumber?_eq_some_iff.2 hchar⟩

/-- What the reader takes for a reference is one. -/
theorem isReference_of_charOf? {body : List Char} {c : Char} (h : charOf? body = some c) :
    IsReference true ('&' :: body ++ [';']) c := by
  unfold charOf? at h
  split at h
  · obtain ⟨sign, digits, n, rfl, hsign, hdigits, hxml, rfl⟩ :=
      (number?_bind_eq_some_iff (by decide)).1 h
    exact .hexadecimal (.inl rfl) hsign hdigits hxml
  · obtain ⟨sign, digits, n, rfl, hsign, hdigits, hxml, rfl⟩ :=
      (number?_bind_eq_some_iff (by decide)).1 h
    exact .hexadecimal (.inr rfl) hsign hdigits hxml
  · obtain ⟨sign, digits, n, rfl, hsign, hdigits, hxml, rfl⟩ :=
      (number?_bind_eq_some_iff (by decide)).1 h
    exact .decimal hsign hdigits hxml
  · obtain ⟨⟨name, c'⟩, hentry, rfl⟩ := Option.map_eq_some_iff.1 h
    have hname : (name.toList == body) = true :=
      List.find?_some (p := fun entry : String × Char => entry.1.toList == body) hentry
    rw [← eq_of_beq hname]
    exact .name (List.mem_of_find?_eq_some hentry)

/-- Behind a sign, or at once, stands a digit. -/
theorem exists_cons_of_denotes {base n : Nat} {sign digits : List Char} (hsign : IsSign true sign)
    (h : Denotes base digits n) : ∃ d rest, sign ++ digits = d :: rest ∧ d ≠ 'x' ∧ d ≠ 'X' := by
  rcases hsign with rfl | ⟨-, rfl⟩
  · obtain ⟨d, rest, rfl⟩ := List.exists_cons_of_ne_nil h.1
    have hmem : d ∈ allDigits := h.mem d List.mem_cons_self
    exact ⟨d, rest, rfl, ne_of_mem_of_not_mem hmem (by decide),
      ne_of_mem_of_not_mem hmem (by decide)⟩
  · exact ⟨'+', digits, rfl, by decide⟩

theorem notMem_of_denotes {base n : Nat} {sign digits : List Char} (hsign : IsSign true sign)
    (h : Denotes base digits n) {d : Char} (hd : d ∉ '+' :: allDigits) : d ∉ sign ++ digits := by
  obtain ⟨hplus, hdigit⟩ := not_or.1 (List.mem_cons.not.1 hd)
  intro hmem
  rcases List.mem_append.1 hmem with hmem | hmem
  · rcases hsign with rfl | ⟨-, rfl⟩
    · cases hmem
    · exact hplus (List.mem_singleton.1 hmem)
  · exact hdigit (h.mem d hmem)

/-- The reader takes every reference for one. Between its ends stands neither of them once more. -/
theorem IsReference.exists_body {r : List Char} {c : Char} (h : IsReference true r c) :
    ∃ body, r = '&' :: body ++ [';'] ∧ charOf? body = some c ∧ ';' ∉ body ∧ '&' ∉ body := by
  cases h with
  | @name name _ hname =>
    have hall : ∀ entry ∈ named, charOf? entry.1.toList = some entry.2 ∧ ';' ∉ entry.1.toList ∧
        '&' ∉ entry.1.toList := by decide
    exact ⟨name.toList, rfl, hall _ hname⟩
  | @decimal sign digits n hsign h hxml =>
    have hchar : charOf? ('#' :: (sign ++ digits)) = some (Char.ofNat n) := by
      have hnumber := (number?_bind_eq_some_iff (by decide : 10 ≤ 16)).2
        ⟨sign, digits, n, rfl, hsign, h, hxml, rfl⟩
      obtain ⟨d, rest, hcons, hx, hX⟩ := exists_cons_of_denotes hsign h
      rw [hcons] at hnumber ⊢
      rw [charOf?]
      · exact hnumber
      · rintro _ heq
        exact hx (List.cons.inj heq).1
      · rintro _ heq
        exact hX (List.cons.inj heq).1
    have hends : ∀ d, d ∉ '#' :: '+' :: allDigits → d ∉ '#' :: (sign ++ digits) := by
      intro d hd
      obtain ⟨hmark, hdigit⟩ := not_or.1 (List.mem_cons.not.1 hd)
      exact List.not_mem_cons_of_ne_of_not_mem hmark (notMem_of_denotes hsign h hdigit)
    exact ⟨'#' :: (sign ++ digits), rfl, hchar, hends ';' (by decide), hends '&' (by decide)⟩
  | @hexadecimal x sign digits n hx hsign h hxml =>
    have hchar : charOf? ('#' :: x :: (sign ++ digits)) = some (Char.ofNat n) := by
      have hnumber := (number?_bind_eq_some_iff (le_refl 16)).2
        ⟨sign, digits, n, rfl, hsign, h, hxml, rfl⟩
      rcases hx with rfl | rfl
      · exact hnumber
      · exact hnumber
    have hends : ∀ d, d ∉ '#' :: 'x' :: 'X' :: '+' :: allDigits →
        d ∉ '#' :: x :: (sign ++ digits) := by
      intro d hd
      simp only [List.mem_cons (b := '#'), List.mem_cons (b := 'x'), List.mem_cons (b := 'X'),
        not_or] at hd
      obtain ⟨hmark, hx', hX, hdigit⟩ := hd
      refine List.not_mem_cons_of_ne_of_not_mem hmark
        (List.not_mem_cons_of_ne_of_not_mem ?_ (notMem_of_denotes hsign h hdigit))
      rcases hx with rfl | rfl
      · exact hx'
      · exact hX
    exact ⟨'#' :: x :: (sign ++ digits), rfl, hchar, hends ';' (by decide), hends '&' (by decide)⟩

/-- A reference is read behind its ampersand, whatever stands behind it. -/
theorem IsReference.read? {r : List Char} {c : Char} (h : IsReference true r c)
    (after : List Char) :
    ∃ body, r = '&' :: body ∧ '&' ∉ body ∧ read? (body ++ after) = some (c, after) := by
  obtain ⟨body, rfl, hchar, hmark, hstray⟩ := h.exists_body
  have hcut : cut? [';'] (body ++ [';'] ++ after) = some (body, after) :=
    cut?_append (by decide) (by rwa [List.singleton_infix_iff]) after
  refine ⟨body ++ [';'], rfl, by simpa using hstray, ?_⟩
  rw [Reference.read?, hcut]
  simp only [hchar, Option.map_some]

/-- What is read behind an ampersand is a reference. -/
theorem exists_isReference_of_read? {text after : List Char} {c : Char}
    (h : read? text = some (c, after)) :
    ∃ body, text = body ++ after ∧ IsReference true ('&' :: body) c := by
  unfold Reference.read? at h
  split at h
  · cases h
  · next body after' hcut =>
    obtain ⟨c', hchar, heq⟩ := Option.map_eq_some_iff.1 h
    cases heq
    exact ⟨body ++ [';'], (append_of_cut? hcut).symm, isReference_of_charOf? hchar⟩

/-! ## One pass -/

section

variable {s t after : List Char} {c : Char}

/-- A reference stands for its character, also where one could be stray. -/
theorem expand_reference {r : List Char} (h : IsReference true r c) (after : List Char) :
    expand (r ++ after) = c :: expand after := by
  obtain ⟨body, rfl, -, hread⟩ := h.read? after
  rw [List.cons_append, expand_of_read? hread]

/-- Where no reference stands the character is kept. -/
theorem expand_keep (h : ∀ r c', IsReference true r c' → ¬ r <+: c :: after) :
    expand (c :: after) = c :: expand after := by
  by_cases hc : c = '&'
  · subst hc
    refine expand_of_read?_eq_none ?_
    rw [Option.eq_none_iff_forall_not_mem]
    rintro ⟨c', later⟩ hread
    obtain ⟨body, rfl, hbody⟩ := exists_isReference_of_read? hread
    exact h _ c' hbody ⟨later, rfl⟩
  · have hself := standsFor_self hc after
    rwa [List.singleton_append] at hself

/-- The reader replaces the references, in the sense that admits signs. -/
theorem replaces_iff : Replaces true s t ↔ expand s = t := by
  constructor
  · intro h
    induction h with
    | nil => rw [expand]
    | replace hr _ ih => rw [expand_reference hr, ih]
    | keep hnone _ ih => rw [expand_keep hnone, ih]
  · rintro rfl
    induction hlength : s.length using Nat.strong_induction_on generalizing s with
    | _ length ih =>
      subst hlength
      cases s with
      | nil =>
        rw [expand]
        exact .nil
      | cons c after =>
        by_cases hreference : ∃ r c', IsReference true r c' ∧ r <+: c :: after
        · obtain ⟨r, c', hr, later, heq⟩ := hreference
          rw [← heq, expand_reference hr]
          refine .replace hr (ih later.length ?_ rfl)
          obtain ⟨body, rfl, -, -⟩ := hr.read? []
          rw [← heq, List.length_append, List.length_cons]
          omega
        · have hnone : ∀ r c', IsReference true r c' → ¬ r <+: c :: after :=
            fun r c' hr hprefix => hreference ⟨r, c', hr, hprefix⟩
          rw [expand_keep hnone]
          exact .keep hnone (ih after.length (Nat.lt_succ_self _) rfl)

/-- No reference goes on over an ampersand, so what stands before one does not swallow it. -/
theorem expand_append_ampersand (before rest : List Char) :
    expand (before ++ '&' :: rest) = expand before ++ expand ('&' :: rest) := by
  induction hlength : before.length using Nat.strong_induction_on generalizing before with
  | _ length ih =>
    subst hlength
    cases before with
    | nil => rw [List.nil_append, expand, List.nil_append]
    | cons c tail =>
      by_cases hreference : ∃ r c', IsReference true r c' ∧ r <+: c :: tail
      · obtain ⟨r, c', hr, later, heq⟩ := hreference
        have hshorter : later.length < (c :: tail).length := by
          obtain ⟨body, rfl, -, -⟩ := hr.read? []
          rw [← heq, List.length_append, List.length_cons]
          omega
        rw [← heq, List.append_assoc, expand_reference hr, expand_reference hr,
          ih later.length hshorter later rfl, List.cons_append]
      · have hnone : ∀ r c', IsReference true r c' → ¬ r <+: c :: (tail ++ '&' :: rest) := by
          rintro r c' hr ⟨later, heq⟩
          rw [← List.cons_append] at heq
          rcases List.append_eq_append_iff.1 heq with ⟨inside, hinside, -⟩ | ⟨inside, hr', hlater⟩
          · exact hreference ⟨r, c', hr, inside, hinside.symm⟩
          · cases inside with
            | nil => exact hreference ⟨r, c', hr, [], by rw [hr', List.append_nil, List.append_nil]⟩
            | cons d inside =>
              -- the ampersand would be inside the reference
              obtain ⟨rfl, -⟩ := List.cons.inj hlater
              obtain ⟨body, rfl, hbody, -⟩ := hr.read? []
              rw [List.cons_append] at hr'
              apply hbody
              rw [(List.cons.inj hr').2]
              exact List.mem_append_right _ List.mem_cons_self
        have hnone' : ∀ r c', IsReference true r c' → ¬ r <+: c :: tail :=
          fun r c' hr hprefix => hreference ⟨r, c', hr, hprefix⟩
        rw [List.cons_append, expand_keep hnone, expand_keep hnone',
          ih tail.length (Nat.lt_succ_self _) tail rfl, List.cons_append]

end

/-! ## Signs -/

/-- A reference without a sign is one where a sign is let through, too. -/
theorem IsReference.signed {r : List Char} {c : Char} (h : IsReference false r c) :
    IsReference true r c := by
  have hsign : ∀ {sign}, IsSign false sign → IsSign true sign := by
    rintro sign (rfl | ⟨hno, -⟩)
    · exact .inl rfl
    · cases hno
  cases h with
  | name h => exact .name h
  | decimal hno h hxml => exact .decimal (hsign hno) h hxml
  | hexadecimal hx hno h hxml => exact .hexadecimal hx (hsign hno) h hxml

/-- No reference in the text has a sign. -/
def Unsigned (s : List Char) : Prop :=
  ∀ r c, IsReference true r c → r <:+: s → IsReference false r c

theorem Unsigned.of_suffix {s after : List Char} (h : Unsigned s) (hsuffix : after <:+ s) :
    Unsigned after :=
  fun r c hr hwithin => h r c hr (hwithin.trans hsuffix.isInfix)

/-- In a text without signs in its references it does not matter whether signs are admitted. -/
theorem Unsigned.replaces_iff {s t : List Char} (h : Unsigned s) :
    Replaces false s t ↔ Replaces true s t := by
  constructor
  · intro hreplaces
    induction hreplaces with
    | nil => exact .nil
    | replace hr _ ih => exact .replace hr.signed (ih (h.of_suffix (List.suffix_append _ _)))
    | @keep c after _ hnone _ ih =>
      refine .keep ?_ (ih (h.of_suffix (List.suffix_cons _ _)))
      exact fun r c' hr hprefix => hnone r c' (h r c' hr hprefix.isInfix) hprefix
  · intro hreplaces
    induction hreplaces with
    | nil => exact .nil
    | @replace r after _ _ hr _ ih =>
      have hinfix : r <:+: r ++ after := (List.prefix_append r after).isInfix
      exact .replace (h _ _ hr hinfix) (ih (h.of_suffix (List.suffix_append _ _)))
    | keep hnone _ ih =>
      refine .keep ?_ (ih (h.of_suffix (List.suffix_cons _ _)))
      exact fun r c' hr => hnone r c' hr.signed

/-! ## Whole texts -/

/-- How references are replaced in a text. -/
structure Decodes (s : List Char) : Prop where
  /-- The reader does among the bytes of the text what is done among its characters. -/
  byBytes : (Reader.expand s : Run Empty String).Ends (.ok (String.ofList (expand s)))
  /-- It replaces the references, numbers with a plus sign among them, in one pass. -/
  signed : ∀ t, Replaces true s t ↔ expand s = t
  /-- Without such numbers it replaces the references. -/
  unsigned : Unsigned s → ∀ t, Replaces false s t ↔ expand s = t
  /-- It makes no difference that the numbers in it are read in a word of 32 bits. -/
  words : ∀ base digits, base = 10 ∨ base = 16 → digits <:+: s →
    (digits.foldlM (addDigit32 base) 0).bind charOfNumber? =
      (digits.foldlM (addDigit base) 0).bind charOfNumber?
  /-- No stray ampersand hides a reference. -/
  apart : ∀ before r c after, s = before ++ (r ++ after) → IsReference true r c →
    expand s = expand before ++ c :: expand after

/-- The text that a reader hands on is the one with its references replaced. Numbers with a plus
sign in front are the only difference to the references that markup has. -/
theorem decodes (s : List Char) : Decodes s where
  byBytes := Reader.ends_expand s
  signed _ := replaces_iff
  unsigned h _ := h.replaces_iff.trans replaces_iff
  words := by
    rintro base digits (rfl | rfl) -
    · exact foldlM_addDigit32_bind (by decide) digits
    · exact foldlM_addDigit32_bind (by decide) digits
  apart := by
    rintro before r c after rfl hr
    rw [← expand_reference hr]
    obtain ⟨body, rfl, -, -⟩ := hr.read? after
    exact expand_append_ampersand before (body ++ after)

/-- A number with a plus sign in front is no reference. -/
theorem not_isReference_plus {body : List Char} {c : Char} :
    ¬ IsReference false ('&' :: '#' :: '+' :: body) c := by
  intro h
  generalize hr : '&' :: '#' :: '+' :: body = r at h
  cases h with
  | @name name _ hname =>
    have hall : ∀ entry ∈ named, (entry.1.toList ++ [';']).head? ≠ some '#' := by decide
    rw [reference, List.cons_append] at hr
    exact hall _ hname (by rw [← (List.cons.inj hr).2]; rfl)
  | @decimal sign digits n hsign hdigits hxml =>
    obtain rfl : sign = [] := hsign.elim id fun hno => absurd hno.1 (by decide)
    cases digits with
    | nil => exact hdigits.1 rfl
    | cons d digits =>
      simp only [List.nil_append, List.cons_append, List.cons.injEq, true_and] at hr
      rw [← hr.1] at hdigits
      exact not_denotes_plus (by decide) hdigits
  | @hexadecimal x sign digits n hx hsign hdigits hxml =>
    simp only [List.cons_append, List.cons.injEq, true_and] at hr
    rw [← hr.1] at hx
    exact absurd hx (by decide)

/-- It is replaced all the same. -/
theorem not_replaces_expand : ¬ ∀ s, Replaces false s (expand s) := by
  intro hall
  have hread : read? ['#', '+', '6', '5', ';'] = some ('A', []) := by decide +kernel
  have hreplaces := hall ['&', '#', '+', '6', '5', ';']
  rw [expand_of_read? hread, expand] at hreplaces
  generalize htext : ['&', '#', '+', '6', '5', ';'] = text at hreplaces
  cases hreplaces with
  | @replace r after _ _ hr _ =>
    obtain ⟨body, rfl, -, hmark, -⟩ := hr.signed.exists_body
    simp only [List.cons_append, List.append_assoc, List.nil_append, List.cons.injEq,
      true_and] at htext
    -- it reaches up to the semicolon, so there is no way around the plus sign
    cases body with
    | nil => exact absurd (List.cons.inj htext).1 (by decide)
    | cons x body =>
      obtain ⟨rfl, htail⟩ := List.cons.inj htext
      cases body with
      | nil => exact absurd (List.cons.inj htail).1 (by decide)
      | cons y body =>
        obtain ⟨rfl, -⟩ := List.cons.inj htail
        exact not_isReference_plus hr
  | keep => cases htext

/-- Without the three beginnings of a number with a sign there is none. -/
theorem unsigned_of_not_infix {s : List Char} (hdecimal : ¬ ['#', '+'] <:+: s)
    (hhexadecimal : ∀ x, x = 'x' ∨ x = 'X' → ¬ ['#', x, '+'] <:+: s) : Unsigned s := by
  intro r c hr hinfix
  cases hr with
  | name hname => exact .name hname
  | @decimal sign digits n hsign hdigits hxml =>
    rcases hsign with rfl | ⟨-, rfl⟩
    · exact .decimal (.inl rfl) hdigits hxml
    · exact absurd (List.IsInfix.trans ⟨['&'], digits ++ [';'], rfl⟩ hinfix) hdecimal
  | @hexadecimal x sign digits n hx hsign hdigits hxml =>
    rcases hsign with rfl | ⟨-, rfl⟩
    · exact .hexadecimal hx (.inl rfl) hdigits hxml
    · exact absurd (List.IsInfix.trans ⟨['&'], digits ++ [';'], rfl⟩ hinfix) (hhexadecimal x hx)

/-- A stray ampersand before a reference, a number that is too large, a reference that comes to
stand when another one is replaced, and a plus sign that belongs to no number. -/
theorem decodes_strayAmpersand :
    let s := "&&#x41; + &#99999999999;&amp;lt;".toList
    Decodes s ∧ expand s = "&A + &#99999999999;&lt;".toList ∧ Replaces false s (expand s) := by
  intro s
  have hunsigned : Unsigned s := by
    refine unsigned_of_not_infix (by decide +kernel) ?_
    rintro x (rfl | rfl) <;> decide +kernel
  exact ⟨decodes s, by decide +kernel, ((decodes s).unsigned hunsigned _).2 rfl⟩

end MarkupPath.Markup.Reference
