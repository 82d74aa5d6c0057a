import MarkupPath.Proofs.Markup.Escape
import MarkupPath.Proofs.Markup.Scanning

/-!
# Reading attribute lists byte by byte

Among the bytes of a text the references are expanded and the attributes are listed that stand among
its characters (`ends_expand`, `ends_readAttributes`). Both loops come to an end: a round of
expanding takes at least an ampersand, and a round of listing takes an attribute.
-/

set_option autoImplicit false

namespace MarkupPath.Text

theorem cut?_eq_none {d : Char} {cs : List Char} (h : d ∉ cs) : cut? [d] cs = none := by
  rw [Option.eq_none_iff_forall_not_mem]
  rintro ⟨before, after⟩ hcut
  rw [← append_of_cut? hcut] at h
  simp at h

end MarkupPath.Text

namespace MarkupPath.Markup.Reference

open MarkupPath.Text

/-! ## Expanding from one ampersand to the next -/

theorem expand_append {before : List Char} (h : '&' ∉ before) (rest : List Char) :
    expand (before ++ rest) = before ++ expand rest := by
  induction before with
  | nil => rfl
  | cons c before ih =>
      obtain ⟨hc, hlater⟩ := not_or.1 (List.mem_cons.not.1 h)
      have hself := standsFor_self (Ne.symm hc) (before ++ rest)
      rw [List.singleton_append] at hself
      rw [List.cons_append, hself, ih hlater, List.cons_append]

theorem expand_eq_self {cs : List Char} (h : '&' ∉ cs) : expand cs = cs := by
  have happend := expand_append h []
  rwa [List.append_nil, expand, List.append_nil] at happend

theorem expand_of_read? {rest after : List Char} {c : Char}
    (h : read? rest = some (c, after)) :
    expand ('&' :: rest) = c :: expand after := by
  rw [expand, if_pos (by rfl)]
  split <;> simp_all

theorem expand_of_read?_eq_none {rest : List Char} (h : read? rest = none) :
    expand ('&' :: rest) = '&' :: expand rest := by
  rw [expand, if_pos (by rfl)]
  split <;> simp_all

end MarkupPath.Markup.Reference

namespace MarkupPath.Markup.Attribute

open MarkupPath.Text

/-! ## What is read of a list -/

section

variable {known : List Attribute} {p q : Place}

/-- Behind a value stands its quote or `<`. -/
theorem dropWhile_value {quote stop : Char} {cs tail : List Char}
    (h : (cs.dropWhile fun c => c != quote && c != '<') = stop :: tail) :
    (stop = quote ∨ stop = '<') ∧
      cs = (cs.takeWhile fun c => c != quote && c != '<') ++ stop :: tail := by
  have hstop := List.head?_dropWhile_not (fun c => c != quote && c != '<') cs
  rw [h] at hstop
  constructor
  · simpa only [List.head?_cons, Bool.and_eq_false_iff, bne_eq_false_iff_eq] using hstop
  · rw [← h, List.takeWhile_append_dropWhile]

theorem read_of_sign {name : List Char} {r : Place} (hname : Name.read? p = some (name, q))
    (hafter : (q.skipWhile isMarkupBlank).after? ['='] = some r) :
    read p = (readValue (r.skipWhile isMarkupBlank)).map fun found =>
      (name, found.1, found.2) := by
  rw [read, hname]
  simp only [hafter]
  cases readValue (r.skipWhile isMarkupBlank) <;> rfl

/-- A value stands between its quotes, which are one byte each. -/
theorem before_value {value : List Char} (h : readValue p = .ok (value, q)) :
    ∃ inside behind first last, p.Before first inside ∧ inside.Before value behind ∧
      behind.Before last q ∧ byteLength first = 1 ∧ byteLength last = 1 := by
  obtain ⟨quote, hrest, hoffset⟩ := before_of_readValue h
  have hquote : byteLength [quote] = 1 := by
    rw [readValue, hrest, List.cons_append, List.cons_append] at h
    simp only at h
    split at h
    · next hquote =>
      rw [Bool.or_eq_true, beq_iff_eq, beq_iff_eq] at hquote
      rcases hquote with rfl | rfl <;> rfl
    · cases h
  let inside : Place := p.past [quote] (value ++ quote :: q.rest)
  let behind : Place := inside.past value (quote :: q.rest)
  refine ⟨inside, behind, [quote], [quote], Place.before_past ?_, Place.before_past rfl,
    ⟨rfl, ?_⟩, hquote, hquote⟩
  · rw [hrest, List.append_assoc, List.singleton_append, List.cons_append, List.singleton_append]
  · rw [hoffset, byteLength_append, ← List.singleton_append, byteLength_append, ← Nat.add_assoc,
      ← Nat.add_assoc]
    rfl

theorem readAll_of_end (h : (p.skipWhile isMarkupBlank).rest = []) :
    readAll known p = .ok known := by
  rw [readAll]
  simp only [h, List.isEmpty_nil, if_pos]

theorem readAll_of_error (h : (p.skipWhile isMarkupBlank).rest ≠ []) {e : AttributeError}
    (hread : read (p.skipWhile isMarkupBlank) = .error e) :
    readAll known p = .error e := by
  rw [readAll, if_neg (by simpa using h)]
  split <;> simp_all

theorem readAll_of_ok (h : (p.skipWhile isMarkupBlank).rest ≠ []) {name value : List Char}
    (hread : read (p.skipWhile isMarkupBlank) = .ok (name, value, q)) :
    readAll known p =
      if known.any fun a => a.name == String.ofList name then
        .error ⟨.duplicate, (p.skipWhile isMarkupBlank).offset⟩
      else readAll
        (known ++ [⟨String.ofList name, String.ofList (Reference.expand value)⟩]) q := by
  rw [readAll, if_neg (by simpa using h)]
  split <;> simp_all

end

end MarkupPath.Markup.Attribute

namespace MarkupPath.Markup.Reader

open MarkupPath.Text Run

variable {ε : Type} {text taken : List Char} {p q : Place}

/-! ## References -/

/-- The reference at an ampersand is the one that is read behind it, and the semicolon stands where
it was found. -/
theorem ends_readReference (hp : p.In text) {rest : List Char} (hrest : p.rest = '&' :: rest) :
    (Reference.read? rest = none ∧ Ends (ε := ε) (readReference text p.offset) (.ok none)) ∨
    ∃ c count q taken, Reference.read? rest = some (c, q.rest) ∧ p.Before taken q ∧
      q.offset = p.offset + (count + 1) ∧
      Ends (ε := ε) (readReference text p.offset) (.ok (some (c, count))) := by
  by_cases hmark : ';' ∈ rest
  · obtain ⟨body, after, rfl, hbody⟩ := List.eq_append_cons_of_mem hmark
    have hcut : cut? [';'] (body ++ ';' :: after) = some (body, after) := by
      rw [List.append_cons]
      exact cut?_append (by decide) (by rwa [List.singleton_infix_iff]) after
    have hfind : (utf8 p.rest).findIdx? (· == ';'.toUInt8) = some (byteLength ('&' :: body)) := by
      rw [hrest, ← List.cons_append]
      exact findIdx?_append_cons (by decide) (by simpa using hbody) after
    let inside : Place := p.past ['&'] (body ++ ';' :: after)
    let stop : Place := inside.past body (';' :: after)
    have hinside : p.Before ['&'] inside := Place.before_past hrest
    have hstop : inside.Before body stop := Place.before_past rfl
    have hcount : stop.offset = p.offset + byteLength ('&' :: body) := Nat.add_assoc _ _ _
    have hslice : Ends (ε := ε) (slice text (p.offset + 1) (p.offset + byteLength ('&' :: body)))
        (.ok body) := hcount ▸ ends_slice (hp.of_before hinside) hstop
    have hread : Ends (ε := ε) (readReference text p.offset)
        (.ok ((Reference.charOf? body).map fun c => (c, byteLength ('&' :: body)))) := by
      refine (ends_bytesFrom hp).bind ?_
      rw [hfind]
      exact hslice.bind (.pure _)
    rw [Reference.read?, hcut]
    dsimp only
    cases hchar : Reference.charOf? body with
    | none => exact .inl ⟨rfl, by rwa [hchar] at hread⟩
    | some c =>
        refine .inr ⟨c, byteLength ('&' :: body), stop.past [';'] after, _, rfl,
          hinside.trans (hstop.trans (Place.before_past rfl)), ?_, by rwa [hchar] at hread⟩
        rw [Place.past, hcount, Nat.add_assoc]
        rfl
  · refine .inl ⟨by rw [Reference.read?, cut?_eq_none hmark], ?_⟩
    refine (ends_bytesFrom hp).bind ?_
    rw [hrest, findIdx?_eq_none (by decide) (by simpa using hmark)]
    exact .pure _

/-- A round of expanding takes the text up to the next ampersand, and the reference there or the
ampersand alone; the rounds from a later place on do the rest. -/
theorem ends_expandFrom_step (hp : p.In text) (hmark : '&' ∈ p.rest)
    (hlater : ∀ r taken, p.Before taken r → taken ≠ [] →
      Ends (ε := ε) (expandFrom text r.offset) (.ok (Reference.expand r.rest))) :
    Ends (ε := ε) (expandFrom text p.offset) (.ok (Reference.expand p.rest)) := by
  obtain ⟨plain, rest, hsplit, hplain⟩ := List.eq_append_cons_of_mem hmark
  let q : Place := p.past plain ('&' :: rest)
  have hpq : p.Before plain q := Place.before_past hsplit
  have hfind : (utf8 p.rest).findIdx? (· == '&'.toUInt8) = some (byteLength plain) := by
    rw [hsplit]
    exact findIdx?_append_cons (by decide) hplain rest
  rw [expandFrom, if_pos (hp.offset_lt (List.ne_nil_of_mem hmark))]
  refine (ends_bytesFrom hp).bind ?_
  rw [hfind, hsplit, Reference.expand_append hplain]
  refine (ends_slice hp hpq).bind ?_
  obtain ⟨hread, hnone⟩ | ⟨c, count, r, taken, hread, hqr, hoffset, hsome⟩ :=
    ends_readReference (hp.of_before hpq) (ε := ε) rfl
  · have hbehind : q.Before ['&'] (q.past ['&'] rest) := Place.before_past rfl
    have hrest := hlater _ _ (hpq.trans hbehind) (by simp)
    refine hnone.bind ?_
    rw [Reference.expand_of_read?_eq_none hread]
    exact hrest.bind (.pure _)
  · -- the end of a reference lies behind its ampersand, so the round takes a character
    have htaken : plain ++ taken ≠ [] := by
      rintro hnil
      obtain ⟨-, rfl⟩ := List.append_eq_nil_iff.1 hnil
      have hzero := hqr.2
      rw [hoffset, byteLength_nil] at hzero
      omega
    have hrest := hlater r _ (hpq.trans hqr) htaken
    rw [hoffset] at hrest
    refine hsome.bind ?_
    rw [Reference.expand_of_read? hread]
    exact hrest.bind (.pure _)

/-- The rounds of expanding go through the text as one pass over its characters does. -/
theorem ends_expandFrom (hp : p.In text) :
    Ends (ε := ε) (expandFrom text p.offset) (.ok (Reference.expand p.rest)) := by
  induction hlength : p.rest.length using Nat.strong_induction_on generalizing p with
  | _ length ih =>
      -- the rounds go from ampersand to ampersand, so the rest is any shorter one
      subst hlength
      by_cases hmark : '&' ∈ p.rest
      · refine ends_expandFrom_step hp hmark fun r taken hpr htaken => ?_
        have hshorter := hpr.length
        have hpos := List.length_pos_iff.2 htaken
        exact ih r.rest.length (by omega) (hp.of_before hpr) rfl
      · -- without a further ampersand the last round takes what is left, if anything is
        rw [expandFrom, Reference.expand_eq_self hmark]
        split
        · refine (ends_bytesFrom hp).bind ?_
          rw [findIdx?_eq_none (by decide) hmark]
          exact ends_slice_rest hp
        · next hend =>
          have hrest : p.rest = [] := not_not.1 fun hne => hend (hp.offset_lt hne)
          rw [hrest]
          exact .pure _

theorem ends_expand (cs : List Char) :
    Ends (ε := ε) (expand cs) (.ok (String.ofList (Reference.expand cs))) := by
  rw [expand]
  by_cases hmark : '&' ∈ cs
  · obtain ⟨plain, rest, rfl, hplain⟩ := List.eq_append_cons_of_mem hmark
    rw [findIdx?_append_cons (by decide) hplain]
    exact (ends_expandFrom (Place.in_start _)).map String.ofList
  · rw [findIdx?_eq_none (by decide) hmark, Reference.expand_eq_self hmark]
    exact .pure _

/-! ## Attributes -/

/-- The bytes of a value are searched for its quote and for `<` at once. -/
theorem findIdx?_value {quote : Char} (hquote : quote.toNat < 128) (cs : List Char) :
    ((utf8 cs).findIdx? fun b => b == quote.toUInt8 || b == '<'.toUInt8) =
      (cs.dropWhile fun c => c != quote && c != '<').head?.map fun _ =>
        byteLength (cs.takeWhile fun c => c != quote && c != '<') := by
  rw [findIdx?_utf8 ((tells_beq hquote).or (tells_beq (by decide)))]
  simp only [Bool.not_or, bne]

/-- A value between quotation marks: the byte search for the mark and for `<` finds what the split
of the characters finds. -/
theorem ends_findValue_of_quote (hp : p.In text) {quote : Char} {rest : List Char}
    (hrest : p.rest = quote :: rest) (hquote : (quote == '"' || quote == '\'') = true) :
    Ends (findValue ⟨text, p.offset⟩) ((Attribute.readValue p).map fun found =>
      (p.offset + 1, p.offset + 1 + byteLength found.1)) := by
  have hsmall : quote.toNat < 128 := by
    rw [Bool.or_eq_true, beq_iff_eq, beq_iff_eq] at hquote
    rcases hquote with rfl | rfl <;> decide
  let inside : Place := p.past [quote] rest
  have hinside : p.Before [quote] inside := Place.before_past hrest
  have hoffset : inside.offset = p.offset + 1 := congrArg (p.offset + ·) (utf8Size_of_lt hsmall)
  have hpeek : (Cursor.mk text p.offset).peek = some quote.toUInt8 := by
    rw [Cursor.peek_of_in hp, hrest, utf8_cons_of_lt hsmall, List.head?_cons]
  have hfirst : (quote.toUInt8 == '"'.toUInt8 || quote.toUInt8 == '\''.toUInt8) = true := by
    rw [beq_of_mem_utf8EncodeChar (toUInt8_mem_of_lt hsmall) (by decide),
      beq_of_mem_utf8EncodeChar (toUInt8_mem_of_lt hsmall) (by decide), hquote]
  have hbytes : Ends (ε := AttributeError) (bytesFrom text inside.offset) (.ok (utf8 rest)) :=
    ends_bytesFrom (hp.of_before hinside)
  rw [findValue, hpeek, Attribute.readValue, hrest]
  simp only [hfirst, hquote, if_pos]
  rw [← hoffset]
  refine hbytes.bind ?_
  rw [findIdx?_value hsmall]
  cases hdrop : rest.dropWhile fun c => c != quote && c != '<' with
  | nil => exact .fail _
  | cons stop tail =>
      obtain ⟨hstop, hvalue⟩ := Attribute.dropWhile_value hdrop
      have hstop' : stop.toNat < 128 := by
        rcases hstop with rfl | rfl
        · exact hsmall
        · decide
      have hbehind : (p.past (quote :: rest.takeWhile fun c => c != quote && c != '<') []).offset =
          inside.offset + byteLength (rest.takeWhile fun c => c != quote && c != '<') :=
        (Nat.add_assoc _ _ _).symm
      rw [hbehind]
      -- only the length of the value and the character behind it matter from here on
      generalize (rest.takeWhile fun c => c != quote && c != '<') = value at hvalue ⊢
      have hbyte : (utf8 rest)[byteLength value]? = some stop.toUInt8 := by
        rw [hvalue]
        exact getElem?_utf8_append_cons hstop' value tail
      simp only [List.head?_cons, Option.map_some]
      rw [hbyte]
      refine (Ends.unwrap _).bind ?_
      rw [beq_of_mem_utf8EncodeChar (toUInt8_mem_of_lt hstop') hsmall]
      cases stop == quote with
      | true => exact .pure _
      | false => exact .fail _

/-- A value that may be missing or without a quotation mark in front. -/
theorem ends_findValue (hp : p.In text) : Ends (findValue ⟨text, p.offset⟩)
    ((Attribute.readValue p).map fun found =>
      (p.offset + 1, p.offset + 1 + byteLength found.1)) := by
  obtain ⟨hrest, hpeek⟩ | ⟨c, rest, b, hrest, hb, hpeek⟩ := Cursor.peek_cases hp
  · rw [findValue, hpeek, Attribute.readValue, hrest]
    exact .fail _
  · cases hquote : c == '"' || c == '\'' with
    | true => exact ends_findValue_of_quote hp hrest hquote
    | false =>
        have hfirst : (b == '"'.toUInt8 || b == '\''.toUInt8) = false := by
          rw [beq_of_mem_utf8EncodeChar hb (by decide), beq_of_mem_utf8EncodeChar hb (by decide),
            hquote]
        rw [findValue, hpeek, Attribute.readValue, hrest]
        simp only [hquote, hfirst, if_neg Bool.false_ne_true]
        exact .fail _

/-- A value is the slice from behind its first quote, and one byte behind it reading goes on. -/
theorem ends_slice_value (hp : p.In text) {value : List Char}
    (h : Attribute.readValue p = .ok (value, q)) :
    q.In text ∧ p.offset + 1 + byteLength value + 1 = q.offset ∧
      Ends (ε := ε) (slice text (p.offset + 1) (p.offset + 1 + byteLength value)) (.ok value) := by
  obtain ⟨inside, behind, first, last, hinside, hbehind, hlast, hone, hone'⟩ :=
    Attribute.before_value h
  have hin := hp.of_before hinside
  have hslice := ends_slice (ε := ε) hin hbehind
  rw [hbehind.2, hinside.2, hone] at hslice
  refine ⟨(hin.of_before hbehind).of_before hlast, ?_, hslice⟩
  rw [hlast.2, hbehind.2, hinside.2, hone, hone']

/-- One turn of the loop: a name, a sign, a value, and whether the name is known already. -/
theorem ends_readAttribute (hp : p.In text) (known : List Attribute) :
    Ends (readAttribute known ⟨text, p.offset⟩) (match Attribute.read p with
      | .error e => .error e
      | .ok (name, value, q) =>
          if known.any fun a => a.name == String.ofList name then .error ⟨.duplicate, p.offset⟩
          else .ok (⟨String.ofList name, String.ofList (Reference.expand value)⟩,
            ⟨text, q.offset⟩)) := by
  refine (ends_readName hp).bind ?_
  cases hname : Name.read? p with
  | none =>
      rw [Attribute.read, hname]
      exact .fail _
  | some found =>
      obtain ⟨name, q⟩ := found
      have hq := hp.of_before (Name.before_of_read? hname)
      have hsign := hq.of_before (Place.before_skipWhile isMarkupBlank q)
      refine (ends_skipBlanks hq).bind ?_
      rw [Cursor.peek_bne hsign (by decide)]
      cases hafter : (q.skipWhile isMarkupBlank).after? ['='] with
      | none =>
          rw [Attribute.read, hname]
          simp only [hafter]
          exact .fail _
      | some r =>
          have hafter' := Place.before_of_after? hafter
          have hr := hsign.of_before hafter'
          have hquote := hr.of_before (Place.before_skipWhile isMarkupBlank r)
          have hfind := ends_findValue hquote
          rw [Attribute.read_of_sign hname hafter]
          refine (ends_hold_advance hsign hafter').bind ?_
          refine (ends_skipBlanks hr).bind ?_
          cases hvalue : Attribute.readValue (r.skipWhile isMarkupBlank) with
          | error e =>
              rw [hvalue] at hfind
              exact hfind.bind_error
          | ok found =>
              obtain ⟨value, s⟩ := found
              obtain ⟨hs, hoffset, hslice⟩ := ends_slice_value hquote hvalue
              rw [hvalue] at hfind
              refine hfind.bind ?_
              simp only [Except.map]
              split
              · exact .fail _
              · refine hslice.bind ?_
                refine (ends_expand value).bind ?_
                rw [hoffset]
                exact (ends_hold_seek hs _).bind (.pure _)

/-- With as many rounds as there are characters, reading attributes comes to its end. -/
theorem ends_readAttributesFrom (hp : p.In text) (known : List Attribute) {rounds : Nat}
    (hrounds : p.rest.length < rounds) :
    Ends (readAttributesFrom rounds known ⟨text, p.offset⟩) (Attribute.readAll known p) := by
  induction rounds generalizing p known with
  | zero => exact absurd hrounds (Nat.not_lt_zero _)
  | succ rounds ih =>
      have hblanks := Place.before_skipWhile isMarkupBlank p
      have hstart := hp.of_before hblanks
      have hread := ends_readAttribute hstart known
      rw [readAttributesFrom]
      refine (ends_skipBlanks hp).bind ?_
      rw [Cursor.isAtEnd_of_in hstart]
      by_cases hend : (p.skipWhile isMarkupBlank).rest = []
      · rw [Attribute.readAll_of_end hend, if_pos (List.isEmpty_iff.2 hend)]
        exact .pure _
      · rw [if_neg (by simpa using hend)]
        cases hfound : Attribute.read (p.skipWhile isMarkupBlank) with
        | error e =>
            rw [hfound] at hread
            rw [Attribute.readAll_of_error hend hfound]
            exact hread.bind_error
        | ok found =>
            obtain ⟨name, value, q⟩ := found
            obtain ⟨taken, hbefore, -⟩ := Attribute.before_of_read hfound
            have hlength : q.rest.length < rounds := by
              have hshorter := Attribute.length_of_read hfound
              have hblank := hblanks.length
              omega
            rw [hfound] at hread
            rw [Attribute.readAll_of_ok hend hfound]
            dsimp only at hread
            split at hread
            · next hknown =>
              rw [if_pos hknown]
              exact hread.bind_error
            · next hknown =>
              rw [if_neg hknown]
              exact hread.bind (ih (hstart.of_before hbefore) _ hlength)

theorem ends_readAttributes (cs : List Char) :
    Ends (readAttributes cs) (Attribute.list cs) :=
  (ends_hold (Place.in_start cs)).bind
    (ends_readAttributesFrom (Place.in_start cs) [] (Nat.lt_succ_of_le (length_le_byteLength cs)))

end MarkupPath.Markup.Reader
