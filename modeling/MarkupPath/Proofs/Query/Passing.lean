import MarkupPath.Proofs.Query.Stream

/-!
# Passing tokens

Reading moves forward in a stream: `TokenStream.Reaches` relates it to the streams behind some of
its tokens, none of which is an end. Whatever goes wrong shows where the stream stands then, so
every fault shows at a token that has been reached (`Reports`).
-/

set_option autoImplicit false

namespace MarkupPath.Query

/-! ## Tokens before the end -/

theorem isStop_of_binaryOp? {k : TokenKind} {op : BinaryOp} (h : binaryOp? k = some op) :
    k.isStop = false := by
  rw [kind_of_binaryOp? h]
  rfl

theorem isStop_of_separatorAxis? {k : TokenKind} {axis : Axis} (h : separatorAxis? k = some axis) :
    k.isStop = false := by
  obtain ⟨separator, -, hk⟩ := kind_of_separatorAxis? h
  rw [hk]
  rfl

theorem isStop_nameTest (test : NameTest) : test.kind.isStop = false := by
  cases test <;> rfl

/-- From the one stream the other is reached over tokens none of which is an end. -/
def TokenStream.Reaches (s s' : TokenStream) : Prop :=
  s'.stop = s.stop ∧
    ∃ passed, s.pending = passed ++ s'.pending ∧ ∀ t ∈ passed, t.kind.isStop = false

namespace TokenStream

variable {s s₁ s₂ : TokenStream} {x : Symbol}

theorem isStop_of_sees (h : s.sees x = true) : s.peek.kind.isStop = false := by
  rw [kind_of_sees h]
  rfl

/-- There is a token before the end. -/
theorem length_advance (h : s.peek.kind.isStop = false) :
    s.advance.pending.length + 1 = s.pending.length := by
  rw [pending_eq_cons h, List.length_cons]

theorem length_of_expect (h : s.expect x = .ok s₁) :
    s₁.pending.length + 1 = s.pending.length := by
  obtain ⟨hk, rfl⟩ := expect_eq_ok h
  exact length_advance (by rw [hk]; rfl)

namespace Reaches

theorem refl (s : TokenStream) : s.Reaches s := ⟨rfl, [], rfl, List.forall_mem_nil _⟩

/-- What is passed on the way to one stream and on from it is passed together. -/
theorem trans (h : s.Reaches s₁) (h' : s₁.Reaches s₂) : s.Reaches s₂ := by
  obtain ⟨hstop, passed, hpending, hends⟩ := h
  obtain ⟨hstop', passed', hpending', hends'⟩ := h'
  refine ⟨hstop'.trans hstop, passed ++ passed', ?_, List.forall_mem_append.2 ⟨hends, hends'⟩⟩
  rw [hpending, hpending', List.append_assoc]

/-- Advancing passes the token that stands next, unless it is an end. -/
theorem advance (hk : s.peek.kind.isStop = false) : s.Reaches s.advance :=
  ⟨rfl, [s.peek], pending_eq_cons hk, List.forall_mem_singleton.2 hk⟩

theorem expect (h : s.expect x = .ok s₁) : s.Reaches s₁ := by
  obtain ⟨hk, rfl⟩ := expect_eq_ok h
  exact advance (by rw [hk]; rfl)

/-- Moving forward adds no token. -/
theorem length_le (h : s.Reaches s₁) : s₁.pending.length ≤ s.pending.length := by
  obtain ⟨-, passed, hpending, -⟩ := h
  rw [hpending, List.length_append]
  exact Nat.le_add_left _ _

end Reaches

end TokenStream

theorem reaches_of_pathStart {s s' : TokenStream} {absolute : Bool} {axis : Axis}
    (h : pathStart s = .ok (absolute, axis, s')) : s.Reaches s' := by
  rcases pathStart_eq_ok h with ⟨-, -, rfl⟩ | ⟨-, rfl, separator, -, hk⟩
  · exact .refl s'
  · exact .advance (by rw [hk]; rfl)

section

variable {s s' : TokenStream} {axis axis' : Axis} {before : List (Step Expr)} {test : NodeTest}

/-- A step passes its mark or its name, and an attribute step both. -/
theorem StepStart.reaches (h : StepStart axis s before axis' test s') : s.Reaches s' := by
  cases h with
  | dot hk => exact .advance (by rw [hk]; rfl)
  | doubleDot hk => exact .advance (by rw [hk]; rfl)
  | element hk => exact .advance (by rw [hk, isStop_nameTest])
  | attributeTest hk hname =>
      have hsign : s.Reaches s.advance := .advance (by rw [hk]; rfl)
      exact hsign.trans (.advance (by rw [hname, isStop_nameTest]))

/-- A step passes a token. -/
theorem StepStart.length_lt (h : StepStart axis s before axis' test s') :
    s'.pending.length < s.pending.length := by
  have hadvance : s.peek.kind.isStop = false → s.advance.pending.length < s.pending.length :=
    fun hkind => Nat.lt_of_succ_le (Nat.le_of_eq (TokenStream.length_advance hkind))
  cases h with
  | dot hk => exact hadvance (by rw [hk]; rfl)
  | doubleDot hk => exact hadvance (by rw [hk]; rfl)
  | element hk => exact hadvance (by rw [hk, isStop_nameTest])
  | attributeTest hk hname =>
      have hinside : s.advance.Reaches s.advance.advance :=
        .advance (by rw [hname, isStop_nameTest])
      exact Nat.lt_of_le_of_lt hinside.length_le (hadvance (by rw [hk]; rfl))

end

/-! ## Reporting faults -/

/-- What may be reported where there is room for so many calls: a fault shows at a token that is
reached from the stream, and a limit on the nesting is one that these calls can come up to. -/
structure TokenStream.Blames (s : TokenStream) (room : Nat) (e : SyntaxError) : Prop where
  reached : ∃ s', s.Reaches s' ∧ e.offset = s'.peek.offset
  nested : ∀ limit, e.fault = .depth limit → limit < s.depth + room

/-- What is blamed further on is blamed from here. -/
theorem TokenStream.Blames.of_reaches {s s₁ : TokenStream} {room room' : Nat} {e : SyntaxError}
    (h : s₁.Blames room e) (hs : s.Reaches s₁) (hroom : s₁.depth + room ≤ s.depth + room') :
    s.Blames room' e := by
  obtain ⟨⟨s', hs', hoffset⟩, hnested⟩ := h
  exact ⟨⟨s', hs.trans hs', hoffset⟩, fun limit hlimit =>
    Nat.lt_of_lt_of_le (hnested limit hlimit) hroom⟩

/-- If a computation fails, it blames the stream or what is behind it. -/
def Reports {α : Type} (s : TokenStream) (room : Nat) (r : Except SyntaxError α) : Prop :=
  ∀ e, r = .error e → s.Blames room e

namespace Reports

variable {α : Type} {s s₁ : TokenStream} {room : Nat}

theorem ok {a : α} : Reports s room (.ok a) := nofun

/-- A fault shows where the stream stands that reports it. -/
theorem fault {f : SyntaxFault} (hs : s.Reaches s₁) (hf : ∀ limit, f ≠ .depth limit) :
    Reports s room (s₁.fault f : Except SyntaxError α) := by
  intro e he
  cases he
  exact ⟨⟨s₁, hs, rfl⟩, fun limit hlimit => absurd hlimit (hf limit)⟩

theorem expect {x : Symbol} (hs : s.Reaches s₁) : Reports s room (s₁.expect x) := by
  rw [TokenStream.expect]
  split
  · exact .ok
  · exact .fault hs (by simp)

/-- The limit is reported where the nesting has come up to it. -/
theorem enter {limit : Nat} (hroom : 0 < room) : Reports s room (s.enter limit) := by
  rw [TokenStream.enter]
  split
  · next hdeep =>
      intro e he
      cases he
      refine ⟨⟨s, .refl s, rfl⟩, fun limit' hlimit => ?_⟩
      cases hlimit
      omega
  · exact .ok

/-- An operand of a union is reported where it starts. -/
theorem unionOperand {e : Expr} (hs : s.Reaches s₁) :
    Reports s room (unionOperand e s₁.peek.offset) := by
  unfold Query.unionOperand
  split
  · split
    · exact .fault hs (by simp)
    · exact .ok
  · exact .fault hs (by simp)

/-- A call is reported at its name. -/
theorem checkCall {name : String} {args : List Expr} (hs : s.Reaches s₁) :
    Reports s room (checkCall name args s₁.peek.offset) := by
  unfold Query.checkCall
  split
  · exact .fault hs (by simp)
  · split
    · exact .ok
    · exact .fault hs (by simp)

/-- A path fails at its start only if it is a slash with nothing behind it, and then at what stands
there. -/
theorem pathStart : Reports s room (pathStart s) := by
  unfold Query.pathStart
  split
  · next hslash =>
      have hinside : s.Reaches s.advance := .advance (TokenStream.isStop_of_sees hslash)
      dsimp only
      split
      · exact .ok
      · exact .fault hinside (by simp)
  · split <;> exact .ok

/-- A step that fails blames the token it should start with, or the one behind an attribute sign. -/
theorem stepStart {axis : Axis} : Reports s room (stepStart axis s) := by
  unfold Query.stepStart
  split
  · exact .ok
  · exact .ok
  · exact .ok
  · exact .ok
  · next hsign =>
      have hinside : s.Reaches s.advance := .advance (by rw [hsign]; rfl)
      dsimp only
      split
      · exact .ok
      · exact .ok
      · exact .fault hinside (by simp)
  · exact .fault (.refl s) (by simp)

end Reports

end MarkupPath.Query
