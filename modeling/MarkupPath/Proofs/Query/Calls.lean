import MarkupPath.Proofs.Query.Passing
import MarkupPath.Proofs.Query.Recording

/-!
# Calls that move forward

A call of a part of the grammar that succeeds passes at least one token, but neither the last one
nor the first end, and leaves the nesting as it found it (`Expr.calls_of_tokens`). This is shown for
all calls that are recorded while a list of tokens is read: with the tokens before a call passed in
order (`TokenStream.Reaches`), what it calls is in order too (`Recorded.Orderly.At.of_fuel`).

The same induction counts the calls. Each part of the grammar is paid nine calls for a token that
it passes and leaves some of them to the parts that lead to it, so the number of calls is bounded by
the number of tokens alone, and no limit on the nesting is needed to come to an end. It also tells
what is blamed where a part fails: a token that has been reached, or a limit that is no higher than
the number of calls until then.
-/

set_option autoImplicit false

namespace MarkupPath.Query

/-! ## Calls in order -/

/-- A loop need not pass a token in its last turn. -/
def GrammarPart.isLoop : GrammarPart → Bool
  | .paths => true
  | .operators => true
  | .arguments => true
  | .predicates => true
  | _ => false

/-- A call that succeeds passes tokens before the first end, at least one unless it is a turn of a
loop, and leaves the nesting as it is. -/
def Call.Proper (c : Call) : Prop :=
  ∀ s', c.after = some s' → c.before.Reaches s' ∧ s'.depth = c.before.depth ∧
    (c.part.isLoop = false → s'.pending.length < c.before.pending.length)

namespace Recorded

variable {α β : Type} {s s₁ : TokenStream} {used total gain ahead : Nat}

/-- Behind `used` calls all calls are proper, they start before the first end that is unread in `s`,
and with them there are at most `total`; a result has the property, with the number of calls until
then, and a fault blames what is unread in `s`, with room for all these calls. -/
structure Within (s : TokenStream) (used total : Nat) (P : α → Nat → Prop) (m : Recorded α) :
    Prop where
  proper : ∀ c ∈ m.calls, s.Reaches c.before ∧ c.Proper
  length_le : used + m.calls.length ≤ total
  answered : ∀ a, m.outcome = some (.ok a) → P a (used + m.calls.length)
  refused : ∀ e, m.outcome = some (.error e) → s.Blames total e

/-- Behind `used` calls one stream, and behind `calls` calls another that is reached from it, inside
as many operands: between them are at most nine calls for each token that is passed, and `gain` less
nine. -/
structure Paid (gain : Nat) (s : TokenStream) (used : Nat) (s' : TokenStream) (calls : Nat) :
    Prop where
  reaches : s.Reaches s'
  depth : s'.depth = s.depth
  spent : calls + 9 * (s'.pending.length + 1) ≤ used + 9 * s.pending.length + gain

/-- A part of the grammar that starts at `s` makes at most nine calls for each token that is unread,
and `ahead` more; if it succeeds, nine for each token that is passed, and `gain` less nine. -/
def Orderly (gain ahead : Nat) (s : TokenStream) (m : Recorded (α × TokenStream)) : Prop :=
  Within s 0 (9 * s.pending.length + ahead) (fun r calls => Paid gain s 0 r.2 calls) m

namespace Within

variable {P : α → Nat → Prop} {Q : β → Nat → Prop} {m : Recorded α} {a : α}

theorem pure (hP : P a used) (hroom : used ≤ total) : Within s used total P (Pure.pure a) := by
  refine ⟨List.forall_mem_nil _, hroom, ?_, nofun⟩
  intro a' ha
  cases ha
  exact hP

/-- A check makes no call: it answers with what it finds, or it fails and has to blame what is
unread. -/
theorem lift {r : Except SyntaxError α} (hr : Reports s total r) (hroom : used ≤ total)
    (hP : ∀ a, r = .ok a → P a used) : Within s used total P (Recorded.lift r) :=
  ⟨List.forall_mem_nil _, hroom, fun a ha => hP a (Option.some.inj ha),
    fun e he => hr e (Option.some.inj he)⟩

theorem fault {f : SyntaxFault} (hs : s.Reaches s₁) (hf : ∀ limit, f ≠ .depth limit)
    (hroom : used ≤ total) : Within s used total P (Recorded.lift (s₁.fault f)) :=
  lift (.fault hs hf) hroom nofun

/-- The calls of the second part come behind those of the first. -/
theorem bind {f : α → Recorded β} (hm : Within s used total P m)
    (hf : ∀ a calls, calls ≤ total → P a calls → Within s calls total Q (f a)) :
    Within s used total Q (m >>= f) := by
  obtain ⟨hproper, hlength, hanswered, hrefused⟩ := hm
  obtain ⟨calls, _ | e | a⟩ := m
  · -- without an outcome there is nothing behind the calls
    exact ⟨hproper, hlength, nofun, nofun⟩
  · refine ⟨hproper, hlength, nofun, fun e' he => ?_⟩
    cases he
    exact hrefused e rfl
  · obtain ⟨hproper', hlength', hanswered', hrefused'⟩ := hf a _ hlength (hanswered a rfl)
    have hcount : used + (calls ++ (f a).calls).length =
        used + calls.length + (f a).calls.length := by
      rw [List.length_append, Nat.add_assoc]
    refine ⟨List.forall_mem_append.2 ⟨hproper, hproper'⟩, ?_, fun b hb => ?_, hrefused'⟩
    · exact hcount ▸ hlength'
    · exact hcount ▸ hanswered' b hb

/-- A check in front of further calls. -/
theorem bind_lift {r : Except SyntaxError α} {f : α → Recorded β} (hr : Reports s total r)
    (hroom : used ≤ total) (hf : ∀ a, r = .ok a → Within s used total Q (f a)) :
    Within s used total Q (liftM r >>= f) := by
  cases r with
  | error e =>
    refine ⟨List.forall_mem_nil _, hroom, nofun, fun e' he => ?_⟩
    cases he
    exact hr e rfl
  | ok a => exact hf a rfl

end Within

/-- The end of a part of the grammar. -/
theorem Paid.returns {a : α} {s' : TokenStream} {calls : Nat} (h : Paid gain s 0 s' calls)
    (hroom : calls ≤ total) :
    Within s calls total (fun r calls => Paid gain s 0 r.2 calls) (Pure.pure (a, s')) :=
  .pure h hroom

namespace Orderly

variable {P : α × TokenStream → Nat → Prop} {Q : β → Nat → Prop}
  {m : Recorded (α × TokenStream)} {part : GrammarPart}

/-- A part of the grammar may be called later on, at another stream. -/
theorem within (h : Orderly gain ahead s₁ m) (hs : s.Reaches s₁)
    (hroom : used + 9 * s₁.pending.length + ahead ≤ total ∧
      s₁.depth + 9 * s₁.pending.length + ahead ≤ s.depth + total)
    (hP : ∀ a s' calls, Paid gain s₁ used s' calls → P (a, s') calls) :
    Within s used total P m := by
  obtain ⟨hproper, hlength, hanswered, hrefused⟩ := h
  refine ⟨fun c hc => ⟨hs.trans (hproper c hc).1, (hproper c hc).2⟩, by omega, ?_, ?_⟩
  · rintro ⟨a, s'⟩ ha
    obtain ⟨hreaches, hdepth, hspent⟩ := hanswered _ ha
    dsimp only at hspent
    exact hP a s' _ ⟨hreaches, hdepth, by omega⟩
  · exact fun e he => (hrefused e he).of_reaches hs (by omega)

theorem bind {f : α × TokenStream → Recorded β} (h : Orderly gain ahead s₁ m) (hs : s.Reaches s₁)
    (hroom : used + 9 * s₁.pending.length + ahead ≤ total ∧
      s₁.depth + 9 * s₁.pending.length + ahead ≤ s.depth + total)
    (hf : ∀ a s' calls, calls ≤ total → Paid gain s₁ used s' calls →
      Within s calls total Q (f (a, s'))) : Within s used total Q (m >>= f) :=
  (h.within hs hroom fun _ _ _ hpaid => hpaid).bind fun r calls => hf r.1 r.2 calls

/-- A part of the grammar may be called behind a token. With what it spends it leaves the nine calls
for that token. -/
theorem bind_advance {f : α × TokenStream → Recorded β} (h : Orderly gain ahead s₁.advance m)
    (hk : s₁.peek.kind.isStop = false) (hs : s.Reaches s₁)
    (hroom : used + 9 * s₁.pending.length + ahead ≤ total + 9 ∧
      s₁.depth + 9 * s₁.pending.length + ahead ≤ s.depth + total + 9)
    (hf : ∀ a s' calls, calls ≤ total → Paid gain s₁ used s' (calls + 9) →
      Within s calls total Q (f (a, s'))) : Within s used total Q (m >>= f) := by
  have hlength := TokenStream.length_advance hk
  have hdepth : s₁.advance.depth = s₁.depth := rfl
  refine h.bind (hs.trans (.advance hk)) (by omega) ?_
  rintro a s' calls hcalls ⟨hreaches, hdepth', hspent⟩
  exact hf a s' calls hcalls ⟨.trans (.advance hk) hreaches, hdepth'.trans hdepth, by omega⟩

/-- What is read behind one call, as that call. -/
theorem asCall (hgain : part.isLoop = false → gain ≤ 9)
    (hm : Within s 1 (9 * s.pending.length + ahead) (fun r calls => Paid gain s 0 r.2 calls) m) :
    Orderly gain ahead s (m.asCall part s) := by
  obtain ⟨hproper, hlength, hanswered, hrefused⟩ := hm
  have hcount : 0 + (m.asCall part s).calls.length = 1 + m.calls.length := by
    rw [Recorded.asCall, List.length_cons, Nat.zero_add, Nat.add_comm]
  refine ⟨List.forall_mem_cons.2 ⟨⟨.refl s, ?_⟩, hproper⟩, hcount ▸ hlength,
    fun r hr => hcount ▸ hanswered r hr, hrefused⟩
  intro s' hs'
  obtain ⟨calls, _ | e | r⟩ := m
  · cases hs'
  · cases hs'
  · cases hs'
    obtain ⟨hreaches, hdepth, hspent⟩ := hanswered r rfl
    refine ⟨hreaches, hdepth, fun hloop => ?_⟩
    -- the call itself is one of the nine that are paid for by the first token
    have hnine := hgain hloop
    dsimp only at hspent ⊢
    omega

/-- A call that is not finished has no outcome to be asked for. -/
theorem unfinished (hahead : 0 < ahead) :
    Orderly gain ahead s (Recorded.unfinished.asCall part s : Recorded (α × TokenStream)) := by
  refine ⟨List.forall_mem_singleton.2 ⟨.refl s, nofun⟩, ?_, nofun, nofun⟩
  rw [Recorded.asCall, Recorded.unfinished, List.length_singleton]
  omega

/-- The parts of the grammar are orderly with so much fuel. -/
structure At (limit fuel : Nat) : Prop where
  -- of the nine calls for its first token a part leaves those of the parts that lead to it
  union (s : TokenStream) : Orderly 9 6 s (recordUnion limit fuel s)
  paths (s : TokenStream) : Orderly 10 1 s (recordPaths limit fuel s)
  binary (power : Nat) (s : TokenStream) : Orderly 7 5 s (recordBinary limit fuel power s)
  operators (power : Nat) (left : Expr) (s : TokenStream) :
    Orderly 10 1 s (recordOperators limit fuel power left s)
  signed (s : TokenStream) : Orderly 5 4 s (recordPrefix limit fuel s)
  primary (s : TokenStream) : Orderly 4 3 s (recordPrimary limit fuel s)
  call (name : String) (s : TokenStream) (hs : s.peek.kind.isStop = false) :
    Orderly 3 1 s (recordCall limit fuel name s)
  arguments (s : TokenStream) : Orderly 10 7 s (recordArguments limit fuel s)
  path (s : TokenStream) : Orderly 3 2 s (recordPath limit fuel s)
  steps (axis : Axis) (s : TokenStream) : Orderly 2 1 s (recordSteps limit fuel axis s)
  predicates (test : NodeTest) (s : TokenStream) :
    Orderly 10 1 s (recordPredicates limit fuel test s)

namespace At

variable {limit : Nat}

/-- Without fuel every part is a single call, for which each of them has room. -/
theorem zero : At limit 0 where
  union s := by rw [recordUnion]; exact unfinished (by decide)
  paths s := by rw [recordPaths]; exact unfinished (by decide)
  binary _ s := by rw [recordBinary]; exact unfinished (by decide)
  operators _ _ s := by rw [recordOperators]; exact unfinished (by decide)
  signed s := by rw [recordPrefix]; exact unfinished (by decide)
  primary s := by rw [recordPrimary]; exact unfinished (by decide)
  call _ s _ := by rw [recordCall]; exact unfinished (by decide)
  arguments s := by rw [recordArguments]; exact unfinished (by decide)
  path s := by rw [recordPath]; exact unfinished (by decide)
  steps _ s := by rw [recordSteps]; exact unfinished (by decide)
  predicates _ s := by rw [recordPredicates]; exact unfinished (by decide)

variable {fuel : Nat} (h : At limit fuel) (s : TokenStream)
include h

/-- The first operand leaves two of the nine calls of its first token: one for the union itself and
one for the turn of the loop that finds no bar. -/
theorem union_succ : Orderly 9 6 s (recordUnion limit (fuel + 1) s) := by
  rw [recordUnion]
  refine asCall (by decide) ((h.binary _ s).bind (.refl s) (by omega) ?_)
  rintro first s₁ k hk ⟨hs₁, hdepth, hspent⟩
  dsimp only
  split
  · refine .bind_lift (.unionOperand (.refl s)) hk fun path _ =>
      (h.paths s₁).bind hs₁ (by omega) ?_
    rintro paths s₂ k' hk' ⟨hs₂, hdepth', hspent'⟩
    exact Paid.returns ⟨hs₁.trans hs₂, hdepth'.trans hdepth, by dsimp only; omega⟩ hk'
  · exact Paid.returns ⟨hs₁, hdepth, by omega⟩ hk

/-- The bar pays for the turn of the loop. The turn that finds none is paid for by whoever calls the
loop. -/
theorem paths_succ : Orderly 10 1 s (recordPaths limit (fuel + 1) s) := by
  rw [recordPaths]
  refine asCall (by decide) ?_
  split
  · next hpipe =>
    have hstop := TokenStream.isStop_of_sees hpipe
    refine (h.binary _ s.advance).bind_advance hstop (.refl s) (by omega) ?_
    rintro operand s₁ k hk ⟨hs₁, hdepth, hspent⟩
    refine .bind_lift (.unionOperand (.advance hstop)) hk fun path _ =>
      (h.paths s₁).bind hs₁ (by omega) ?_
    rintro paths s₂ k' hk' ⟨hs₂, hdepth', hspent'⟩
    exact Paid.returns ⟨hs₁.trans hs₂, hdepth'.trans hdepth, by omega⟩ hk'
  · exact Paid.returns ⟨.refl s, rfl, by omega⟩ (by omega)

/-- An operand is entered, a sign and its operand are read, then the operators; the nesting is left
again by the same amount. -/
theorem binary_succ (power : Nat) : Orderly 7 5 s (recordBinary limit (fuel + 1) power s) := by
  rw [recordBinary]
  refine asCall (by decide) (.bind_lift (.enter (by omega)) (by omega) fun inside hinside => ?_)
  obtain ⟨-, rfl⟩ := TokenStream.enter_eq_ok hinside
  have henter : s.Reaches { s with depth := s.depth + 1 } := .refl s
  refine (h.signed _).bind henter (by dsimp only; omega) ?_
  rintro left s₁ k hk ⟨hs₁, hdepth, hspent⟩
  dsimp only at hspent hdepth
  refine (h.operators power left s₁).bind (henter.trans hs₁) (by omega) ?_
  rintro e s₂ k' hk' ⟨hs₂, hdepth', hspent'⟩
  -- the operand that was entered is left
  have hleave : s₂.leave.depth = s.depth := by
    rw [TokenStream.leave, hdepth', hdepth]
    rfl
  have hlength : s₂.leave.pending.length = s₂.pending.length := rfl
  exact Paid.returns ⟨(henter.trans hs₁).trans hs₂, hleave, by omega⟩ hk'

/-- The operator pays for the turn of the loop that it is read in. -/
theorem operators_succ (power : Nat) (left : Expr) :
    Orderly 10 1 s (recordOperators limit (fuel + 1) power left s) := by
  rw [recordOperators]
  refine asCall (by decide) ?_
  split
  · exact Paid.returns ⟨.refl s, rfl, by omega⟩ (by omega)
  · next op hop =>
    split
    · exact Paid.returns ⟨.refl s, rfl, by omega⟩ (by omega)
    · refine (h.binary _ s.advance).bind_advance (isStop_of_binaryOp? hop) (.refl s) (by omega) ?_
      rintro right s₁ k hk ⟨hs₁, hdepth, hspent⟩
      refine (h.operators power _ s₁).within hs₁ (by omega) ?_
      rintro e s₂ k' ⟨hs₂, hdepth', hspent'⟩
      exact ⟨hs₁.trans hs₂, hdepth'.trans hdepth, by dsimp only; omega⟩

/-- A sign pays for this call; without one the operand leaves one for it. -/
theorem signed_succ : Orderly 5 4 s (recordPrefix limit (fuel + 1) s) := by
  rw [recordPrefix]
  refine asCall (by decide) ?_
  split
  · next hnot =>
    have hstop := TokenStream.isStop_of_sees (Bool.and_eq_true_iff.1 hnot).1
    refine (h.binary _ s.advance).bind_advance hstop (.refl s) (by omega) ?_
    rintro arg s₁ k hk ⟨hs₁, hdepth, hspent⟩
    exact Paid.returns ⟨hs₁, hdepth, by omega⟩ hk
  · split
    · next hminus =>
      have hstop := TokenStream.isStop_of_sees hminus
      refine (h.binary _ s.advance).bind_advance hstop (.refl s) (by omega) ?_
      rintro arg s₁ k hk ⟨hs₁, hdepth, hspent⟩
      exact Paid.returns ⟨hs₁, hdepth, by omega⟩ hk
    · refine (h.primary s).within (.refl s) (by omega) ?_
      rintro e s₁ k ⟨hs₁, hdepth, hspent⟩
      exact ⟨hs₁, hdepth, by dsimp only; omega⟩

/-- A literal passes its token and calls nothing. A parenthesis pays for this call; a call by name
and a path leave one for it. -/
theorem primary_succ : Orderly 4 3 s (recordPrimary limit (fuel + 1) s) := by
  have hpath : Within s 1 (9 * s.pending.length + 3) (fun r calls => Paid 4 s 0 r.2 calls)
      (recordPath limit fuel s) := by
    refine (h.path s).within (.refl s) (by omega) ?_
    rintro e s₁ k ⟨hs₁, hdepth, hspent⟩
    exact ⟨hs₁, hdepth, by dsimp only; omega⟩
  have hliteral : ∀ e : Expr, s.peek.kind.isStop = false →
      Within s 1 (9 * s.pending.length + 3) (fun r calls => Paid 4 s 0 r.2 calls)
        (pure (e, s.advance)) := by
    intro e hstop
    have hlength := TokenStream.length_advance hstop
    exact Paid.returns ⟨.advance hstop, rfl, by omega⟩ (by omega)
  rw [recordPrimary]
  refine asCall (by decide) ?_
  split
  · next hkind => exact hliteral _ (by rw [hkind]; rfl)
  · next hkind => exact hliteral _ (by rw [hkind]; rfl)
  · next hkind =>
    have hstop : s.peek.kind.isStop = false := by rw [hkind]; rfl
    refine (h.union s.advance).bind_advance hstop (.refl s) (by omega) ?_
    rintro e s₁ k hk ⟨hs₁, hdepth, hspent⟩
    refine .bind_lift (.expect hs₁) hk fun s₂ hs₂ => ?_
    have hclose := TokenStream.length_of_expect hs₂
    have hdepth' := TokenStream.depth_of_expect hs₂
    exact Paid.returns ⟨hs₁.trans (.expect hs₂), hdepth'.trans hdepth, by omega⟩ hk
  · next hkind =>
    refine (h.call "not" s (by rw [hkind]; rfl)).bind (.refl s) (by omega) ?_
    rintro args s₁ k hk ⟨hs₁, hdepth, hspent⟩
    dsimp only
    split
    · exact Paid.returns ⟨hs₁, hdepth, by omega⟩ hk
    · exact .fault (.refl s) (by simp) hk
  · next name hkind =>
    split
    · refine (h.call name s (by rw [hkind]; rfl)).bind (.refl s) (by omega) ?_
      rintro args s₁ k hk ⟨hs₁, hdepth, hspent⟩
      exact Paid.returns ⟨hs₁, hdepth, by omega⟩ hk
    · exact hpath
  · split
    · exact hpath
    · exact .fault (.refl s) (by simp) (by omega)

/-- The name and the parentheses of a call pay for it; `hclose` is the end of a call with arguments
and without. -/
theorem call_succ (name : String) (hs : s.peek.kind.isStop = false) :
    Orderly 3 1 s (recordCall limit (fuel + 1) name s) := by
  have hclose : ∀ (args : List Expr) (s₁ : TokenStream) (k : Nat),
      k ≤ 9 * s.pending.length + 1 → s.Reaches s₁ → s₁.depth = s.depth →
      k + 9 * s₁.pending.length ≤ 9 * s.pending.length + 3 →
      Within s k (9 * s.pending.length + 1) (fun r calls => Paid 3 s 0 r.2 calls)
        (liftM (s₁.expect .closeParen) >>= fun s₂ =>
          liftM (checkCall name args s.peek.offset) >>= fun args => pure (args, s₂)) := by
    intro args s₁ k hk hs₁ hdepth hspent
    refine .bind_lift (.expect hs₁) hk fun s₂ hs₂ =>
      .bind_lift (.checkCall (.refl s)) hk fun args' _ => ?_
    have hlength := TokenStream.length_of_expect hs₂
    have hdepth' := TokenStream.depth_of_expect hs₂
    exact Paid.returns ⟨hs₁.trans (.expect hs₂), hdepth'.trans hdepth, by omega⟩ hk
  rw [recordCall]
  have hname := TokenStream.length_advance hs
  refine asCall (by decide)
    (.bind_lift (.expect (.advance hs)) (by omega) fun inside hopen => ?_)
  have hlength := TokenStream.length_of_expect hopen
  have hinside : s.Reaches inside := .trans (.advance hs) (.expect hopen)
  have hdepth : inside.depth = s.depth := (TokenStream.depth_of_expect hopen).trans rfl
  dsimp only
  split
  · exact hclose [] inside 1 (by omega) hinside hdepth (by omega)
  · refine (h.arguments inside).bind hinside (by omega) ?_
    rintro args s₁ k hk ⟨hs₁, hdepth', hspent⟩
    exact hclose args s₁ k hk (hinside.trans hs₁) (hdepth'.trans hdepth) (by omega)

/-- The comma pays for the turn of the loop behind it. -/
theorem arguments_succ : Orderly 10 7 s (recordArguments limit (fuel + 1) s) := by
  rw [recordArguments]
  refine asCall (by decide) ((h.union s).bind (.refl s) (by omega) ?_)
  rintro arg s₁ k hk ⟨hs₁, hdepth, hspent⟩
  dsimp only
  split
  · next hcomma =>
    have hstop := TokenStream.isStop_of_sees hcomma
    refine (h.arguments s₁.advance).bind_advance hstop hs₁ (by omega) ?_
    rintro args s₂ k' hk' ⟨hs₂, hdepth', hspent'⟩
    exact Paid.returns ⟨hs₁.trans hs₂, hdepth'.trans hdepth, by dsimp only; omega⟩ hk'
  · exact Paid.returns ⟨hs₁, hdepth, by omega⟩ hk

/-- The slash in front of a path may be missing, so it is the first step that leaves a call for the
path. -/
theorem path_succ : Orderly 3 2 s (recordPath limit (fuel + 1) s) := by
  rw [recordPath]
  refine asCall (by decide) (.bind_lift .pathStart (by omega) ?_)
  rintro ⟨absolute, axis, s₁⟩ hstart
  have hs₁ := reaches_of_pathStart hstart
  have hlength := hs₁.length_le
  have hdepth := TokenStream.depth_of_pathStart hstart
  refine (h.steps axis s₁).bind hs₁ (by omega) ?_
  rintro steps s₂ k hk ⟨hs₂, hdepth', hspent⟩
  exact Paid.returns ⟨hs₁.trans hs₂, hdepth'.trans hdepth, by omega⟩ hk

/-- A step with its predicates, as the record has it: one call for all of it. -/
theorem step_succ (axis : Axis) : Orderly 2 1 s (Recorded.asCall .step s do
    let (before, axis, test, s₁) ← stepStart axis s
    let (predicates, s₂) ← recordPredicates limit fuel test s₁
    return ((before ++ [⟨axis, test, predicates⟩], test), s₂)) := by
  refine asCall (by decide) (.bind_lift .stepStart (by omega) ?_)
  rintro ⟨before, axis', test, s₁⟩ hok
  have hstart := stepStart_eq_ok hok
  have hs₁ := hstart.reaches
  have hlength := hstart.length_lt
  have hdepth := hstart.depth_eq
  refine (h.predicates test s₁).bind hs₁ (by omega) ?_
  rintro predicates s₂ k hk ⟨hs₂, hdepth', hspent⟩
  exact Paid.returns ⟨hs₁.trans hs₂, hdepth'.trans hdepth, by omega⟩ hk

/-- The loop over the steps is no call, only each step is one. A separator pays for the steps behind
it. -/
theorem steps_succ (axis : Axis) : Orderly 2 1 s (recordSteps limit (fuel + 1) axis s) := by
  rw [recordSteps]
  refine (h.step_succ s axis).bind (.refl s) (by omega) ?_
  rintro ⟨steps, test⟩ s₂ k hk ⟨hs₂, hdepth, hspent⟩
  dsimp only
  split
  · exact Paid.returns ⟨hs₂, hdepth, by omega⟩ hk
  · next next hseparator =>
    split
    · exact .fault hs₂ (by simp) hk
    · have hstop := isStop_of_separatorAxis? hseparator
      refine (h.steps next s₂.advance).bind_advance hstop hs₂ (by omega) ?_
      rintro later s₃ k' hk' ⟨hs₃, hdepth', hspent'⟩
      exact Paid.returns ⟨hs₂.trans hs₃, hdepth'.trans hdepth, by dsimp only; omega⟩ hk'

/-- The brackets pay for the turn of the loop that reads the predicate between them. -/
theorem predicates_succ (test : NodeTest) :
    Orderly 10 1 s (recordPredicates limit (fuel + 1) test s) := by
  rw [recordPredicates]
  refine asCall (by decide) ?_
  split
  · next hopen =>
    split
    · exact .fault (.refl s) (by simp) (by omega)
    · have hstop := TokenStream.isStop_of_sees hopen
      refine (h.union s.advance).bind_advance hstop (.refl s) (by omega) ?_
      rintro predicate s₁ k hk ⟨hs₁, hdepth, hspent⟩
      refine .bind_lift (.expect hs₁) hk fun s₂ hs₂ => ?_
      have hclose := TokenStream.length_of_expect hs₂
      have hdepth' := TokenStream.depth_of_expect hs₂
      have hbehind : s.Reaches s₂ := hs₁.trans (.expect hs₂)
      refine (h.predicates test s₂).bind hbehind (by omega) ?_
      rintro later s₃ k' hk' ⟨hs₃, hdepth'', hspent'⟩
      exact Paid.returns ⟨hbehind.trans hs₃, hdepth''.trans (hdepth'.trans hdepth), by omega⟩ hk'
  · exact Paid.returns ⟨.refl s, rfl, by omega⟩ (by omega)

omit h in
/-- All parts are orderly, whatever the fuel and the limit: what is not recorded for want of fuel
does not count, and a limit only ends the reading earlier. -/
theorem of_fuel (limit fuel : Nat) : At limit fuel := by
  induction fuel with
  | zero => exact zero
  | succ fuel ih =>
    exact {
      union := ih.union_succ
      paths := ih.paths_succ
      binary := fun power s => ih.binary_succ s power
      operators := fun power left s => ih.operators_succ s power left
      signed := ih.signed_succ
      primary := ih.primary_succ
      call := fun name s hs => ih.call_succ s name hs
      arguments := ih.arguments_succ
      path := ih.path_succ
      steps := fun axis s => ih.steps_succ s axis
      predicates := fun test s => ih.predicates_succ s test }

end At

end Orderly

end Recorded

/-! ## Lists of tokens -/

namespace TokenStream

/-- The stream behind the first `i` tokens of a list: `i` is at most the place of the last token,
which is the end that is added where none stands last, and of the first end. -/
structure StandsAt (tokens : List Token) (i : Nat) (s : TokenStream) : Prop where
  pending : s.pending = (ofTokens tokens).pending.drop i
  stop : s.stop = (ofTokens tokens).stop
  le_last : i ≤ (ofTokens tokens).pending.length
  le_end : i ≤ tokens.findIdx fun token => token.kind.isStop

variable {tokens : List Token} {s s' : TokenStream}

/-- The end is not among the unread tokens, nor are any added. -/
theorem isPrefix_ofTokens (tokens : List Token) : (ofTokens tokens).pending <+: tokens := by
  rw [ofTokens]
  split
  · exact List.nil_prefix
  · split
    · exact tokens.dropLast_prefix
    · exact List.prefix_rfl

/-- A stream that is reached from the start of a list stands behind as many tokens as have been
passed, and as none of them is an end, not behind the first one. -/
theorem Reaches.standsAt (h : (ofTokens tokens).Reaches s) :
    s.StandsAt tokens ((ofTokens tokens).pending.length - s.pending.length) := by
  obtain ⟨hstop, passed, hpending, hends⟩ := h
  have hcount : (ofTokens tokens).pending.length - s.pending.length = passed.length := by
    rw [hpending, List.length_append, Nat.add_sub_cancel]
  rw [hcount]
  refine ⟨by rw [hpending, List.drop_left], hstop, ?_, ?_⟩
  · rw [hpending, List.length_append]
    exact Nat.le_add_right _ _
  · obtain ⟨rest, hrest⟩ := isPrefix_ofTokens tokens
    have hnone : ¬ ∃ t ∈ passed, t.kind.isStop = true := by
      rintro ⟨t, ht, htstop⟩
      rw [hends t ht] at htstop
      cases htstop
    rw [← hrest, hpending, List.append_assoc, List.findIdx_append,
      if_neg (mt List.findIdx_lt_length.1 hnone)]
    exact Nat.le_add_left _ _

/-- Nine calls for each token are enough. -/
theorem fuel_ofTokens_le (tokens : List Token) : (ofTokens tokens).fuel ≤ 9 * (tokens.length + 1) :=
  Nat.mul_le_mul_left 9 (Nat.succ_le_succ (isPrefix_ofTokens tokens).length_le)

end TokenStream

/-- A call while a list of tokens is read. Where it starts at one of the tokens and succeeds, it
moves forward to another, unless it is a turn of a loop, and leaves the nesting as it is. -/
def Call.Advances (tokens : List Token) (c : Call) : Prop :=
  ∃ i, c.before.StandsAt tokens i ∧ ∀ s', c.after = some s' →
    s'.depth = c.before.depth ∧
      ∃ j, s'.StandsAt tokens j ∧ i ≤ j ∧ (c.part.isLoop = false → i < j)

/-- Streams that are reached have places in the list, and to pass a token is to come to a later
place. -/
theorem Call.Proper.advances {tokens : List Token} {c : Call} (h : c.Proper)
    (hbefore : (TokenStream.ofTokens tokens).Reaches c.before) : c.Advances tokens := by
  refine ⟨_, hbefore.standsAt, fun s' hs' => ?_⟩
  obtain ⟨hreaches, hdepth, hpassed⟩ := h s' hs'
  have hstart := hbefore.length_le
  have hlength := hreaches.length_le
  refine ⟨hdepth, _, (hbefore.trans hreaches).standsAt, by omega, fun hloop => ?_⟩
  have hless := hpassed hloop
  omega

open Recorded (Computes Within Orderly)

/-- The calls for a list of tokens are proper, and there are few of them. -/
theorem Recorded.within_recordTokens (limit fuel : Nat) (tokens : List Token) :
    Within (TokenStream.ofTokens tokens) 0 (TokenStream.ofTokens tokens).fuel (fun _ _ => True)
      (Expr.recordTokens limit fuel tokens) := by
  have hunion := (Orderly.At.of_fuel limit fuel).union (TokenStream.ofTokens tokens)
  refine hunion.bind (.refl _) (by rw [TokenStream.fuel]; omega) ?_
  rintro e rest calls hcalls ⟨hrest, -, -⟩
  dsimp only
  split
  · exact .pure trivial hcalls
  · exact .fault hrest (by simp) hcalls

/-- More fuel than nine calls for each token makes no difference. -/
theorem parseUnion_fuel (limit : Nat) {fuel : Nat} {s : TokenStream} (hfuel : s.fuel ≤ fuel) :
    parseUnion limit fuel s = parseUnion limit s.fuel s := by
  have hcount : 0 + (recordUnion limit s.fuel s).calls.length ≤ 9 * s.pending.length + 6 :=
    ((Orderly.At.of_fuel limit s.fuel).union s).length_le
  have hnine : s.fuel = 9 * (s.pending.length + 1) := rfl
  have hfew : (recordUnion limit s.fuel s).calls.length ≤ s.fuel := by omega
  -- the record with so much fuel foretells what is read with more
  have houtcome : ∀ fuel', s.fuel ≤ fuel' →
      (recordUnion limit s.fuel s).outcome = some (parseUnion limit fuel' s) := by
    intro fuel' hle
    have hcomputes := (Computes.At.of_le (Nat.le_refl limit) hle).union s
    exact hcomputes.outcome_eq hfew
  exact Option.some.inj ((houtcome fuel hfuel).symm.trans (houtcome s.fuel (Nat.le_refl _)))

/-- What is recorded under one limit foretells what is read under each higher one. -/
theorem Recorded.computes_recordTokens {limit limit' fuel : Nat} {tokens : List Token}
    (hlimit : limit ≤ limit') (hfuel : (TokenStream.ofTokens tokens).fuel ≤ fuel) :
    Computes limit limit' fuel (Expr.recordTokens limit fuel tokens)
      (Expr.ofTokens limit' tokens) := by
  rw [Expr.ofTokens, ← parseUnion_fuel limit' hfuel]
  refine ((Computes.At.of_le hlimit (Nat.le_refl fuel)).union _).bind ?_
  rintro ⟨e, rest⟩
  dsimp only
  split
  · exact .pure _
  · exact .lift

/-- What is recorded is what is read. -/
theorem Expr.outcome_recordTokens (limit : Nat) {fuel : Nat} {tokens : List Token}
    (hfuel : (TokenStream.ofTokens tokens).fuel ≤ fuel) :
    (Expr.recordTokens limit fuel tokens).outcome = some (Expr.ofTokens limit tokens) := by
  have hcount := (Recorded.within_recordTokens limit fuel tokens).length_le
  rw [Nat.zero_add] at hcount
  exact (Recorded.computes_recordTokens (Nat.le_refl limit) hfuel).outcome_eq
    (Nat.le_trans hcount hfuel)

/-- Where a list of tokens is not read, one of them is blamed. -/
theorem Expr.blames_of_ofTokens {limit : Nat} {tokens : List Token} {e : SyntaxError}
    (h : Expr.ofTokens limit tokens = .error e) :
    (TokenStream.ofTokens tokens).Blames (TokenStream.ofTokens tokens).fuel e := by
  refine (Recorded.within_recordTokens limit (TokenStream.ofTokens tokens).fuel tokens).refused e ?_
  rw [Expr.outcome_recordTokens limit (Nat.le_refl _), h]

/-- While a list of tokens is read, whatever its ends and the limit are, every call that succeeds
moves forward, over tokens before the last one and the first end, and leaves the nesting as it is.
There are at most nine calls for each token, and with fuel for them what is read is what the grammar
reads. -/
theorem Expr.calls_of_tokens (limit fuel : Nat) (tokens : List Token) :
    (∀ c ∈ (Expr.recordTokens limit fuel tokens).calls, c.Advances tokens) ∧
      (Expr.recordTokens limit fuel tokens).calls.length ≤ 9 * (tokens.length + 1) ∧
      (9 * (tokens.length + 1) ≤ fuel →
        (Expr.recordTokens limit fuel tokens).outcome = some (Expr.ofTokens limit tokens)) := by
  obtain ⟨hproper, hcount, -, -⟩ := Recorded.within_recordTokens limit fuel tokens
  rw [Nat.zero_add] at hcount
  have hfuel := TokenStream.fuel_ofTokens_le tokens
  exact ⟨fun c hc => (hproper c hc).2.advances (hproper c hc).1, Nat.le_trans hcount hfuel,
    fun henough => Expr.outcome_recordTokens limit (Nat.le_trans hfuel henough)⟩

/-- Tokens with an end inside and none at the end. -/
def endInside : List Token :=
  [⟨.name "a", 0⟩, ⟨.symbol .openBracket, 1⟩, ⟨.symbol .atSign, 2⟩, ⟨.name "b", 3⟩,
    ⟨.symbol .closeBracket, 4⟩, ⟨.stop, 5⟩, ⟨.name "c", 6⟩]

/-- Among the calls for these tokens is one for the first step, which goes over its predicate up to
the end inside. -/
theorem Expr.calls_of_tokens_endInside :
    ∃ c ∈ (Expr.recordTokens 1000000 72 endInside).calls,
      c.part = .step ∧ c.before.StandsAt endInside 0 ∧
        (∃ s', c.after = some s' ∧ s'.StandsAt endInside 5) ∧ c.Advances endInside ∧
          9 * (endInside.length + 1) ≤ 72 ∧ (Expr.recordTokens 1000000 72 endInside).outcome =
            some (Expr.ofTokens 1000000 endInside) := by
  obtain ⟨hadvances, -, houtcome⟩ := Expr.calls_of_tokens 1000000 72 endInside
  have hfuel : 9 * (endInside.length + 1) ≤ 72 := by decide
  have hc : (Expr.recordTokens 1000000 72 endInside).calls[5] ∈
      (Expr.recordTokens 1000000 72 endInside).calls := List.getElem_mem (by decide)
  exact ⟨_, hc, rfl, ⟨rfl, rfl, by decide, by decide⟩,
    ⟨_, rfl, rfl, rfl, by decide, by decide⟩, hadvances _ hc, hfuel, houtcome hfuel⟩

end MarkupPath.Query
