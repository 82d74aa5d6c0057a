import MarkupPath.Proofs.Query.Calls
import Mathlib.Data.Nat.Find

/-!
# The limit on nesting

A limit on nesting does nothing but refuse. What is recorded under one limit foretells what is read
under every higher one, unless the lower limit has been refused
(`ofTokens_eq_or_isTooDeep`); and a limit that the calls cannot come up to is never refused
(`lt_of_isTooDeep`). So there is a least limit that is not refused, and `exists_threshold` concludes
that from this one on the limit makes no difference.
-/

set_option autoImplicit false

namespace MarkupPath.Query

variable {limit limit' : Nat}

/-- A higher limit makes no difference where the lower one is not refused. -/
theorem ofTokens_eq_or_isTooDeep (tokens : List Token) (hlimit : limit ≤ limit') :
    Expr.ofTokens limit tokens = Expr.ofTokens limit' tokens ∨
      IsTooDeep limit (Expr.ofTokens limit tokens) := by
  have hfuel := Nat.le_refl (TokenStream.ofTokens tokens).fuel
  have hoccurs := Expr.outcome_recordTokens limit hfuel
  obtain hsame | ⟨-, result, hresult, hdeep⟩ | ⟨hnone, -⟩ :=
    Recorded.computes_recordTokens hlimit hfuel
  · exact .inl (Option.some.inj (hoccurs.symm.trans hsame))
  · rw [hoccurs] at hresult
    exact .inr (Option.some.inj hresult ▸ hdeep)
  · rw [hoccurs] at hnone
    cases hnone

/-- A limit that is refused is lower than the number of calls there may be. -/
theorem lt_of_isTooDeep {tokens : List Token} (h : IsTooDeep limit (Expr.ofTokens limit tokens)) :
    limit < (TokenStream.ofTokens tokens).fuel := by
  obtain ⟨offset, hfault⟩ := h
  have hless := (Expr.blames_of_ofTokens hfault).nested limit rfl
  rwa [TokenStream.depth_ofTokens, Nat.zero_add] at hless

/-- A refusal is not taken back by what comes behind it. -/
theorem IsTooDeep.bind {α β : Type} {m : Except SyntaxError α}
    (f : α → Except SyntaxError β) (h : IsTooDeep limit m) : IsTooDeep limit (m >>= f) := by
  obtain ⟨offset, rfl⟩ := h
  exact ⟨offset, rfl⟩

/-- Every expression is an operand itself, so nothing is read without a level. -/
theorem isTooDeep_ofTokens_zero (tokens : List Token) : IsTooDeep 0 (Expr.ofTokens 0 tokens) := by
  obtain ⟨fuel, hfuel⟩ : ∃ fuel, (TokenStream.ofTokens tokens).fuel = fuel + 2 :=
    ⟨9 * (TokenStream.ofTokens tokens).pending.length + 7, by rw [TokenStream.fuel]; omega⟩
  have henter : IsTooDeep 0 ((TokenStream.ofTokens tokens).enter 0) :=
    ⟨_, if_pos (Nat.succ_pos _)⟩
  rw [Expr.ofTokens]
  dsimp only
  rw [hfuel, parseUnion, parseBinary]
  exact ((henter.bind _).bind _).bind _

/-- The limit never changes what a list of tokens is read as. There is a number of levels that it
takes: under every limit that admits them the outcome is the same, be it an expression or a fault,
and under every lower one it is the fault that names the limit. So a higher limit neither refuses an
expression that a lower one admits nor reads it as another one. -/
theorem exists_threshold (tokens : List Token) :
    (∃ threshold, 0 < threshold ∧
      (∃ result, ∀ limit, threshold ≤ limit → Expr.ofTokens limit tokens = result) ∧
      ∀ limit < threshold, ∃ e, Expr.ofTokens limit tokens = .error e ∧ e.fault = .depth limit) ∧
    ∀ limit limit' e, limit ≤ limit' → Expr.ofTokens limit tokens = .ok e →
      Expr.ofTokens limit' tokens = .ok e := by
  have hsome : ∃ limit, ¬ IsTooDeep limit (Expr.ofTokens limit tokens) :=
    ⟨(TokenStream.ofTokens tokens).fuel, fun h => Nat.lt_irrefl _ (lt_of_isTooDeep h)⟩
  obtain ⟨threshold, hadmitted, hleast⟩ :
      ∃ threshold, ¬ IsTooDeep threshold (Expr.ofTokens threshold tokens) ∧
        ∀ limit < threshold, IsTooDeep limit (Expr.ofTokens limit tokens) := by
    classical
    exact ⟨Nat.find hsome, Nat.find_spec hsome, fun limit h => not_not.1 (Nat.find_min hsome h)⟩
  refine ⟨⟨threshold, ?_, ⟨Expr.ofTokens threshold tokens, fun limit h => ?_⟩, ?_⟩, ?_⟩
  · refine Nat.pos_of_ne_zero ?_
    rintro rfl
    exact hadmitted (isTooDeep_ofTokens_zero tokens)
  · exact ((ofTokens_eq_or_isTooDeep tokens h).resolve_right hadmitted).symm
  · intro limit h
    obtain ⟨offset, hfault⟩ := hleast limit h
    exact ⟨_, hfault, rfl⟩
  · intro limit limit' e hle hok
    obtain hsame | ⟨offset, hfault⟩ := ofTokens_eq_or_isTooDeep tokens hle
    · rw [← hsame, hok]
    · rw [hok] at hfault
      cases hfault

/-- An operand in two pairs of parentheses takes three levels, and a chain of operators two. -/
example :
    (Expr.ofText 2 "((a))").toOption.isNone ∧ (Expr.ofText 3 "((a))").toOption.isSome ∧
      (Expr.ofText 2 "a or a or a or a").toOption.isSome := by
  decide +kernel

end MarkupPath.Query
