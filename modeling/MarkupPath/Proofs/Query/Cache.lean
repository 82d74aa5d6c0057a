import MarkupPath.Query.Cache
import Mathlib.Data.List.Basic
import Mathlib.Data.List.Induction

/-!
# The cache changes no answers

The laws of a map that drops what was not used for longest are those of `LawfulRecencyMap`. Over any
such map a use of the cache has one of three outcomes (`got`): the text is kept, it is compiled, or
it has a fault. The texts that a cache keeps can be told from the uses alone, as the `recent` ones:
those of the successful uses since the cache was last cleared, the latest in front and each once, as
many as there is room for. `Represents` is the invariant that says so, together with where each kept
expression comes from; every use preserves it (`represents_step`). So the cache answers every use
as compiling would, and it shares a tree exactly where the text is a recent one (`get_after`).
-/

set_option autoImplicit false

namespace MarkupPath.Query

/-! ## Lists without repetition -/

section Lists

variable {α : Type} [BEq α] [LawfulBEq α]

/-- Which elements of a list are kept may be decided before or behind leaving out its
repetitions. -/
theorem eraseDups_filter (p : α → Bool) (l : List α) :
    (l.filter p).eraseDups = l.eraseDups.filter p := by
  induction l generalizing p with
  | nil => rfl
  | cons a rest ih =>
    rw [List.eraseDups_cons, ih]
    cases hp : p a with
    | true =>
      rw [List.filter_cons_of_pos hp, List.filter_cons_of_pos hp, List.eraseDups_cons,
        List.filter_filter, ih, List.filter_filter]
      simp only [Bool.and_comm]
    | false =>
      have hkeep : ∀ b ∈ rest.eraseDups, p b = (p b && !b == a) := by
        intro b _
        cases hb : p b with
        | false => rfl
        | true =>
          have hne : b ≠ a := by
            rintro rfl
            rw [hp] at hb
            cases hb
          simp [hne]
      rw [List.filter_cons_of_neg (by simp [hp]), List.filter_cons_of_neg (by simp [hp]), ih,
        List.filter_filter]
      exact List.filter_congr hkeep

theorem nodup_eraseDups (l : List α) : l.eraseDups.Nodup := by
  induction l with
  | nil => exact .nil
  | cons a rest ih =>
    rw [List.eraseDups_cons, eraseDups_filter, List.nodup_cons]
    exact ⟨by simp, ih.filter _⟩

/-- Without one member, a list that is one longer has the same first members. -/
theorem take_filter_take_succ {l : List α} (hl : l.Nodup) (a : α) (n : Nat) :
    ((l.take (n + 1)).filter fun b => !b == a).take n = (l.filter fun b => !b == a).take n := by
  induction l generalizing n with
  | nil => rfl
  | cons b rest ih =>
    obtain ⟨hb, hrest⟩ := List.nodup_cons.1 hl
    rw [List.take_succ_cons]
    by_cases hba : b = a
    · subst hba
      have hkeep : ∀ l : List α, l ⊆ rest → l.filter (fun c => !c == b) = l := by
        intro l hsub
        refine List.filter_eq_self.2 fun c hc => ?_
        have hne : c ≠ b := fun heq => hb (heq ▸ hsub hc)
        simp [hne]
      rw [List.filter_cons_of_neg (by simp), List.filter_cons_of_neg (by simp),
        hkeep _ (List.take_subset n rest), hkeep _ (List.Subset.refl rest), List.take_take,
        Nat.min_self]
    · rw [List.filter_cons_of_pos (by simp [hba]), List.filter_cons_of_pos (by simp [hba])]
      cases n with
      | zero => rfl
      | succ n => rw [List.take_succ_cons, List.take_succ_cons, ih hrest]

end Lists

/-! ## Maps that drop what was not used for longest -/

/-- The laws of a map of limited room: what it keeps, in the order of the last uses. -/
class LawfulRecencyMap (M : Type → Type) [RecencyMap M] : Prop where
  entries_withRoom : ∀ {α : Type} (n : Nat), RecencyMap.entries (RecencyMap.withRoom n : M α) = []
  room_withRoom : ∀ {α : Type} {n : Nat}, 0 < n → RecencyMap.room (RecencyMap.withRoom n : M α) = n
  value_get : ∀ {α : Type} (map : M α) (key : String),
    (RecencyMap.get map key).1 = (RecencyMap.entries map).lookup key
  entries_get_of_some : ∀ {α : Type} {map : M α} {key : String} {value : α},
    (RecencyMap.entries map).lookup key = some value →
    RecencyMap.entries (RecencyMap.get map key).2 = promote key value (RecencyMap.entries map)
  entries_get_of_none : ∀ {α : Type} {map : M α} {key : String},
    (RecencyMap.entries map).lookup key = none →
    RecencyMap.entries (RecencyMap.get map key).2 = RecencyMap.entries map
  room_get : ∀ {α : Type} (map : M α) (key : String),
    RecencyMap.room (RecencyMap.get map key).2 = RecencyMap.room map
  entries_put : ∀ {α : Type} (map : M α) (key : String) (value : α),
    RecencyMap.entries (RecencyMap.put map key value) =
      (promote key value (RecencyMap.entries map)).take (RecencyMap.room map)
  room_put : ∀ {α : Type} (map : M α) (key : String) (value : α),
    RecencyMap.room (RecencyMap.put map key value) = RecencyMap.room map
  entries_clear : ∀ {α : Type} (map : M α), RecencyMap.entries (RecencyMap.clear map) = []
  room_clear : ∀ {α : Type} (map : M α), RecencyMap.room (RecencyMap.clear map) =
    RecencyMap.room map
  size_eq : ∀ {α : Type} (map : M α), RecencyMap.size map = (RecencyMap.entries map).length

open LawfulRecencyMap

instance : LawfulRecencyMap RecencyList where
  entries_withRoom _ := rfl
  room_withRoom _ := rfl
  value_get map key := by
    simp only [RecencyMap.get, RecencyMap.entries]
    split <;> simp [*]
  entries_get_of_some h := by
    simp only [RecencyMap.get, RecencyMap.entries] at h ⊢
    simp only [h]
  entries_get_of_none h := by
    simp only [RecencyMap.get, RecencyMap.entries] at h ⊢
    simp only [h]
  room_get map key := by
    simp only [RecencyMap.get, RecencyMap.room]
    split <;> rfl
  entries_put _ _ _ := rfl
  room_put _ _ _ := rfl
  entries_clear _ := rfl
  room_clear _ := rfl
  size_eq _ := rfl

theorem map_fst_promote {α : Type} (key : String) (value : α) (entries : List (String × α)) :
    (promote key value entries).map (·.1) =
      key :: (entries.map (·.1)).filter fun k => !k == key := by
  rw [promote, List.map_cons, List.filter_map]
  rfl

theorem mem_of_mem_promote {α : Type} {key : String} {value : α} {entries : List (String × α)}
    {entry : String × α} (h : entry ∈ promote key value entries) :
    entry = (key, value) ∨ entry ∈ entries :=
  (List.mem_cons.1 h).imp_right List.mem_of_mem_filter

/-! ## Uses and what they ask for -/

namespace ExpressionCache

/-- A use of a cache. -/
inductive Use where
  | get (source : String)
  | clear
  deriving DecidableEq, Repr

section Requests

/-- The texts asked for so far, with one more use; a text with a fault does not count. -/
def ask (depthLimit : Nat) (earlier : List String) : Use → List String
  | .get source =>
      match Expression.compile depthLimit source with
      | .ok _ => source :: earlier
      | .error _ => earlier
  | .clear => []

/-- The texts without faults that were asked for since the cache was last cleared, the latest one in
front. -/
def asked (depthLimit : Nat) (history : List Use) : List String := history.foldl (ask depthLimit) []

/-- The texts that were asked for last, each once, as many as a cache has room for. -/
def recent (capacity depthLimit : Nat) (history : List Use) : List String :=
  (asked depthLimit history).eraseDups.take (max capacity 1)

variable {capacity depthLimit : Nat} {history : List Use} {source : String}

theorem asked_concat (use : Use) :
    asked depthLimit (history ++ [use]) = ask depthLimit (asked depthLimit history) use := by
  rw [asked, List.foldl_concat, asked]

theorem length_recent_le : (recent capacity depthLimit history).length ≤ max capacity 1 :=
  List.length_take_le _ _

/-- A text without faults comes to the front. -/
theorem recent_get_of_ok {expression : Expression}
    (h : Expression.compile depthLimit source = .ok expression) :
    recent capacity depthLimit (history ++ [.get source]) =
      (source :: (recent capacity depthLimit history).filter fun s => !s == source).take
        (max capacity 1) := by
  obtain ⟨n, hn⟩ : ∃ n, max capacity 1 = n + 1 := ⟨max capacity 1 - 1, by omega⟩
  rw [recent, recent, asked_concat, ask, h, hn]
  dsimp only
  rw [List.eraseDups_cons, eraseDups_filter, List.take_succ_cons, List.take_succ_cons,
    take_filter_take_succ (nodup_eraseDups _)]

theorem recent_get_of_error {fault : SyntaxError}
    (h : Expression.compile depthLimit source = .error fault) :
    recent capacity depthLimit (history ++ [.get source]) = recent capacity depthLimit history := by
  rw [recent, recent, asked_concat, ask, h]

theorem recent_clear : recent capacity depthLimit (history ++ [.clear]) = [] := by
  rw [recent, asked_concat, ask, List.eraseDups_nil, List.take_nil]

end Requests

/-! ## One use -/

variable {M : Type → Type} [RecencyMap M]

/-- The expressions that the cache keeps by their texts, the one used last in front. -/
def kept (cache : ExpressionCache M) : List (String × Compiled) := RecencyMap.entries cache.entries

/-- The texts that the cache keeps, the one used last in front. -/
def keys (cache : ExpressionCache M) : List String := cache.kept.map (·.1)

/-- The most expressions that the cache keeps. -/
def room (cache : ExpressionCache M) : Nat := RecencyMap.room cache.entries

/-- The cache after a use. -/
def step (cache : ExpressionCache M) : Use → ExpressionCache M
  | .get source => (cache.get source).2
  | .clear => cache.clear

/-- A new cache after some uses. -/
def after (capacity depthLimit : Nat) (history : List Use) : ExpressionCache M :=
  history.foldl step (new capacity depthLimit)

theorem after_concat {capacity depthLimit : Nat} {history : List Use} (use : Use) :
    (after capacity depthLimit (history ++ [use]) : ExpressionCache M) =
      (after capacity depthLimit history).step use := by
  rw [after, List.foldl_concat, after]

variable {cache : ExpressionCache M} {source : String}

theorem mem_keys_iff : source ∈ cache.keys ↔ (cache.kept.lookup source).isSome = true := by
  rw [keys, List.lookup_isSome_iff, List.mem_map]
  exact exists_congr fun entry => and_congr_right fun _ => eq_comm.trans beq_iff_eq.symm

/-- The answer to the use of a text, and what the cache keeps after it. -/
inductive Got (cache : ExpressionCache M) (source : String) :
    Except SyntaxError Compiled → List (String × Compiled) → Prop
  | shared {value : Compiled} :
      cache.kept.lookup source = some value →
      Got cache source (.ok value) (promote source value cache.kept)
  | fresh {expression : Expression} :
      cache.kept.lookup source = none →
      Expression.compile cache.depthLimit source = .ok expression →
      Got cache source (.ok ⟨expression, cache.uses⟩)
        ((promote source ⟨expression, cache.uses⟩ cache.kept).take cache.room)
  | fault {fault : SyntaxError} :
      cache.kept.lookup source = none →
      Expression.compile cache.depthLimit source = .error fault →
      Got cache source (.error fault) cache.kept

@[simp] theorem depthLimit_step (use : Use) : (cache.step use).depthLimit = cache.depthLimit := by
  cases use with
  | clear => rfl
  | get source =>
    rw [step, get]
    split
    · rfl
    · split <;> rfl

@[simp] theorem uses_step (use : Use) : (cache.step use).uses = cache.uses + 1 := by
  cases use with
  | clear => rfl
  | get source =>
    rw [step, get]
    split
    · rfl
    · split <;> rfl

/-- What is kept after a use was kept before it, or is the answer to it. -/
theorem Got.mem {answer : Except SyntaxError Compiled} {entries : List (String × Compiled)}
    (h : Got cache source answer entries) {entry : String × Compiled} (hentry : entry ∈ entries) :
    entry ∈ cache.kept ∨ ∃ value, entry = (source, value) ∧ answer = .ok value := by
  cases h with
  | @shared value hlookup =>
    exact (mem_of_mem_promote hentry).symm.imp_right fun heq => ⟨value, heq, rfl⟩
  | fresh hnone hcompile =>
    have hpromote := mem_of_mem_promote (List.mem_of_mem_take hentry)
    exact hpromote.symm.imp_right fun heq => ⟨_, heq, rfl⟩
  | fault hnone hcompile => exact .inl hentry

variable [LawfulRecencyMap M]

/-- A use finds a text, compiles it or meets its fault. -/
theorem got (cache : ExpressionCache M) (source : String) :
    Got cache source (cache.get source).1 (cache.get source).2.kept := by
  have hvalue := value_get cache.entries source
  have hroom := room_get cache.entries source
  rw [get]
  cases hlookup : cache.kept.lookup source with
  | some value =>
    have hentries := entries_get_of_some hlookup
    rw [kept] at hlookup
    rw [hlookup] at hvalue
    generalize RecencyMap.get cache.entries source = result at hvalue hentries
    obtain ⟨found, entries⟩ := result
    cases hvalue
    rw [kept, hentries]
    exact .shared hlookup
  | none =>
    have hentries := entries_get_of_none hlookup
    rw [kept] at hlookup
    rw [hlookup] at hvalue
    generalize RecencyMap.get cache.entries source = result at hvalue hroom hentries
    obtain ⟨found, entries⟩ := result
    cases hvalue
    cases hcompile : Expression.compile cache.depthLimit source with
    | ok expression =>
      rw [kept, entries_put, hentries, hroom]
      exact .fresh hlookup hcompile
    | error fault =>
      rw [kept, hentries]
      exact .fault hlookup hcompile

/-- A text that is kept comes to the front. -/
theorem keys_get_of_mem (hmem : source ∈ cache.keys) :
    (cache.get source).2.keys = source :: cache.keys.filter fun s => !s == source := by
  have hgot := got cache source
  rw [mem_keys_iff] at hmem
  rw [keys]
  generalize (cache.get source).1 = answer, (cache.get source).2.kept = entries at hgot
  cases hgot with
  | shared hlookup => exact map_fst_promote source _ cache.kept
  | fresh hnone hcompile => simp [hnone] at hmem
  | fault hnone hcompile => simp [hnone] at hmem

/-- A text with a fault changes nothing that is kept, nor its order. -/
theorem kept_get_of_error {fault : SyntaxError} (h : (cache.get source).1 = .error fault) :
    (cache.get source).2.kept = cache.kept := by
  have hgot := got cache source
  rw [h] at hgot
  generalize (cache.get source).2.kept = entries at hgot ⊢
  cases hgot
  rfl

theorem kept_clear : cache.clear.kept = [] := entries_clear cache.entries

/-- No use of a cache changes its room. -/
@[simp] theorem room_step (use : Use) : (cache.step use).room = cache.room := by
  cases use with
  | clear => exact room_clear cache.entries
  | get source =>
    have hroom := room_get cache.entries source
    rw [step, get]
    split
    · next hget =>
      rw [hget] at hroom
      exact hroom
    · next hget =>
      rw [hget] at hroom
      split
      · exact (room_put _ _ _).trans hroom
      · exact hroom

/-! ## All uses -/

section Histories

variable {capacity depthLimit : Nat} {history : List Use} {value : Compiled}

variable (M capacity depthLimit history) in
/-- The use of the history that compiled an expression was one of its text, and this expression was
the answer. -/
structure Origin (source : String) (value : Compiled) : Prop where
  compile_eq : Expression.compile depthLimit source = .ok value.expression
  use_eq : history[value.compiledAt]? = some (.get source)
  answer_eq : ((after capacity depthLimit (history.take value.compiledAt) :
    ExpressionCache M).get source).1 = .ok value

omit [LawfulRecencyMap M] in
theorem Origin.concat (h : Origin M capacity depthLimit history source value) (use : Use) :
    Origin M capacity depthLimit (history ++ [use]) source value := by
  have hlt := (List.getElem?_eq_some_iff.1 h.use_eq).1
  refine ⟨h.compile_eq, ?_, ?_⟩
  · rw [List.getElem?_append_left hlt]
    exact h.use_eq
  · rw [List.take_append_of_le_length (Nat.le_of_lt hlt)]
    exact h.answer_eq

variable (capacity depthLimit history) in
/-- What a cache is after a history. -/
structure Represents (cache : ExpressionCache M) : Prop where
  eq_after : cache = after capacity depthLimit history
  depthLimit_eq : cache.depthLimit = depthLimit
  room_eq : cache.room = max capacity 1
  uses_eq : cache.uses = history.length
  keys_eq : cache.keys = recent capacity depthLimit history
  origin : ∀ entry ∈ cache.kept, Origin M capacity depthLimit history entry.1 entry.2

namespace Represents

variable (h : Represents capacity depthLimit history cache)

include h

omit [LawfulRecencyMap M] in
theorem origin_of_lookup (hlookup : cache.kept.lookup source = some value) :
    Origin M capacity depthLimit history source value := by
  obtain ⟨before, later, hsplit, -⟩ := List.lookup_eq_some_iff.1 hlookup
  refine h.origin (source, value) ?_
  rw [hsplit]
  exact List.mem_append_right _ List.mem_cons_self

omit [LawfulRecencyMap M] in
theorem length_keys_le : cache.keys.length ≤ max capacity 1 := by
  rw [h.keys_eq]
  exact length_recent_le

/-- Every answer comes from a use of the text, this one or an earlier one. -/
theorem origin_of_get (hanswer : (cache.get source).1 = .ok value) :
    Origin M capacity depthLimit (history ++ [.get source]) source value := by
  have hgot := got cache source
  rw [hanswer] at hgot
  generalize (cache.get source).2.kept = entries at hgot
  cases hgot with
  | shared hlookup => exact (h.origin_of_lookup hlookup).concat _
  | fresh hnone hcompile =>
    rw [h.depthLimit_eq] at hcompile
    refine ⟨hcompile, ?_, ?_⟩
    · rw [h.uses_eq, List.getElem?_concat_length]
    · rw [List.take_left' h.uses_eq.symm, ← h.eq_after]
      exact hanswer

/-- After a use of a text the cache keeps the texts that are recent then. -/
theorem keys_get (source : String) : (cache.get source).2.keys =
    recent capacity depthLimit (history ++ [.get source]) := by
  have hgot := got cache source
  rw [keys]
  generalize (cache.get source).1 = answer, (cache.get source).2.kept = entries at hgot
  cases hgot with
  | @shared value hlookup =>
    -- without the text there is room for it, so nothing is dropped
    have hmem : source ∈ cache.keys := mem_keys_iff.2 (by rw [hlookup]; rfl)
    have hshort : (cache.keys.filter fun s => !s == source).length < cache.keys.length :=
      List.length_filter_lt_length_iff_exists.2 ⟨source, hmem, by simp⟩
    have hroom := h.length_keys_le
    rw [map_fst_promote, recent_get_of_ok (h.origin_of_lookup hlookup).compile_eq, ← h.keys_eq,
      List.take_of_length_le (by rw [List.length_cons]; omega)]
    rfl
  | fresh hnone hcompile =>
    rw [h.depthLimit_eq] at hcompile
    rw [List.map_take, map_fst_promote, recent_get_of_ok hcompile, ← h.keys_eq, h.room_eq]
    rfl
  | fault hnone hcompile =>
    rw [h.depthLimit_eq] at hcompile
    rw [recent_get_of_error hcompile, ← h.keys_eq, keys]

/-- One use more: the entries are again those that the history says, the new one in front if it
compiles. -/
theorem step (use : Use) :
    Represents capacity depthLimit (history ++ [use]) (cache.step use) where
  eq_after := by rw [after_concat, h.eq_after]
  depthLimit_eq := by rw [depthLimit_step, h.depthLimit_eq]
  room_eq := by rw [room_step, h.room_eq]
  uses_eq := by rw [uses_step, h.uses_eq, List.length_append, List.length_singleton]
  keys_eq := by
    cases use with
    | get source => exact h.keys_get source
    | clear =>
      rw [recent_clear, keys, ExpressionCache.step, kept_clear, List.map_nil]
  origin := by
    intro entry hentry
    cases use with
    | get source =>
      rcases (got cache source).mem hentry with hold | ⟨value, rfl, hanswer⟩
      · exact (h.origin entry hold).concat _
      · exact h.origin_of_get hanswer
    | clear =>
      rw [ExpressionCache.step, kept_clear] at hentry
      cases hentry

/-- The answer is what compiling the text gives. -/
theorem map_expression_get (source : String) :
    (cache.get source).1.map (·.expression) = Expression.compile depthLimit source := by
  have hgot := got cache source
  generalize (cache.get source).1 = answer, (cache.get source).2.kept = entries at hgot
  rw [← h.depthLimit_eq]
  cases hgot with
  | shared hlookup =>
    rw [h.depthLimit_eq, (h.origin_of_lookup hlookup).compile_eq]
    rfl
  | fresh hnone hcompile => exact hcompile.symm
  | fault hnone hcompile => exact hcompile.symm

/-- The answer comes from an earlier use exactly if the text is kept. -/
theorem shares_iff (source : String) :
    (∃ value, (cache.get source).1 = .ok value ∧ value.compiledAt < history.length) ↔
      source ∈ cache.keys := by
  have hgot := got cache source
  generalize (cache.get source).1 = answer, (cache.get source).2.kept = entries at hgot
  rw [mem_keys_iff]
  cases hgot with
  | @shared value hlookup =>
    have huse := (h.origin_of_lookup hlookup).use_eq
    refine iff_of_true ⟨value, rfl, (List.getElem?_eq_some_iff.1 huse).1⟩ ?_
    rw [hlookup]
    rfl
  | fresh hnone hcompile =>
    refine iff_of_false ?_ (by simp [hnone])
    rintro ⟨value, ⟨⟩, hlt⟩
    exact Nat.lt_irrefl _ (h.uses_eq ▸ hlt)
  | fault hnone hcompile =>
    refine iff_of_false ?_ (by simp [hnone])
    rintro ⟨value, hvalue, -⟩
    cases hvalue

/-- A text that was not kept drops at most the last one. -/
theorem exists_dropped (hanswer : (cache.get source).1 = .ok value) (hnew : source ∉ cache.keys) :
    ∃ remaining dropped, cache.keys = remaining ++ dropped ∧ dropped.length ≤ 1 ∧
      (cache.get source).2.keys = source :: remaining := by
  obtain ⟨n, hn⟩ : ∃ n, max capacity 1 = n + 1 := ⟨max capacity 1 - 1, by omega⟩
  have hlength := h.length_keys_le
  have hcompile := (h.origin_of_get hanswer).compile_eq
  refine ⟨cache.keys.take n, cache.keys.drop n, (List.take_append_drop n _).symm, ?_, ?_⟩
  · rw [List.length_drop]
    omega
  · have hself : (cache.keys.filter fun s => !s == source) = cache.keys :=
      List.filter_eq_self.2 fun s hs => by simpa using ne_of_mem_of_not_mem hs hnew
    rw [h.keys_get, recent_get_of_ok hcompile, ← h.keys_eq, hself, hn, List.take_succ_cons]

end Represents

/-- Every history leaves a cache that represents it. -/
theorem represents_after : Represents capacity depthLimit history
    (after capacity depthLimit history : ExpressionCache M) := by
  induction history using List.reverseRecOn with
  | nil =>
    have hkept : (new capacity depthLimit : ExpressionCache M).kept = [] := entries_withRoom _
    refine ⟨rfl, rfl, room_withRoom (Nat.lt_of_lt_of_le Nat.one_pos (Nat.le_max_right _ _)), rfl,
      ?_, fun entry hentry => ?_⟩
    · rw [recent, asked, List.foldl_nil, List.eraseDups_nil, List.take_nil]
      exact congrArg (List.map (·.1)) hkept
    · rw [after, List.foldl_nil, hkept] at hentry
      cases hentry
  | append_singleton history use ih =>
    rw [after_concat]
    exact ih.step use

/-- A cache has as many expressions as there are recent texts, so never more than its capacity. -/
theorem size_after : (after capacity depthLimit history : ExpressionCache M).size =
    (recent capacity depthLimit history).length := by
  have h : Represents capacity depthLimit history (after capacity depthLimit history) :=
    represents_after (M := M)
  rw [size, size_eq, ← h.keys_eq, keys, List.length_map, kept]

end Histories

/-- Over a map that drops what was not used for longest, whatever the capacity, the depth limit and
the uses so far: a text is answered as compiling it would be, and the cache keeps the texts that are
recent. The answer shares the tree of an earlier use exactly if the text is among them, and then
this use of the same text had the same answer. Otherwise a compiled text drops at most the one whose
use lies furthest back, and one with a fault drops nothing and changes no order. -/
theorem get_after (M : Type → Type) [RecencyMap M] [LawfulRecencyMap M] (capacity depthLimit : Nat)
    (history : List Use) (source : String) :
    let cache : ExpressionCache M := after capacity depthLimit history
    let answer := (cache.get source).1
    let next := (cache.get source).2
    answer.map (·.expression) = Expression.compile depthLimit source ∧
      cache.keys = recent capacity depthLimit history ∧
      ((∃ value, answer = .ok value ∧ value.compiledAt < history.length) ↔
        source ∈ recent capacity depthLimit history) ∧
      (∀ value, answer = .ok value →
        Origin M capacity depthLimit (history ++ [.get source]) source value) ∧
      (source ∈ cache.keys → next.keys = source :: cache.keys.filter fun s => !s == source) ∧
      (∀ value, answer = .ok value → source ∉ cache.keys →
        ∃ remaining dropped, cache.keys = remaining ++ dropped ∧ dropped.length ≤ 1 ∧
          next.keys = source :: remaining) ∧
      ∀ fault, answer = .error fault → next.kept = cache.kept := by
  intro cache answer next
  have h : Represents capacity depthLimit history cache := represents_after
  refine ⟨h.map_expression_get source, h.keys_eq, ?_, fun value => h.origin_of_get, ?_,
    fun value => h.exists_dropped, fun fault => kept_get_of_error⟩
  · rw [← h.keys_eq]
    exact h.shares_iff source
  · exact keys_get_of_mem

/-- With room for two texts the third one drops the second one, since the first one was used again;
the text with a fault in between has no part in it. -/
theorem shares_first_of_three :
    let history : List Use := [.get "a", .get "b", .get "a", .get "a[", .get "c"]
    let cache : ExpressionCache RecencyList := after 2 64 history
    cache.keys = ["c", "a"] ∧
      (∃ value, (cache.get "a").1 = .ok value ∧ value.compiledAt < 5) ∧
        ¬ ∃ value, (cache.get "b").1 = .ok value ∧ value.compiledAt < 5 := by
  intro history cache
  have hrecent : recent 2 64 history = ["c", "a"] := by decide +kernel
  obtain ⟨-, hkeys, hshared, -⟩ := get_after RecencyList 2 64 history "a"
  obtain ⟨-, -, hcompiled, -⟩ := get_after RecencyList 2 64 history "b"
  rw [hrecent] at hkeys hshared hcompiled
  exact ⟨hkeys, hshared.2 (by decide), fun h => absurd (hcompiled.1 h) (by decide)⟩

end ExpressionCache

end MarkupPath.Query
