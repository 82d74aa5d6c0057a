import MarkupPath.Query.Expression

/-!
# The cache of compiled expressions

A `RecencyMap` has room for some keys and keeps those used last; `RecencyList` is one. In such a map
an `ExpressionCache` keeps compiled expressions by their texts, so that a text in frequent use is
compiled once. All uses that find an expression share its tree. Which trees are shared is told by
the number of the use that built them.
-/

set_option autoImplicit false

namespace MarkupPath.Query

/-! ## Maps of limited room -/

/-- A map from texts. A new key takes the place of the one whose use lies furthest back as soon as
there is no room left. -/
class RecencyMap (M : Type → Type) where
  /-- The empty map with room for so many keys. -/
  withRoom {α : Type} : Nat → M α
  /-- The value of a key, and the map after this use of the key. -/
  get {α : Type} : M α → String → Option α × M α
  /-- The map with a value for a key, which counts as a use of the key. -/
  put {α : Type} : M α → String → α → M α
  /-- The map without its keys. -/
  clear {α : Type} : M α → M α
  /-- The number of keys. -/
  size {α : Type} : M α → Nat
  /-- The most keys that the map keeps. -/
  room {α : Type} : M α → Nat
  /-- The keys with their values, the one used last in front. -/
  entries {α : Type} : M α → List (String × α)

/-- The entries with that of one key in front. -/
def promote {α : Type} (key : String) (value : α) (entries : List (String × α)) :
    List (String × α) :=
  (key, value) :: entries.filter fun entry => entry.1 != key

/-- A map as the list of its entries, the one used last in front. -/
structure RecencyList (α : Type) where
  room : Nat
  entries : List (String × α)

instance : RecencyMap RecencyList where
  withRoom room := ⟨room, []⟩
  get map key :=
    match map.entries.lookup key with
    | some value => (some value, { map with entries := promote key value map.entries })
    | none => (none, map)
  put map key value := { map with entries := (promote key value map.entries).take map.room }
  clear map := { map with entries := [] }
  size map := map.entries.length
  room := RecencyList.room
  entries := RecencyList.entries

/-! ## The cache -/

/-- An expression with the number of the use of the cache that compiled it. -/
structure Compiled where
  expression : Expression
  compiledAt : Nat

/-- Compiled expressions by their texts, with the limit on the nesting of operands and the number of
uses so far. -/
structure ExpressionCache (M : Type → Type) where
  entries : M Compiled
  depthLimit : Nat
  uses : Nat

namespace ExpressionCache

variable {M : Type → Type} [RecencyMap M]

/-- The number of expressions that a cache keeps where no other is given. -/
def defaultCapacity : Nat := 256

/-- An empty cache; a capacity of zero counts as one. -/
def new (capacity depthLimit : Nat) : ExpressionCache M where
  entries := RecencyMap.withRoom (max capacity 1)
  depthLimit := depthLimit
  uses := 0

/-- Number of expressions kept. -/
def size (cache : ExpressionCache M) : Nat := RecencyMap.size cache.entries

/-- The expression of a text, compiled unless it is kept, and the cache after this use. A text with
a fault is not kept. -/
def get (cache : ExpressionCache M) (source : String) :
    Except SyntaxError Compiled × ExpressionCache M :=
  match RecencyMap.get cache.entries source with
  | (some kept, entries) => (.ok kept, { cache with entries, uses := cache.uses + 1 })
  | (none, entries) =>
      match Expression.compile cache.depthLimit source with
      | .ok expression =>
          let fresh : Compiled := ⟨expression, cache.uses⟩
          (.ok fresh, { cache with
            entries := RecencyMap.put entries source fresh
            uses := cache.uses + 1 })
      | .error fault => (.error fault, { cache with entries, uses := cache.uses + 1 })

/-- The cache without its expressions. -/
def clear (cache : ExpressionCache M) : ExpressionCache M :=
  { cache with entries := RecencyMap.clear cache.entries, uses := cache.uses + 1 }

end ExpressionCache

end MarkupPath.Query
