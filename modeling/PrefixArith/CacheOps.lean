namespace PrefixArith

/-- What is asked of a cache of kind `γ`. A lookup may change the cache, since it is a use. -/
structure CacheOps (γ κ α : Type) where
  new (capacity : Nat) (pos : 0 < capacity) : γ
  get (cache : γ) (key : κ) : Option α × γ
  put (cache : γ) (key : κ) (value : α) : γ
  size (cache : γ) : Nat
  clear (cache : γ) : γ

namespace CacheOps

variable {γ κ α : Type}

/-- A lookup gives the value put last under its key, unless the cache was cleared since or let the
value go; when it lets one go is left open. -/
structure Faithful (ops : CacheOps γ κ α) : Prop where
  get_new : ∀ {n pos key v}, (ops.get (ops.new n pos) key).1 ≠ some v
  get_get : ∀ {cache key other v}, (ops.get (ops.get cache key).2 other).1 = some v →
    (ops.get cache other).1 = some v
  get_put_self : ∀ {cache key value v}, (ops.get (ops.put cache key value) key).1 = some v →
    v = value
  get_put_other : ∀ {cache key other value v}, other ≠ key →
    (ops.get (ops.put cache key value) other).1 = some v → (ops.get cache other).1 = some v
  get_clear : ∀ {cache key v}, (ops.get (ops.clear cache) key).1 ≠ some v

/-- A cache holds entries in order of their last use, the latest first, and no more of them than its
capacity. A key that is found or put comes to the front; if there is no room for a new one, the
entry at the back goes. -/
structure LeastRecentlyUsed [BEq κ] (ops : CacheOps γ κ α) (capacity : γ → Nat)
    (entries : γ → List (κ × α)) : Prop where
  capacity_new : ∀ n pos, capacity (ops.new n pos) = n
  capacity_get : ∀ cache key, capacity (ops.get cache key).2 = capacity cache
  capacity_put : ∀ cache key value, capacity (ops.put cache key value) = capacity cache
  capacity_clear : ∀ cache, capacity (ops.clear cache) = capacity cache
  length_le : ∀ cache, (entries cache).length ≤ capacity cache
  size_eq : ∀ cache, ops.size cache = (entries cache).length
  entries_new : ∀ n pos, entries (ops.new n pos) = []
  entries_clear : ∀ cache, entries (ops.clear cache) = []
  get_fst : ∀ cache key, (ops.get cache key).1 = (entries cache).lookup key
  get_absent : ∀ {cache key}, (entries cache).lookup key = none → (ops.get cache key).2 = cache
  entries_get : ∀ {cache key value}, (entries cache).lookup key = some value →
    entries (ops.get cache key).2 = (key, value) :: (entries cache).filter fun e => e.1 != key
  entries_put_present : ∀ {cache key value v}, (entries cache).lookup key = some v →
    entries (ops.put cache key value) =
      (key, value) :: (entries cache).filter fun e => e.1 != key
  entries_put_room : ∀ {cache key value}, (entries cache).lookup key = none →
    (entries cache).length < capacity cache →
      entries (ops.put cache key value) = (key, value) :: entries cache
  entries_put_full : ∀ {cache key value}, (entries cache).lookup key = none →
    (entries cache).length = capacity cache →
      entries (ops.put cache key value) = (key, value) :: (entries cache).dropLast

end CacheOps

end PrefixArith
