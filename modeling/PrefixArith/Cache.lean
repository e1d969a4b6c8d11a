import PrefixArith.CacheOps

namespace PrefixArith

theorem filter_key_of_lookup_eq_none {κ α : Type} [BEq κ] [LawfulBEq κ] {key : κ}
    {entries : List (κ × α)} (h : entries.lookup key = none) :
    (entries.filter fun e => e.1 != key) = entries := by
  rw [List.filter_eq_self]
  intro e he
  rw [bne_comm]
  exact List.lookup_eq_none_iff.1 h e he

/-- Some keys and their values in order of their last use, the latest first. -/
structure Cache (κ α : Type) where
  capacity : Nat
  entries : List (κ × α)
  capacity_pos : 0 < capacity
  length_le : entries.length ≤ capacity
deriving Repr

namespace Cache

variable {κ α : Type} [BEq κ]

def find? (cache : Cache κ α) (key : κ) : Option α := cache.entries.lookup key

/-- Makes a key the most recently used one with this value. A key not yet held may push out the
last one. -/
def use (cache : Cache κ α) (key : κ) (value : α) : Cache κ α where
  capacity := cache.capacity
  entries := ((key, value) :: cache.entries.filter fun e => e.1 != key).take cache.capacity
  capacity_pos := cache.capacity_pos
  length_le := List.length_take_le _ _

def ops : CacheOps (Cache κ α) κ α where
  new capacity pos := ⟨capacity, [], pos, Nat.zero_le _⟩
  get cache key :=
    match cache.find? key with
    | some value => (some value, cache.use key value)
    | none => (none, cache)
  put := use
  size cache := cache.entries.length
  clear cache := ⟨cache.capacity, [], cache.capacity_pos, Nat.zero_le _⟩

variable {cache : Cache κ α} {key : κ} {value : α}

theorem entries_use : (cache.use key value).entries =
    ((key, value) :: cache.entries.filter fun e => e.1 != key).take cache.capacity :=
  rfl

variable [LawfulBEq κ]

/-- A key that is held moves to the front, and none goes. -/
theorem entries_use_of_find? {v : α} (hkey : cache.find? key = some v) :
    (cache.use key value).entries =
      (key, value) :: cache.entries.filter fun e => e.1 != key := by
  have hshorter :
      (cache.entries.filter fun e => e.1 != key).length < cache.entries.length := by
    obtain ⟨as, bs, hsplit, -⟩ := List.lookup_eq_some_iff.1 hkey
    rw [List.length_filter_lt_length_iff_exists, hsplit]
    exact ⟨(key, v), List.mem_append_right as List.mem_cons_self, by simp⟩
  exact List.take_of_length_le (Nat.le_trans hshorter cache.length_le)

theorem entries_use_of_absent (hkey : cache.find? key = none) :
    (cache.use key value).entries = ((key, value) :: cache.entries).take cache.capacity := by
  rw [entries_use, filter_key_of_lookup_eq_none hkey]

theorem entries_use_of_length_lt (hkey : cache.find? key = none)
    (hroom : cache.entries.length < cache.capacity) :
    (cache.use key value).entries = (key, value) :: cache.entries := by
  rw [entries_use_of_absent hkey]
  exact List.take_of_length_le hroom

/-- Where there is no room, the key whose last use is longest ago goes. -/
theorem entries_use_of_full (hkey : cache.find? key = none)
    (hfull : cache.entries.length = cache.capacity) :
    (cache.use key value).entries = (key, value) :: cache.entries.dropLast := by
  obtain ⟨n, hn⟩ := Nat.exists_eq_succ_of_ne_zero (Nat.ne_of_gt cache.capacity_pos)
  rw [entries_use_of_absent hkey, List.dropLast_eq_take, hfull, hn, List.take_succ_cons,
    Nat.succ_sub_one]

end Cache

end PrefixArith
