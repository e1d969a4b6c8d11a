import PrefixArith.Cache

namespace PrefixArith

theorem mem_of_lookup {κ α : Type} [BEq κ] [LawfulBEq κ] {key : κ} {value : α}
    {entries : List (κ × α)} (h : entries.lookup key = some value) : (key, value) ∈ entries := by
  obtain ⟨as, bs, hsplit, -⟩ := List.lookup_eq_some_iff.1 h
  rw [hsplit]
  exact List.mem_append_right as List.mem_cons_self

theorem lookup_filter_key {κ α : Type} [BEq κ] [LawfulBEq κ] {key other : κ} (h : other ≠ key)
    (entries : List (κ × α)) :
    (entries.filter fun e => e.1 != key).lookup other = entries.lookup other := by
  induction entries with
  | nil => rfl
  | cons e entries ih =>
    obtain ⟨k, x⟩ := e
    by_cases hk : k = key
    · have hother : (other == k) = false := by simp [hk, h]
      rw [List.filter_cons_of_neg (by simp [hk]), ih, List.lookup_cons, hother]
    · rw [List.filter_cons_of_pos (by simp [hk]), List.lookup_cons, List.lookup_cons, ih]

namespace CacheOps

variable {γ κ α : Type} [BEq κ] {ops : CacheOps γ κ α} {capacity : γ → Nat}
  {entries : γ → List (κ × α)}

/-- One cache comes of another by a use of one key, which now has this value. -/
structure Used (capacity : γ → Nat) (entries : γ → List (κ × α)) (cache after : γ) (key : κ)
    (value : α) : Prop where
  capacity_eq : capacity after = capacity cache
  entries_eq : entries after =
    ((key, value) :: (entries cache).filter fun e => e.1 != key).take (capacity cache)

namespace Used

variable {cache after : γ} {key other : κ} {value v : α}

theorem keys_eq (h : Used capacity entries cache after key value) :
    (entries after).map Prod.fst =
      (key :: ((entries cache).map Prod.fst).filter (· != key)).take (capacity cache) := by
  rw [h.entries_eq, List.map_take, List.map_cons, List.filter_map]
  rfl

theorem mem (h : Used capacity entries cache after key value) {x : κ × α}
    (hx : x ∈ entries after) : x = (key, value) ∨ x ∈ entries cache := by
  rw [h.entries_eq] at hx
  rcases List.mem_cons.1 (List.mem_of_mem_take hx) with hx | hx
  · exact Or.inl hx
  · exact Or.inr (List.mem_filter.1 hx).1

variable [LawfulBEq κ]

theorem lookup_self (h : Used capacity entries cache after key value) (hpos : 0 < capacity cache) :
    (entries after).lookup key = some value := by
  obtain ⟨n, hn⟩ := Nat.exists_eq_succ_of_ne_zero (Nat.ne_of_gt hpos)
  rw [h.entries_eq, hn, List.take_succ_cons, List.lookup_cons_self]

theorem eq_of_lookup_self (h : Used capacity entries cache after key value)
    (hv : (entries after).lookup key = some v) : v = value := by
  rw [h.entries_eq] at hv
  have hwhole := (List.take_prefix _ _).lookup_eq_some hv
  rw [List.lookup_cons_self] at hwhole
  exact (Option.some.inj hwhole).symm

theorem lookup_of_ne (h : Used capacity entries cache after key value) (hne : other ≠ key)
    (hv : (entries after).lookup other = some v) : (entries cache).lookup other = some v := by
  rw [h.entries_eq] at hv
  have hwhole := (List.take_prefix _ _).lookup_eq_some hv
  have hother : (other == key) = false := by simp [hne]
  rw [List.lookup_cons, hother, lookup_filter_key hne] at hwhole
  exact hwhole

end Used

namespace LeastRecentlyUsed

variable (h : ops.LeastRecentlyUsed capacity entries) {cache : γ} {key : κ} {v : α}
include h

theorem used_get (hv : (entries cache).lookup key = some v) :
    Used capacity entries cache (ops.get cache key).2 key v where
  capacity_eq := h.capacity_get cache key
  entries_eq := by
    have hlength := h.length_le (ops.get cache key).2
    rw [h.capacity_get, h.entries_get hv] at hlength
    rw [h.entries_get hv, List.take_of_length_le hlength]

variable [LawfulBEq κ]

theorem used_put (cache : γ) (key : κ) (value : α) :
    Used capacity entries cache (ops.put cache key value) key value where
  capacity_eq := h.capacity_put cache key value
  entries_eq := by
    have hlength := h.length_le (ops.put cache key value)
    rw [h.capacity_put] at hlength
    cases hkey : (entries cache).lookup key with
    | some v =>
      rw [h.entries_put_present hkey] at hlength ⊢
      rw [List.take_of_length_le hlength]
    | none =>
      rw [filter_key_of_lookup_eq_none hkey]
      rcases Nat.lt_or_eq_of_le (h.length_le cache) with hroom | hfull
      · rw [h.entries_put_room hkey hroom, List.take_of_length_le hroom]
      · rw [h.entries_put_full hkey hfull, List.length_cons] at hlength
        -- a full cache has room for the entry put, so its capacity is not 0
        obtain ⟨n, hn⟩ : ∃ n, capacity cache = n + 1 :=
          ⟨capacity cache - 1, by omega⟩
        rw [h.entries_put_full hkey hfull, List.dropLast_eq_take, hfull, hn, List.take_succ_cons,
          Nat.add_sub_cancel]

/-- A cache that lets the least recently used entry go gives what was put last. -/
theorem faithful : ops.Faithful where
  get_new := by
    intro n pos key v hv
    rw [h.get_fst, h.entries_new] at hv
    cases hv
  get_get := by
    intro cache key other v hv
    rw [h.get_fst] at hv ⊢
    cases hkey : (entries cache).lookup key with
    | none => rwa [h.get_absent hkey] at hv
    | some w =>
      by_cases hother : other = key
      · subst hother
        rw [hkey, (h.used_get hkey).eq_of_lookup_self hv]
      · exact (h.used_get hkey).lookup_of_ne hother hv
  get_put_self := by
    intro cache key value v hv
    rw [h.get_fst] at hv
    exact (h.used_put cache key value).eq_of_lookup_self hv
  get_put_other := by
    intro cache key other value v hne hv
    rw [h.get_fst] at hv ⊢
    exact (h.used_put cache key value).lookup_of_ne hne hv
  get_clear := by
    intro cache key v hv
    rw [h.get_fst, h.entries_clear] at hv
    cases hv

end LeastRecentlyUsed

end CacheOps

namespace Cache

variable {κ α : Type} [BEq κ] [LawfulBEq κ]

theorem leastRecentlyUsed :
    (ops : CacheOps (Cache κ α) κ α).LeastRecentlyUsed capacity entries where
  capacity_new _ _ := rfl
  capacity_get cache key := by
    simp only [ops]
    cases cache.find? key <;> rfl
  capacity_put _ _ _ := rfl
  capacity_clear _ := rfl
  length_le cache := cache.length_le
  size_eq _ := rfl
  entries_new _ _ := rfl
  entries_clear _ := rfl
  get_fst cache key := by
    change _ = cache.find? key
    simp only [ops]
    cases cache.find? key <;> rfl
  get_absent := by
    intro cache key hkey
    simp only [ops, show cache.find? key = none from hkey]
  entries_get := by
    intro cache key value hkey
    simp only [ops, show cache.find? key = some value from hkey]
    exact entries_use_of_find? hkey
  entries_put_present hkey := entries_use_of_find? hkey
  entries_put_room hkey hroom := entries_use_of_length_lt hkey hroom
  entries_put_full hkey hfull := entries_use_of_full hkey hfull

theorem faithful : (ops : CacheOps (Cache κ α) κ α).Faithful :=
  leastRecentlyUsed.faithful

end Cache

end PrefixArith
