import PrefixArith.Proofs.Session.Recency

namespace PrefixArith

namespace Session

theorem treeAt?_concat {γ : Type} {ops : CacheOps γ String Tree} {capacity : Nat}
    {requests : List Request} {r : Request} {i : Nat} {t : Tree} :
    treeAt? ops capacity (requests ++ [r]) i = some t ↔
      treeAt? ops capacity requests i = some t ∨
        i = requests.length ∧ ((new ops capacity).after ops requests).treeFor? ops r = some t := by
  rcases Nat.lt_trichotomy i requests.length with hlt | rfl | hgt
  · rw [treeAt?_append hlt]
    simp [Nat.ne_of_lt hlt]
  · rw [treeAt?_length]
    simp [treeAt?]
  · have hlong : (requests ++ [r]).length ≤ i := by
      rw [List.length_append]
      exact hgt
    simp [treeAt?, List.getElem?_eq_none hlong, List.getElem?_eq_none (Nat.le_of_lt hgt),
      Nat.ne_of_gt hgt]

/-- One of the requests was answered under the first identity by the session of the one capacity,
and under the second by that of the other. -/
def Handed {γ : Type} (ops : CacheOps γ String Tree) (capacity larger : Nat)
    (requests : List Request) (a b : Nat) : Prop :=
  ∃ i t t', treeAt? ops capacity requests i = some t ∧ treeAt? ops larger requests i = some t' ∧
    t.identity = a ∧ t'.identity = b

/-- The identities of the one session determine those of the other, and for a text that both
remember they were handed out together. -/
structure Paired {γ : Type} (ops : CacheOps γ String Tree) (entriesOf : γ → List (String × Tree))
    (capacity larger : Nat) (requests : List Request) : Prop where
  functional : ∀ {a b b'}, Handed ops capacity larger requests a b →
    Handed ops capacity larger requests a b' → b = b'
  remembered : ∀ {source t t'},
    (entriesOf ((new ops capacity).after ops requests).cache).lookup source = some t →
      (entriesOf ((new ops larger).after ops requests).cache).lookup source = some t' →
        Handed ops capacity larger requests t.identity t'.identity

section
variable {γ : Type} {ops : CacheOps γ String Tree} {capacityOf : γ → Nat}
  {entriesOf : γ → List (String × Tree)} {capacity larger : Nat} {requests : List Request}
  {r : Request} {source : String}

theorem handed_concat {a b : Nat} :
    Handed ops capacity larger (requests ++ [r]) a b ↔ Handed ops capacity larger requests a b ∨
      ∃ t t', ((new ops capacity).after ops requests).treeFor? ops r = some t ∧
        ((new ops larger).after ops requests).treeFor? ops r = some t' ∧
          t.identity = a ∧ t'.identity = b := by
  constructor
  · rintro ⟨i, t, t', ht, ht', hids⟩
    rcases treeAt?_concat.1 ht with hold | ⟨rfl, hnew⟩
    · rcases treeAt?_concat.1 ht' with hold' | ⟨rfl, -⟩
      · exact Or.inl ⟨i, t, t', hold, hold', hids⟩
      · simp [treeAt?] at hold
    · rcases treeAt?_concat.1 ht' with hold' | ⟨-, hnew'⟩
      · simp [treeAt?] at hold'
      · exact Or.inr ⟨t, t', hnew, hnew', hids⟩
  · rintro (⟨i, t, t', ht, ht', hids⟩ | ⟨t, t', ht, ht', hids⟩)
    · exact ⟨i, t, t', treeAt?_concat.2 (Or.inl ht), treeAt?_concat.2 (Or.inl ht'), hids⟩
    · exact ⟨requests.length, t, t', treeAt?_concat.2 (Or.inr ⟨rfl, ht⟩),
        treeAt?_concat.2 (Or.inr ⟨rfl, ht'⟩), hids⟩

theorem paired_nil (hops : ops.LeastRecentlyUsed capacityOf entriesOf) :
    Paired ops entriesOf capacity larger [] where
  functional := by
    rintro a b b' ⟨i, t, t', ht, -⟩
    cases ht
  remembered := by
    intro source t t' ht
    change (entriesOf (ops.new _ _)).lookup source = some t at ht
    rw [hops.entries_new] at ht
    cases ht

variable (hops : ops.LeastRecentlyUsed capacityOf entriesOf)
include hops

/-- Whether a request is answered from a tree depends on its text alone. -/
theorem exists_treeFor? {s s' : Session γ} (hs : s.Sound ops) (hs' : s'.Sound ops) {t : Tree}
    (h : s.treeFor? ops r = some t) : ∃ t', s'.treeFor? ops r = some t' := by
  obtain ⟨source, hr, -⟩ := Option.bind_eq_some_iff.1 h
  have hexpr := (hs.tree hops.faithful source).1
  rw [tree_eq_ok hr h] at hexpr
  obtain ⟨t', s'', htree, -⟩ := exists_tree_used hops hs' hexpr.symm
  refine ⟨t', ?_⟩
  rw [treeFor?_eq hr, htree]
  rfl

theorem exists_treeAt? (larger : Nat) {i : Nat} {t : Tree}
    (h : treeAt? ops capacity requests i = some t) :
    ∃ t', treeAt? ops larger requests i = some t' := by
  obtain ⟨r, hr, htree⟩ := Option.bind_eq_some_iff.1 h
  have hsound := (kept_after hops capacity (requests.take i)).sound
  have hsound' := (kept_after hops larger (requests.take i)).sound
  obtain ⟨t', ht'⟩ := exists_treeFor? hops hsound hsound' htree
  refine ⟨t', ?_⟩
  rw [treeAt?, hr]
  exact ht'

theorem keys_prefix_of_le (h : capacity ≤ larger) (requests : List Request) :
    (entriesOf ((new ops capacity).after ops requests).cache).map Prod.fst <+:
      (entriesOf ((new ops larger).after ops requests).cache).map Prod.fst := by
  rw [(kept_after hops capacity requests).keys_eq, (kept_after hops larger requests).keys_eq]
  apply List.take_prefix_take_left
  omega

theorem exists_lookup_larger (h : capacity ≤ larger) {t : Tree}
    (ht : (entriesOf ((new ops capacity).after ops requests).cache).lookup source = some t) :
    ∃ t', (entriesOf ((new ops larger).after ops requests).cache).lookup source = some t' := by
  have hkept := kept_after hops capacity requests
  have hkept' := kept_after hops larger requests
  have hmem := (hkept.isSome_lookup_iff source).1 (Option.isSome_of_eq_some ht)
  have hmore : max capacity 1 ≤ max larger 1 := by omega
  exact Option.isSome_iff_exists.1
    ((hkept'.isSome_lookup_iff source).2 ((List.take_prefix_take_left hmore).subset hmem))

/-- A request is answered from the tree that is remembered, or from one with the next identity. -/
theorem treeFor?_cases {s : Session γ} {t : Tree} (h : s.treeFor? ops r = some t) :
    (∃ source, r.source? = some source ∧ (entriesOf s.cache).lookup source = some t) ∨
      t.identity = s.fresh := by
  obtain ⟨source, hr, -⟩ := Option.bind_eq_some_iff.1 h
  have htree := tree_eq_ok hr h
  cases hfind : (entriesOf s.cache).lookup source with
  | some u =>
    rw [tree_hit hops hfind] at htree
    obtain rfl := Except.ok.inj htree
    exact Or.inl ⟨source, hr, hfind⟩
  | none =>
    cases hparse : Expr.parse source with
    | error d =>
      rw [tree, get_of_absent hops hfind, hparse] at htree
      cases htree
    | ok e =>
      rw [tree_miss hops hfind hparse] at htree
      obtain rfl := Except.ok.inj htree
      exact Or.inr rfl

/-- The identities with which the next request is answered were handed out together before, unless
the one session hands out a new one. -/
theorem Paired.handed_or_fresh (hle : capacity ≤ larger)
    (h : Paired ops entriesOf capacity larger requests) {t t' : Tree}
    (ht : ((new ops capacity).after ops requests).treeFor? ops r = some t)
    (ht' : ((new ops larger).after ops requests).treeFor? ops r = some t') :
    Handed ops capacity larger requests t.identity t'.identity ∨
      t.identity = ((new ops capacity).after ops requests).fresh := by
  rcases treeFor?_cases hops ht with ⟨source, hr, hfind⟩ | hfresh
  · obtain ⟨u, hu⟩ := exists_lookup_larger hops hle hfind
    rw [treeFor?_eq hr, tree_hit hops hu] at ht'
    obtain rfl := Option.some.inj ht'
    exact Or.inl (h.remembered hfind hu)
  · exact Or.inr hfresh

theorem Paired.step (hle : capacity ≤ larger) (h : Paired ops entriesOf capacity larger requests)
    (r : Request) : Paired ops entriesOf capacity larger (requests ++ [r]) where
  functional := by
    intro a b b' hab hab'
    have hdifferent : ∀ {x}, Handed ops capacity larger requests a x →
        a ≠ ((new ops capacity).after ops requests).fresh := by
      rintro x ⟨i, t, t', ht, -, rfl, -⟩
      exact Nat.ne_of_lt (identity_lt_of_treeAt? hops ht)
    -- an old identity is not the next one, so both pairs are old or come from the last request
    rcases handed_concat.1 hab with hold | ⟨t, t', ht, ht', rfl, rfl⟩
    · rcases handed_concat.1 hab' with hold' | ⟨u, u', hu, hu', rfl, rfl⟩
      · exact h.functional hold hold'
      · rcases h.handed_or_fresh hops hle hu hu' with hold' | hfresh
        · exact h.functional hold hold'
        · exact absurd hfresh (hdifferent hold)
    · rcases handed_concat.1 hab' with hold' | ⟨u, u', -, hu', -, rfl⟩
      · rcases h.handed_or_fresh hops hle ht ht' with hold | hfresh
        · exact h.functional hold hold'
        · exact absurd hfresh (hdifferent hold')
      · obtain rfl : t' = u' := Option.some.inj (ht'.symm.trans hu')
        rfl
  remembered := by
    intro source t t' hfind hfind'
    rw [after_concat] at hfind hfind'
    have hkept := kept_after hops capacity requests
    have hkept' := kept_after hops larger requests
    rw [handed_concat]
    by_cases hr : r.source? = some source
    · right
      -- what is remembered of a request's own text is the tree from which it was answered
      have hnone : ∀ q ∈ ([] : List Request), q.source? ≠ some source := fun q hq => by cases hq
      exact ⟨t, t', hkept.treeFor?_of_lookup_after hops hr hnone hfind,
        hkept'.treeFor?_of_lookup_after hops hr hnone hfind', rfl, rfl⟩
    · left
      exact h.remembered (lookup_of_lookup_step hops hkept.sound hr hfind)
        (lookup_of_lookup_step hops hkept'.sound hr hfind')

/-- Any requests keep the identities of both sessions in step. -/
theorem paired_after (hle : capacity ≤ larger) (requests : List Request) :
    Paired ops entriesOf capacity larger requests := by
  induction requests using List.reverseRecOn with
  | nil => exact paired_nil hops
  | append_singleton requests r ih => exact ih.step hops hle r

end

/-- A session of a larger capacity, asked the same, remembers more at any time: the texts of the
smaller one come first among its own, it has a hit wherever the smaller one has, and two requests
that the smaller one answers from one tree it answers from one tree, too. -/
theorem larger_capacity {γ : Type} {ops : CacheOps γ String Tree} {capacityOf : γ → Nat}
    {entriesOf : γ → List (String × Tree)} (hops : ops.LeastRecentlyUsed capacityOf entriesOf)
    {capacity larger : Nat} (hle : capacity ≤ larger) (requests : List Request) :
    (entriesOf ((new ops capacity).after ops requests).cache).map Prod.fst <+:
        (entriesOf ((new ops larger).after ops requests).cache).map Prod.fst ∧
      ops.size ((new ops capacity).after ops requests).cache ≤
        ops.size ((new ops larger).after ops requests).cache ∧
      (∀ r, ((new ops capacity).after ops requests).hits ops r = true →
        ((new ops larger).after ops requests).hits ops r = true) ∧
      ∀ i j t u, AnsweredFrom ops capacity requests i t → AnsweredFrom ops capacity requests j u →
        t.identity = u.identity → ∃ t' u', AnsweredFrom ops larger requests i t' ∧
          AnsweredFrom ops larger requests j u' ∧ t'.identity = u'.identity := by
  have hkeys := keys_prefix_of_le hops hle requests
  refine ⟨hkeys, ?_, ?_, ?_⟩
  · rw [hops.size_eq, hops.size_eq, ← List.length_map Prod.fst, ← List.length_map Prod.fst]
    exact hkeys.length_le
  · intro r hhit
    cases hr : r.source? with
    | none =>
      rw [hits, hr] at hhit
      cases hhit
    | some source =>
      rw [hits_eq hops hr] at hhit ⊢
      obtain ⟨t, ht⟩ := Option.isSome_iff_exists.1 hhit
      obtain ⟨t', ht'⟩ := exists_lookup_larger hops hle ht
      rw [ht']
      rfl
  · intro i j t u hanswered hanswered' hsame
    have ht := answeredFrom_iff.1 hanswered
    have hu := answeredFrom_iff.1 hanswered'
    obtain ⟨t', ht'⟩ := exists_treeAt? hops larger ht
    obtain ⟨u', hu'⟩ := exists_treeAt? hops larger hu
    exact ⟨t', u', answeredFrom_iff.2 ht', answeredFrom_iff.2 hu',
      (paired_after hops hle requests).functional ⟨i, t, t', ht, ht', rfl, rfl⟩
        ⟨j, u, u', hu, hu', hsame.symm, rfl⟩⟩

/-- Where there is room for one text only, `x` gets another tree when it comes back, and keeps it;
where there is room for two, it keeps its first one. -/
theorem larger_capacity_two :
    let requests : List Request :=
      [.parse "x", .evaluate "-7" [], .parse "(", .evaluate "x" [], .parse "x"]
    (Cache.ops : CacheOps (Cache String Tree) String Tree).LeastRecentlyUsed
        Cache.capacity Cache.entries ∧
      1 ≤ 2 ∧ AnsweredFrom Cache.ops 1 requests 3 ⟨2, .var .x⟩ ∧
      AnsweredFrom Cache.ops 1 requests 4 ⟨2, .var .x⟩ ∧
      AnsweredFrom Cache.ops 2 requests 3 ⟨0, .var .x⟩ ∧
      (∃ u, AnsweredFrom Cache.ops 2 requests 4 u ∧ u.identity = 0) ∧
      ((new Cache.ops 1).after Cache.ops requests).cache.entries.map Prod.fst = ["x"] ∧
      ["x"] <+: ((new Cache.ops 2).after Cache.ops requests).cache.entries.map Prod.fst := by
  intro requests
  have hle : 1 ≤ 2 := by decide
  have hsmall : AnsweredFrom Cache.ops 1 requests 3 ⟨2, .var .x⟩ := by
    rw [answeredFrom_iff]
    decide +kernel
  have hsmall' : AnsweredFrom Cache.ops 1 requests 4 ⟨2, .var .x⟩ := by
    rw [answeredFrom_iff]
    decide +kernel
  have hback : treeAt? Cache.ops 2 requests 3 = some ⟨0, .var .x⟩ := by decide +kernel
  have hone : ((new Cache.ops 1).after Cache.ops requests).cache.entries.map Prod.fst = ["x"] := by
    decide +kernel
  obtain ⟨hkeys, -, -, htrees⟩ := larger_capacity Cache.leastRecentlyUsed hle requests
  obtain ⟨t, u, ht, hu, hsame⟩ := htrees 3 4 _ _ hsmall hsmall' rfl
  have hfirst := answeredFrom_iff.1 ht
  rw [hback] at hfirst
  obtain rfl := Option.some.inj hfirst
  rw [hone] at hkeys
  exact ⟨Cache.leastRecentlyUsed, hle, hsmall, hsmall', ht, ⟨u, hu, hsame.symm⟩, hone, hkeys⟩

end Session

end PrefixArith
