import Mathlib.Data.List.Induction
import Mathlib.Data.List.Nodup
import PrefixArith.Proofs.Session.Answers
import PrefixArith.Proofs.Session.Transparency

namespace PrefixArith

section
variable {κ : Type} [BEq κ] [LawfulBEq κ]

theorem eraseDups_filter (p : κ → Bool) :
    ∀ l : List κ, (l.filter p).eraseDups = l.eraseDups.filter p
  | [] => rfl
  | a :: l => by
    have hshorter : (l.filter fun b => !b == a).length < l.length + 1 :=
      Nat.lt_succ_of_le (List.length_filter_le _ _)
    have ih := eraseDups_filter p (l.filter fun b => !b == a)
    rw [List.filter_filter] at ih
    by_cases ha : p a = true
    · rw [List.filter_cons_of_pos ha, List.eraseDups_cons, List.eraseDups_cons,
        List.filter_cons_of_pos ha, ← ih, List.filter_filter]
      simp only [Bool.and_comm]
    · rw [List.filter_cons_of_neg ha, List.eraseDups_cons, List.filter_cons_of_neg ha, ← ih]
      apply congrArg List.eraseDups
      apply List.filter_congr
      intro b _
      by_cases hb : b = a
      · rw [hb, Bool.eq_false_iff.2 ha]
        rfl
      · simp [hb]
termination_by l => l.length

theorem nodup_eraseDups : ∀ l : List κ, l.eraseDups.Nodup
  | [] => List.nodup_nil
  | a :: l => by
    have hshorter : (l.filter fun b => !b == a).length < l.length + 1 :=
      Nat.lt_succ_of_le (List.length_filter_le _ _)
    rw [List.eraseDups_cons, List.nodup_cons]
    refine ⟨?_, nodup_eraseDups _⟩
    simp [List.mem_eraseDups]
termination_by l => l.length

/-- Taking out one element leaves room for one more. -/
theorem take_filter_take {l : List κ} (hl : l.Nodup) (key : κ) (n : Nat) :
    ((l.take (n + 1)).filter (· != key)).take n = (l.filter (· != key)).take n := by
  induction l generalizing n with
  | nil => simp
  | cons a l ih =>
    obtain ⟨ha, hl⟩ := List.nodup_cons.1 hl
    rw [List.take_succ_cons]
    by_cases hkey : a = key
    · have hrest : ∀ b ∈ l, (b != key) = true := by
        intro b hb
        rw [bne_iff_ne]
        rintro rfl
        exact ha (hkey ▸ hb)
      have hfront : ∀ b ∈ l.take n, (b != key) = true :=
        fun b hb => hrest b (List.mem_of_mem_take hb)
      rw [List.filter_cons_of_neg (by simp [hkey]), List.filter_cons_of_neg (by simp [hkey]),
        List.filter_eq_self.2 hrest, List.filter_eq_self.2 hfront, List.take_take, Nat.min_self]
    · rw [List.filter_cons_of_pos (by simp [hkey]), List.filter_cons_of_pos (by simp [hkey])]
      cases n with
      | zero => rfl
      | succ n => rw [List.take_succ_cons, List.take_succ_cons, ih hl n]

end

namespace Request

/-- The text that a request uses: the one it is about, if that has an expression. Whether the
expression has a value is not asked. -/
def used? (r : Request) : Option String :=
  r.source?.filter fun source => (Expr.parse source).isOk

/-- The texts used since the last clearing, each once, in the order of their last use, the latest
first. -/
def recent (requests : List Request) : List String :=
  ((requests.reverse.takeWhile (· != clear)).filterMap used?).eraseDups

variable {requests : List Request} {r : Request} {source : String}

theorem recent_clear : recent (requests ++ [clear]) = [] := by
  rw [recent, List.reverse_concat, List.takeWhile_cons_of_neg (by simp)]
  rfl

theorem ne_clear_of_source? (h : r.source? = some source) : r ≠ clear := by
  rintro rfl
  cases h

theorem recent_use {e : Expr} (h : r.source? = some source) (he : Expr.parse source = .ok e) :
    recent (requests ++ [r]) = source :: (recent requests).filter (· != source) := by
  have hused : r.used? = some source := by
    rw [used?, h, Option.filter_some, he]
    rfl
  rw [recent, List.reverse_concat,
    List.takeWhile_cons_of_pos (by simpa using ne_clear_of_source? h),
    List.filterMap_cons_some hused, List.eraseDups_cons, eraseDups_filter]
  rfl

theorem recent_fault {d : Diagnostic} (h : r.source? = some source)
    (hd : Expr.parse source = .error d) : recent (requests ++ [r]) = recent requests := by
  have hused : r.used? = none := by
    rw [used?, h, Option.filter_some, hd]
    rfl
  rw [recent, List.reverse_concat,
    List.takeWhile_cons_of_pos (by simpa using ne_clear_of_source? h),
    List.filterMap_cons_none hused]
  rfl

/-- Neither a text without expression counts nor what came before the last clearing, and `x` counts
for its later use, though it has no value there. -/
example :
    recent [.parse "z", .clear, .parse "x", .evaluate "1" [], .parse "(", .evaluate "x" []] =
      ["x", "1"] := by
  decide +kernel

/-- Every text among them has a last use. -/
theorem exists_last_use (h : source ∈ recent requests) :
    ∃ earlier r between, requests = earlier ++ r :: between ∧ r.source? = some source ∧
      ∀ q ∈ between, q.source? ≠ some source := by
  rw [recent, List.mem_eraseDups, List.mem_filterMap] at h
  obtain ⟨r, hr, hused⟩ := h
  have hsource : r.source? = some source := (Option.filter_eq_some_iff.1 hused).1
  have hmem : r ∈ requests.reverse := (List.takeWhile_prefix _).subset hr
  have hfind : (requests.reverse.find? fun q => decide (q.source? = some source)).isSome := by
    rw [List.find?_isSome]
    exact ⟨r, hmem, decide_eq_true hsource⟩
  obtain ⟨q, hq⟩ := Option.isSome_iff_exists.1 hfind
  obtain ⟨hqs, as, bs, hsplit, has⟩ := List.find?_eq_some_iff_append.1 hq
  refine ⟨bs.reverse, q, as.reverse, ?_, of_decide_eq_true hqs, ?_⟩
  · rw [← List.reverse_reverse requests, hsplit]
    simp
  · intro q' hq'
    have hnot := has q' (List.mem_reverse.1 hq')
    simpa using hnot

/-- The last of the first `i` requests that is about a text stands at place `j`. -/
structure LastUse (requests : List Request) (source : String) (j i : Nat) : Prop where
  lt : j < i
  about : requests[j]?.bind source? = some source
  last : ∀ k, j < k → k < i → requests[k]?.bind source? ≠ some source

theorem exists_lastUse {i : Nat} (hi : i ≤ requests.length)
    (h : source ∈ recent (requests.take i)) :
    ∃ earlier r between, requests.take i = earlier ++ r :: between ∧ r.source? = some source ∧
      (∀ q ∈ between, q.source? ≠ some source) ∧ LastUse requests source earlier.length i := by
  obtain ⟨earlier, r, between, hsplit, hr, hbetween⟩ := exists_last_use h
  have hlength : earlier.length + (between.length + 1) = i := by
    have hlengths := congrArg List.length hsplit
    rw [List.length_take_of_le hi, List.length_append, List.length_cons] at hlengths
    exact hlengths.symm
  have hplace : ∀ k, k < i → requests[k]? = (earlier ++ r :: between)[k]? := by
    intro k hk
    rw [← hsplit, List.getElem?_take_of_lt hk]
  refine ⟨earlier, r, between, hsplit, hr, hbetween, ?_, ?_, ?_⟩
  · omega
  · rw [hplace _ (by omega), List.getElem?_append_right (Nat.le_refl _), Nat.sub_self]
    exact hr
  · intro k hjk hki hk
    obtain ⟨q, hq, habout⟩ := Option.bind_eq_some_iff.1 hk
    obtain ⟨n, hn⟩ : ∃ n, k - earlier.length = n + 1 := ⟨k - earlier.length - 1, by omega⟩
    rw [hplace k hki, List.getElem?_append_right (Nat.le_of_lt hjk), hn,
      List.getElem?_cons_succ] at hq
    exact hbetween q (List.mem_of_getElem? hq) habout

end Request

namespace Session

/-- What a session that was new remembers after some requests: the trees of the texts used last,
all of which were built by then. -/
structure Kept {γ : Type} (ops : CacheOps γ String Tree) (capacityOf : γ → Nat)
    (entriesOf : γ → List (String × Tree)) (capacity : Nat) (requests : List Request)
    (s : Session γ) : Prop where
  sound : s.Sound ops
  capacity_eq : capacityOf s.cache = max capacity 1
  keys_eq : (entriesOf s.cache).map Prod.fst =
    (Request.recent requests).take (max capacity 1)
  identity_lt : ∀ entry ∈ entriesOf s.cache, entry.2.identity < s.fresh

/-- How a session that was new answers the request at a place, which is about a text: a hit is a
text among the latest ones, and it is answered from the tree of the text's last use; a miss is
answered from a tree of its own, under an identity that no earlier one had; and a text without
expression changes nothing. -/
structure AnsweredByRecency {γ : Type} (ops : CacheOps γ String Tree) (capacity : Nat)
    (requests : List Request) (i : Nat) (r : Request) (source : String) : Prop where
  hit_iff : ((new ops capacity).after ops (requests.take i)).hits ops r = true ↔
    source ∈ (Request.recent (requests.take i)).take (max capacity 1)
  hit : ((new ops capacity).after ops (requests.take i)).hits ops r = true →
    ∃ j t, Request.LastUse requests source j i ∧ AnsweredFrom ops capacity requests j t ∧
      AnsweredFrom ops capacity requests i t
  miss : ((new ops capacity).after ops (requests.take i)).hits ops r = false →
    ∀ e, Expr.parse source = .ok e → ∃ t, AnsweredFrom ops capacity requests i t ∧ t.expr = e ∧
      ∀ j t', j < i → AnsweredFrom ops capacity requests j t' → t'.identity ≠ t.identity
  fault : ∀ d, Expr.parse source = .error d →
    (new ops capacity).after ops (requests.take (i + 1)) =
      (new ops capacity).after ops (requests.take i)

section
variable {γ : Type} {ops : CacheOps γ String Tree} {capacityOf : γ → Nat}
  {entriesOf : γ → List (String × Tree)} {s s' : Session γ} {r : Request} {source : String}
  {capacity : Nat} {requests : List Request} {i j : Nat} {t : Tree}

theorem Kept.used (h : Kept ops capacityOf entriesOf capacity requests s)
    (hr : r.source? = some source) (ht : Expr.parse source = .ok t.expr)
    (hused : CacheOps.Used capacityOf entriesOf s.cache s'.cache source t)
    (hs' : s'.Sound ops) (hle : s.fresh ≤ s'.fresh) (hlt : t.identity < s'.fresh) :
    Kept ops capacityOf entriesOf capacity (requests ++ [r]) s' where
  sound := hs'
  capacity_eq := hused.capacity_eq.trans h.capacity_eq
  keys_eq := by
    have hnodup : (Request.recent requests).Nodup := nodup_eraseDups _
    obtain ⟨n, hn⟩ : ∃ n, max capacity 1 = n + 1 := ⟨max capacity 1 - 1, by omega⟩
    -- whether the text was kept or not, cutting off commutes with moving it to the front
    rw [hused.keys_eq, h.keys_eq, h.capacity_eq, Request.recent_use hr ht, hn,
      List.take_succ_cons, List.take_succ_cons, take_filter_take hnodup]
  identity_lt := by
    intro entry hentry
    rcases hused.mem hentry with rfl | hentry
    · exact hlt
    · exact Nat.lt_of_lt_of_le (h.identity_lt entry hentry) hle

theorem Kept.isSome_lookup_iff (h : Kept ops capacityOf entriesOf capacity requests s)
    (source : String) :
    ((entriesOf s.cache).lookup source).isSome = true ↔
      source ∈ (Request.recent requests).take (max capacity 1) := by
  rw [← h.keys_eq, List.lookup_isSome_iff, List.mem_map]
  simp only [beq_iff_eq, eq_comm (a := source)]

variable (hops : ops.LeastRecentlyUsed capacityOf entriesOf)
include hops

theorem tree_hit (h : (entriesOf s.cache).lookup source = some t) :
    s.tree ops source = (.ok t, ⟨(ops.get s.cache source).2, s.fresh⟩) := by
  have hfound := hops.get_fst s.cache source
  rw [h] at hfound
  unfold tree
  generalize ops.get s.cache source = lookup at hfound
  obtain ⟨found, cache⟩ := lookup
  obtain rfl : found = some t := hfound
  rfl

theorem get_of_absent (h : (entriesOf s.cache).lookup source = none) :
    ops.get s.cache source = (none, s.cache) :=
  Prod.ext ((hops.get_fst _ _).trans h) (hops.get_absent h)

theorem tree_miss {e : Expr} (h : (entriesOf s.cache).lookup source = none)
    (he : Expr.parse source = .ok e) :
    s.tree ops source =
      (.ok ⟨s.fresh, e⟩, ⟨ops.put s.cache source ⟨s.fresh, e⟩, s.fresh + 1⟩) := by
  rw [tree, get_of_absent hops h, he]

theorem Sound.parse_eq_ok (hs : s.Sound ops)
    (h : (entriesOf s.cache).lookup source = some t) : Expr.parse source = .ok t.expr :=
  hs source t ((hops.get_fst _ _).trans h)

/-- A text that has an expression is used, whether its tree was remembered or not. -/
theorem exists_tree_used (hs : s.Sound ops) {e : Expr} (he : Expr.parse source = .ok e) :
    ∃ t s', s.tree ops source = (.ok t, s') ∧ t.expr = e ∧ s.fresh ≤ s'.fresh ∧
      CacheOps.Used capacityOf entriesOf s.cache s'.cache source t ∧
      ((entriesOf s.cache).lookup source = some t ∨ t.identity < s'.fresh) := by
  cases hfind : (entriesOf s.cache).lookup source with
  | some t =>
    have ht := hs.parse_eq_ok hops hfind
    rw [he] at ht
    exact ⟨t, _, tree_hit hops hfind, (Except.ok.inj ht).symm, Nat.le_refl _,
      hops.used_get hfind, Or.inl rfl⟩
  | none =>
    exact ⟨⟨s.fresh, e⟩, _, tree_miss hops hfind he, rfl, Nat.le_succ _, hops.used_put _ _ _,
      Or.inr (Nat.lt_succ_self _)⟩

/-- A text without expression is not remembered, and asking for it changes nothing. -/
theorem tree_fault (hs : s.Sound ops) {d : Diagnostic} (hd : Expr.parse source = .error d) :
    s.tree ops source = (.error d, s) := by
  cases hfind : (entriesOf s.cache).lookup source with
  | some t =>
    have ht := hs.parse_eq_ok hops hfind
    rw [hd] at ht
    cases ht
  | none => rw [tree, get_of_absent hops hfind, hd]

theorem kept_new (capacity : Nat) :
    Kept ops capacityOf entriesOf capacity [] (new ops capacity) where
  sound := sound_new hops.faithful capacity
  capacity_eq := hops.capacity_new _ _
  keys_eq := by
    rw [new, hops.entries_new]
    exact List.take_nil.symm
  identity_lt := by
    intro entry hentry
    rw [new, hops.entries_new] at hentry
    cases hentry

theorem Kept.clear (h : Kept ops capacityOf entriesOf capacity requests s) :
    Kept ops capacityOf entriesOf capacity (requests ++ [.clear]) ⟨ops.clear s.cache, s.fresh⟩ where
  sound := (h.sound.step hops.faithful .clear).2
  capacity_eq := (hops.capacity_clear _).trans h.capacity_eq
  keys_eq := by
    rw [Request.recent_clear, List.take_nil, hops.entries_clear]
    rfl
  identity_lt := by
    intro entry hentry
    rw [hops.entries_clear] at hentry
    cases hentry

/-- One more request keeps what is remembered the texts used last. -/
theorem Kept.step (h : Kept ops capacityOf entriesOf capacity requests s) (r : Request) :
    Kept ops capacityOf entriesOf capacity (requests ++ [r]) (s.step ops r).2 ∧
      s.fresh ≤ (s.step ops r).2.fresh ∧
      ∀ t, s.treeFor? ops r = some t → t.identity < (s.step ops r).2.fresh := by
  have hsound := (h.sound.step hops.faithful r).2
  cases hr : r.source? with
  | none =>
    cases r with
    | parse | evaluate | evaluateOnEach => cases hr
    | clear => exact ⟨h.clear hops, Nat.le_refl _, fun t ht => by cases ht⟩
  | some source =>
    rw [step_eq_tree hr] at hsound ⊢
    rw [treeFor?_eq hr]
    cases hparse : Expr.parse source with
    | error d =>
      rw [tree_fault hops h.sound hparse]
      refine ⟨⟨h.sound, h.capacity_eq, ?_, h.identity_lt⟩, Nat.le_refl _, ?_⟩
      · rw [Request.recent_fault hr hparse]
        exact h.keys_eq
      · intro t ht
        cases ht
    | ok e =>
      obtain ⟨t, s', htree, rfl, hle, hused, hbuilt⟩ := exists_tree_used hops h.sound hparse
      have hlt : t.identity < s'.fresh := by
        rcases hbuilt with hfind | hlt
        · exact Nat.lt_of_lt_of_le (h.identity_lt _ (mem_of_lookup hfind)) hle
        · exact hlt
      rw [htree] at hsound ⊢
      refine ⟨h.used hr hparse hused hsound hle hlt, hle, ?_⟩
      intro t' ht'
      obtain rfl := Option.some.inj ht'
      exact hlt

/-- Any requests leave a session with the texts used last. -/
theorem kept_after (capacity : Nat) (requests : List Request) :
    Kept ops capacityOf entriesOf capacity requests ((new ops capacity).after ops requests) := by
  induction requests using List.reverseRecOn with
  | nil => exact kept_new hops capacity
  | append_singleton requests r ih =>
    rw [after_concat]
    exact (ih.step hops r).1

theorem Kept.size_eq (h : Kept ops capacityOf entriesOf capacity requests s) :
    ops.size s.cache = min (max capacity 1) (Request.recent requests).length := by
  rw [hops.size_eq, ← List.length_map Prod.fst, h.keys_eq, List.length_take]

theorem hits_eq (hr : r.source? = some source) :
    s.hits ops r = ((entriesOf s.cache).lookup source).isSome := by
  rw [hits, hr, Option.bind_some, hops.get_fst]

/-- A request about another text lets no other tree appear under a text. -/
theorem lookup_of_lookup_step (hs : s.Sound ops) (hr : r.source? ≠ some source)
    (h : (entriesOf (s.step ops r).2.cache).lookup source = some t) :
    (entriesOf s.cache).lookup source = some t := by
  cases hsource : r.source? with
  | none =>
    cases r with
    | parse | evaluate | evaluateOnEach => cases hsource
    | clear =>
      change (entriesOf (ops.clear s.cache)).lookup source = some t at h
      rw [hops.entries_clear] at h
      cases h
  | some other =>
    rw [step_eq_tree hsource] at h
    cases hparse : Expr.parse other with
    | error d => rwa [tree_fault hops hs hparse] at h
    | ok e =>
      obtain ⟨t', s', htree, -, -, hused, -⟩ := exists_tree_used hops hs hparse
      rw [htree] at h
      apply hused.lookup_of_ne ?_ h
      rintro rfl
      exact hr hsource

theorem lookup_of_lookup_after (hs : s.Sound ops) {between : List Request}
    (hbetween : ∀ q ∈ between, q.source? ≠ some source)
    (h : (entriesOf (s.after ops between).cache).lookup source = some t) :
    (entriesOf s.cache).lookup source = some t := by
  induction between generalizing s with
  | nil => exact h
  | cons q between ih =>
    apply lookup_of_lookup_step hops hs (hbetween q List.mem_cons_self)
    exact ih (hs.step hops.faithful q).2 (fun q' hq' => hbetween q' (List.mem_cons_of_mem _ hq')) h

/-- What a request gives a text's tree to remember is the tree from which it is answered. -/
theorem Kept.treeFor?_of_lookup_after (h : Kept ops capacityOf entriesOf capacity requests s)
    (hr : r.source? = some source) {between : List Request}
    (hbetween : ∀ q ∈ between, q.source? ≠ some source)
    (ht : (entriesOf ((s.step ops r).2.after ops between).cache).lookup source = some t) :
    s.treeFor? ops r = some t := by
  have hfind := lookup_of_lookup_after hops (h.sound.step hops.faithful r).2 hbetween ht
  rw [treeFor?_eq hr]
  rw [step_eq_tree hr] at hfind
  cases hparse : Expr.parse source with
  | error d =>
    rw [tree_fault hops h.sound hparse] at hfind
    rw [h.sound.parse_eq_ok hops hfind] at hparse
    cases hparse
  | ok e =>
    obtain ⟨t', s', htree, -, -, hused, -⟩ := exists_tree_used hops h.sound hparse
    have hroom : 0 < capacityOf s.cache := by
      rw [h.capacity_eq]
      omega
    rw [htree, hused.lookup_self hroom] at hfind
    rw [htree, ← hfind]
    rfl

/-- A request is answered from a tree that was built by the time of any later one. -/
theorem Kept.identity_lt_after (h : Kept ops capacityOf entriesOf capacity requests s)
    (ht : s.treeFor? ops r = some t) (between : List Request) :
    t.identity < ((s.step ops r).2.after ops between).fresh := by
  obtain ⟨hkept, -, hlt⟩ := h.step hops r
  apply Nat.lt_of_lt_of_le (hlt t ht)
  -- identities are given out in increasing order
  generalize (s.step ops r).2 = s', requests ++ [r] = requests' at hkept
  clear hlt ht h
  induction between generalizing s' requests' with
  | nil => exact Nat.le_refl _
  | cons q between ih =>
    obtain ⟨hnext, hle, -⟩ := hkept.step hops q
    exact Nat.le_trans hle (ih _ _ hnext)

theorem identity_lt_of_treeAt? (h : treeAt? ops capacity requests j = some t) :
    t.identity < ((new ops capacity).after ops requests).fresh := by
  obtain ⟨r, hr, htree⟩ := Option.bind_eq_some_iff.1 h
  obtain ⟨hj, hget⟩ := List.getElem?_eq_some_iff.1 hr
  have hsplit : requests = requests.take j ++ r :: requests.drop (j + 1) := by
    rw [← hget, List.getElem_cons_drop, List.take_append_drop]
  rw [hsplit, after_append_cons]
  exact (kept_after hops capacity _).identity_lt_after hops htree _

/-- A text that is remembered is answered from the tree of its last use. -/
theorem answeredFrom_lastUse (hi : requests[i]? = some r) (hr : r.source? = some source)
    (ht : (entriesOf ((new ops capacity).after ops (requests.take i)).cache).lookup source =
      some t) :
    ∃ j, Request.LastUse requests source j i ∧ AnsweredFrom ops capacity requests j t ∧
      AnsweredFrom ops capacity requests i t := by
  have hle : i ≤ requests.length := Nat.le_of_lt (List.getElem?_eq_some_iff.1 hi).1
  have hkept := kept_after hops capacity (requests.take i)
  have hrecent := List.mem_of_mem_take
    ((hkept.isSome_lookup_iff source).1 (Option.isSome_of_eq_some ht))
  obtain ⟨earlier, r', between, hsplit, hr', hbetween, hlast⟩ :=
    Request.exists_lastUse hle hrecent
  refine ⟨earlier.length, hlast, answeredFrom_iff.2 ?_, answeredFrom_iff.2 ?_⟩
  · rw [hsplit, after_append_cons] at ht
    rw [← treeAt?_take hlast.lt hle, hsplit, treeAt?_length]
    exact (kept_after hops capacity earlier).treeFor?_of_lookup_after hops hr' hbetween ht
  · rw [treeAt?_eq hi hr, tree_hit hops ht]
    rfl

/-- A text that is not remembered is answered from a tree that no earlier request had. -/
theorem answeredFrom_fresh (hi : requests[i]? = some r) (hr : r.source? = some source)
    (hmiss : (entriesOf ((new ops capacity).after ops (requests.take i)).cache).lookup source =
      none) {e : Expr} (he : Expr.parse source = .ok e) :
    ∃ t, AnsweredFrom ops capacity requests i t ∧ t.expr = e ∧
      ∀ j t', j < i → AnsweredFrom ops capacity requests j t' → t'.identity ≠ t.identity := by
  have hle : i ≤ requests.length := Nat.le_of_lt (List.getElem?_eq_some_iff.1 hi).1
  refine ⟨⟨((new ops capacity).after ops (requests.take i)).fresh, e⟩, answeredFrom_iff.2 ?_, rfl,
    ?_⟩
  · rw [treeAt?_eq hi hr, tree_miss hops hmiss he]
    rfl
  · intro j t' hj ht'
    have hearlier := answeredFrom_iff.1 ht'
    rw [← treeAt?_take hj hle] at hearlier
    exact Nat.ne_of_lt (identity_lt_of_treeAt? hops hearlier)

theorem answeredByRecency (capacity : Nat) (hi : requests[i]? = some r)
    (hr : r.source? = some source) : AnsweredByRecency ops capacity requests i r source := by
  have hkept := kept_after hops capacity (requests.take i)
  refine ⟨?_, ?_, ?_, ?_⟩
  · rw [hits_eq hops hr, hkept.isSome_lookup_iff]
  · intro hhit
    rw [hits_eq hops hr] at hhit
    obtain ⟨t, ht⟩ := Option.isSome_iff_exists.1 hhit
    obtain ⟨j, hj⟩ := answeredFrom_lastUse hops hi hr ht
    exact ⟨j, t, hj⟩
  · intro hmiss e he
    rw [hits_eq hops hr, Option.isSome_eq_false_iff, Option.isNone_iff_eq_none] at hmiss
    exact answeredFrom_fresh hops hi hr hmiss he
  · intro d hd
    have hnext : requests.take (i + 1) = requests.take i ++ [r] := by
      rw [List.take_add_one, hi, Option.toList_some]
    rw [hnext, after_concat, step_eq_tree hr, tree_fault hops hkept.sound hd]

end

/-- Whatever a new session was asked, it remembers the texts used last, the latest first and as many
as fit, which is the number it tells with each answer; and it answers every request about a text
from the tree of the text's last use as long as the text is among them, else from a new one. -/
theorem remembers_recent {γ : Type} {ops : CacheOps γ String Tree} {capacityOf : γ → Nat}
    {entriesOf : γ → List (String × Tree)} (hops : ops.LeastRecentlyUsed capacityOf entriesOf)
    (capacity : Nat) (requests : List Request) :
    (entriesOf ((new ops capacity).after ops requests).cache).map Prod.fst =
        (Request.recent requests).take (max capacity 1) ∧
      ops.size ((new ops capacity).after ops requests).cache =
        min (max capacity 1) (Request.recent requests).length ∧
      (∀ i answer, ((new ops capacity).run ops requests)[i]? = some answer →
        answer.2 = min (max capacity 1) (Request.recent (requests.take (i + 1))).length) ∧
      ∀ i r source, requests[i]? = some r → r.source? = some source →
        AnsweredByRecency ops capacity requests i r source := by
  have hkept := kept_after hops capacity requests
  refine ⟨hkept.keys_eq, hkept.size_eq hops, ?_, fun i r source hi hr =>
    answeredByRecency hops capacity hi hr⟩
  intro i answer hanswer
  rw [getElem?_run] at hanswer
  obtain ⟨r, -, rfl⟩ := Option.map_eq_some_iff.1 hanswer
  exact (kept_after hops capacity (requests.take (i + 1))).size_eq hops

/-- With room for two, `x` has its first tree when it comes back, since it was used later than `y`,
though it had no value there. The tree of `y` went for that of `z`, so another one is built. -/
theorem remembers_recent_two :
    let requests : List Request :=
      [.parse "x", .parse "y", .evaluate "x" [], .parse "z", .parse "(", .parse "x", .parse "y"]
    (Cache.ops : CacheOps (Cache String Tree) String Tree).LeastRecentlyUsed
        Cache.capacity Cache.entries ∧
      requests[5]? = some (.parse "x") ∧ requests[6]? = some (.parse "y") ∧
      AnsweredByRecency Cache.ops 2 requests 5 (.parse "x") "x" ∧
      AnsweredByRecency Cache.ops 2 requests 6 (.parse "y") "y" ∧
      Request.recent (requests.take 5) = ["z", "x", "y"] ∧
      answers 2 requests = [(.tree (.ok ⟨0, .var .x⟩), 1), (.tree (.ok ⟨1, .var .y⟩), 2),
        (.value (.error (.value (.unbound .x 0 0))), 2), (.tree (.ok ⟨2, .var .z⟩), 2),
        (.tree (.error (.located "(" (.unclosed 2))), 2), (.tree (.ok ⟨0, .var .x⟩), 2),
        (.tree (.ok ⟨3, .var .y⟩), 2)] := by
  intro requests
  obtain ⟨-, -, -, hanswered⟩ := remembers_recent Cache.leastRecentlyUsed 2 requests
  refine ⟨Cache.leastRecentlyUsed, rfl, rfl, hanswered 5 _ _ rfl rfl, hanswered 6 _ _ rfl rfl,
    ?_, ?_⟩
  · with_unfolding_all rfl
  · with_unfolding_all rfl

end Session

end PrefixArith
