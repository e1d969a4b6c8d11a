import PrefixArith.Session

namespace PrefixArith

namespace Request

def source? : Request → Option String
  | parse source => some source
  | evaluate source _ => some source
  | evaluateOnEach source _ => some source
  | clear => none

def response : Request → Tree → Response
  | parse _, t => .tree (.ok t)
  | evaluate _ assignment, t => .value ((t.expr.value assignment).mapError Failure.value)
  | evaluateOnEach _ rows, t => .values ((t.expr.valueOnEach rows).mapError Failure.value)
  | clear, _ => .cleared

end Request

namespace Session

variable {γ : Type} (ops : CacheOps γ String Tree)

def after (s : Session γ) (requests : List Request) : Session γ :=
  requests.foldl (fun s r => (s.step ops r).2) s

def hits (s : Session γ) (r : Request) : Bool :=
  (r.source?.bind fun source => (ops.get s.cache source).1).isSome

def treeFor? (s : Session γ) (r : Request) : Option Tree :=
  r.source?.bind fun source => (s.tree ops source).1.toOption

/-- The tree from which the request at a place is answered, by a session that was new before the
first request. -/
def treeAt? (capacity : Nat) (requests : List Request) (i : Nat) : Option Tree :=
  requests[i]?.bind (((new ops capacity).after ops (requests.take i)).treeFor? ops)

/-- The request at a place finds or builds this tree, and its answer is the one from this tree. -/
structure AnsweredFrom (capacity : Nat) (requests : List Request) (i : Nat) (t : Tree) : Prop where
  tree : treeAt? ops capacity requests i = some t
  answer : ((new ops capacity).run ops requests)[i]?.map Prod.fst =
    requests[i]?.map fun r => r.response t

variable {ops} {capacity : Nat} {requests : List Request} {s : Session γ} {r : Request}
  {source : String} {t : Tree} {i : Nat}

theorem after_concat (s : Session γ) (requests : List Request) (r : Request) :
    s.after ops (requests ++ [r]) = ((s.after ops requests).step ops r).2 := by
  rw [after, List.foldl_append]
  rfl

theorem after_append_cons (s : Session γ) (earlier between : List Request) (r : Request) :
    s.after ops (earlier ++ r :: between) =
      (((s.after ops earlier).step ops r).2).after ops between := by
  rw [after, List.foldl_append]
  rfl

theorem step_eq_tree (h : r.source? = some source) :
    (s.step ops r).2 = (s.tree ops source).2 := by
  cases r with
  | clear => cases h
  | parse | evaluate | evaluateOnEach =>
    obtain rfl := Option.some.inj h
    rfl

theorem treeFor?_eq (h : r.source? = some source) :
    s.treeFor? ops r = (s.tree ops source).1.toOption := by
  rw [treeFor?, h, Option.bind_some]

theorem tree_eq_ok (hr : r.source? = some source) (h : s.treeFor? ops r = some t) :
    (s.tree ops source).1 = .ok t := by
  rw [treeFor?_eq hr] at h
  cases hresult : (s.tree ops source).1 with
  | error d =>
    rw [hresult] at h
    cases h
  | ok u =>
    rw [hresult] at h
    rw [Option.some.inj h]

theorem ask_eq_ok {α : Type} (question : Expr → Except EvalError α)
    (h : (s.tree ops source).1 = .ok t) :
    (s.ask ops source question).1 = (question t.expr).mapError Failure.value := by
  change (s.tree ops source).1.mapError Failure.parse >>= _ = _
  rw [h]
  rfl

/-- What a request is answered from is what it answers: for reading, the tree itself. -/
theorem step_eq_response (h : s.treeFor? ops r = some t) :
    (s.step ops r).1 = r.response t := by
  cases r with
  | clear => cases h
  | parse source =>
    exact congrArg Response.tree (tree_eq_ok rfl h)
  | evaluate source assignment =>
    exact congrArg Response.value (ask_eq_ok _ (tree_eq_ok rfl h))
  | evaluateOnEach source rows =>
    exact congrArg Response.values (ask_eq_ok _ (tree_eq_ok rfl h))

/-- The answer at a place is given in the state that the earlier requests leave. -/
theorem getElem?_run (s : Session γ) (requests : List Request) (i : Nat) :
    (s.run ops requests)[i]? = requests[i]?.map fun r =>
      (((s.after ops (requests.take i)).step ops r).1,
        ops.size (s.after ops (requests.take (i + 1))).cache) := by
  induction requests generalizing s i with
  | nil => rfl
  | cons q requests ih =>
    cases i with
    | zero => rfl
    | succ i =>
      rw [run, List.getElem?_cons_succ, List.getElem?_cons_succ, ih]
      rfl

theorem answeredFrom_iff :
    AnsweredFrom ops capacity requests i t ↔ treeAt? ops capacity requests i = some t := by
  refine ⟨AnsweredFrom.tree, fun htree => ⟨htree, ?_⟩⟩
  obtain ⟨r, hr, hfor⟩ := Option.bind_eq_some_iff.1 htree
  rw [getElem?_run, hr, Option.map_some, Option.map_some, Option.map_some, step_eq_response hfor]

theorem treeAt?_append (h : i < requests.length) (more : List Request) :
    treeAt? ops capacity (requests ++ more) i = treeAt? ops capacity requests i := by
  rw [treeAt?, treeAt?, List.getElem?_append_left h,
    List.take_append_of_le_length (Nat.le_of_lt h)]

theorem treeAt?_take {j : Nat} (hj : j < i) (hi : i ≤ requests.length) :
    treeAt? ops capacity (requests.take i) j = treeAt? ops capacity requests j := by
  have hlt : j < (requests.take i).length := by
    rw [List.length_take_of_le hi]
    exact hj
  rw [← treeAt?_append hlt (requests.drop i), List.take_append_drop]

theorem treeAt?_eq (hi : requests[i]? = some r) (hr : r.source? = some source) :
    treeAt? ops capacity requests i =
      (((new ops capacity).after ops (requests.take i)).tree ops source).1.toOption := by
  rw [treeAt?, hi, Option.bind_some, treeFor?_eq hr]

theorem treeAt?_length (earlier between : List Request) (r : Request) :
    treeAt? ops capacity (earlier ++ r :: between) earlier.length =
      ((new ops capacity).after ops earlier).treeFor? ops r := by
  rw [treeAt?, List.getElem?_append_right (Nat.le_refl _), Nat.sub_self, List.take_left]
  rfl

end Session

end PrefixArith
