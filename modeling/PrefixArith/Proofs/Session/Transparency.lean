import PrefixArith.Proofs.Cache
import PrefixArith.Session

namespace PrefixArith

def Response.anonymous : Response → Response
  | tree result => tree (result.map fun t => ⟨0, t.expr⟩)
  | value result => value result
  | values result => values result
  | cleared => cleared

def Request.answer : Request → Response
  | parse source => .tree ((Expr.parse source).map fun e => ⟨0, e⟩)
  | evaluate source assignment => .value (PrefixArith.evaluate source assignment)
  | evaluateOnEach source rows => .values (PrefixArith.evaluateOnEach source rows)
  | clear => .cleared

namespace Session

variable {γ : Type} {ops : CacheOps γ String Tree}

/-- Every remembered tree is the tree of its text. -/
def Sound (ops : CacheOps γ String Tree) (s : Session γ) : Prop :=
  ∀ source t, (ops.get s.cache source).1 = some t → Expr.parse source = .ok t.expr

section
variable (hops : ops.Faithful)
include hops

theorem sound_new (capacity : Nat) : (new ops capacity).Sound ops :=
  fun _ _ h => absurd h hops.get_new

/-- A lookup keeps a session sound. -/
theorem Sound.get {s : Session γ} (h : s.Sound ops) (source : String) (fresh : Nat) :
    Sound ops ⟨(ops.get s.cache source).2, fresh⟩ :=
  fun other t hget => h other t (hops.get_get hget)

/-- Putting a tree of its text keeps a session sound. -/
theorem Sound.put {s : Session γ} (h : s.Sound ops) {source : String} {t : Tree}
    (ht : Expr.parse source = .ok t.expr) (fresh : Nat) :
    Sound ops ⟨ops.put s.cache source t, fresh⟩ := by
  intro other u hu
  by_cases hother : other = source
  · subst hother
    rw [hops.get_put_self hu]
    exact ht
  · exact h other u (hops.get_put_other hother hu)

theorem Sound.tree {s : Session γ} (h : s.Sound ops) (source : String) :
    (s.tree ops source).1.map Tree.expr = Expr.parse source ∧ (s.tree ops source).2.Sound ops := by
  have hfound := h source
  have hafter := h.get hops source s.fresh
  unfold Session.tree
  generalize ops.get s.cache source = lookup at hfound hafter
  obtain ⟨found, cache⟩ := lookup
  cases found with
  -- on a hit nothing is read, but what was remembered had been read from the same text
  | some t => exact ⟨(hfound t rfl).symm, hafter⟩
  | none =>
    cases hparse : Expr.parse source with
    | error d => exact ⟨rfl, hafter⟩
    | ok e => exact ⟨rfl, hafter.put hops hparse (s.fresh + 1)⟩

theorem Sound.ask {α : Type} {s : Session γ} (h : s.Sound ops) (source : String)
    (question : Expr → Except EvalError α) :
    (s.ask ops source question).1 =
        ((Expr.parse source).mapError Failure.parse >>= fun e =>
          (question e).mapError Failure.value) ∧
      (s.ask ops source question).2.Sound ops := by
  obtain ⟨hexpr, hsound⟩ := h.tree hops source
  refine ⟨?_, hsound⟩
  rw [← hexpr]
  unfold Session.ask
  obtain ⟨result, after⟩ := s.tree ops source
  cases result <;> rfl

/-- One answer is that of a session that remembers nothing, and the session stays sound. -/
theorem Sound.step {s : Session γ} (h : s.Sound ops) (request : Request) :
    (s.step ops request).1.anonymous = request.answer ∧ (s.step ops request).2.Sound ops := by
  cases request with
  | parse source =>
    obtain ⟨hexpr, hsound⟩ := h.tree hops source
    refine ⟨?_, hsound⟩
    change (Response.tree (s.tree ops source).1).anonymous = _
    rw [Request.answer, ← hexpr]
    cases (s.tree ops source).1 <;> rfl
  | evaluate source assignment =>
    obtain ⟨hvalue, hsound⟩ := h.ask hops source fun e => e.value assignment
    exact ⟨congrArg Response.value hvalue, hsound⟩
  | evaluateOnEach source rows =>
    obtain ⟨hvalues, hsound⟩ := h.ask hops source fun e => e.valueOnEach rows
    exact ⟨congrArg Response.values hvalues, hsound⟩
  | clear => exact ⟨rfl, fun _ _ hget => absurd hget hops.get_clear⟩

theorem Sound.run {s : Session γ} (h : s.Sound ops) (requests : List Request) :
    (s.run ops requests).map (fun answer => answer.1.anonymous) =
      requests.map Request.answer := by
  induction requests generalizing s with
  | nil => rfl
  | cons request requests ih =>
    obtain ⟨hanswer, hsound⟩ := h.step hops request
    rw [Session.run, List.map_cons, List.map_cons, ih hsound, hanswer]

end

/-- Whatever a new session is asked, and in whatever order, it answers as if it remembered
nothing, whenever its cache lets trees go. -/
theorem run_anonymous_eq_answer (hops : ops.Faithful) (capacity : Nat) (requests : List Request) :
    ((new ops capacity).run ops requests).map (fun answer => answer.1.anonymous) =
      requests.map Request.answer :=
  (sound_new hops capacity).run hops requests

/-- Where one tree is remembered, that of `x` is found once, goes for that of `y`, is built again
and is forgotten with all others. -/
theorem run_anonymous_eq_answer_one :
    let requests : List Request :=
      [.parse "x", .evaluate "x" [7], .parse "(", .evaluate "y" [7], .parse "x", .clear,
        .evaluateOnEach "x" [[7], []]]
    (Cache.ops : CacheOps (Cache String Tree) String Tree).Faithful ∧
      (answers 1 requests).map (fun answer => answer.1.anonymous) = requests.map Request.answer ∧
      answers 1 requests = [(.tree (.ok ⟨0, .var .x⟩), 1), (.value (.ok 7), 1),
        (.tree (.error (.located "(" (.unclosed 2))), 1),
        (.value (.error (.value (.unbound .y 1 1))), 1), (.tree (.ok ⟨2, .var .x⟩), 1),
        (.cleared, 0), (.values (.error (.value (.unbound .x 0 0))), 1)] := by
  refine ⟨Cache.faithful, run_anonymous_eq_answer Cache.faithful 1 _, ?_⟩
  with_unfolding_all rfl

end Session

end PrefixArith
