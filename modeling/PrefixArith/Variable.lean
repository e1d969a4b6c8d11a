namespace PrefixArith

inductive Variable where
  | x | y | z
deriving Repr, DecidableEq

namespace Variable

def all : List Variable := [x, y, z]

/-- The place of the variable's value in an assignment. -/
def index : Variable → Nat
  | x => 0
  | y => 1
  | z => 2

def name : Variable → String
  | x => "x"
  | y => "y"
  | z => "z"

def ofName? (s : String) : Option Variable := all.find? fun v => v.name == s

theorem mem_all (v : Variable) : v ∈ all := by cases v <;> decide

theorem getElem?_all_index (v : Variable) : all[v.index]? = some v := by cases v <;> rfl

theorem index_lt (v : Variable) : v.index < all.length := by cases v <;> decide

@[simp] theorem ofName?_name (v : Variable) : ofName? v.name = some v := by cases v <;> decide

theorem name_of_ofName? {s : String} {v : Variable} (h : ofName? s = some v) : v.name = s := by
  simpa using List.find?_some h

theorem ofName?_eq_some_iff {s : String} {v : Variable} : ofName? s = some v ↔ s = v.name :=
  ⟨fun h => (name_of_ofName? h).symm, fun h => h ▸ ofName?_name v⟩

end Variable

end PrefixArith
