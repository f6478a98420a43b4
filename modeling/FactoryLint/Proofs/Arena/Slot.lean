import FactoryLint.Proofs.Arena.Term

namespace FactoryLint.Arena

variable {a b : Arena}

theorem size_push (a : Arena) (n : Node) : (a.push n).2.size = a.size + 1 :=
  Array.size_push _

theorem node?_push (a : Arena) (n : Node) (id : NodeId) :
    (a.push n).2.node? id = if id = a.size then some n else a.node? id :=
  Array.getElem?_push

@[simp] theorem size_pushBuilt (a : Arena) (shape : Shape) :
    (a.pushBuilt shape).2.size = a.size + 1 :=
  a.size_push _

theorem node?_pushBuilt (a : Arena) (shape : Shape) (id : NodeId) :
    (a.pushBuilt shape).2.node? id =
      if id = a.size then some ⟨shape, none, .built none⟩ else a.node? id :=
  a.node?_push _ id

/-- A filled slot changes the shape of its node and the origin of what fills it. -/
theorem node?_replaceChild? {parent old new : NodeId} {shape : Shape}
    (hs : (a.shape? parent).bind (·.replaceChild? old new) = some shape) :
    ∃ b, a.replaceChild? parent old new = some b ∧ b.size = a.size ∧
      ∀ id, b.node? id = (a.node? id).map fun n =>
        { n with
          shape := if id = parent then shape else n.shape
          origin := if id = new then .built (a.span? old) else n.origin } := by
  refine ⟨_, by rw [replaceChild?, hs], by simp [size], fun id => ?_⟩
  simp only [node?, Array.getElem?_modify]
  cases h : a.nodes[id]? with
  | none => split_ifs <;> simp
  | some n => by_cases hp : parent = id <;> by_cases hn : new = id <;> simp [hp, hn, eq_comm]

end FactoryLint.Arena
