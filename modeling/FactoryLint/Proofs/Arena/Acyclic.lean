import FactoryLint.Proofs.Arena.Term
import Mathlib.Data.Finset.Card
import Mathlib.Data.Finset.Range
import Mathlib.Logic.Relation

namespace FactoryLint.Arena

open Relation (ReflTransGen TransGen)

variable {a : Arena} {x y : NodeId}

def Child (a : Arena) (x y : NodeId) : Prop := y ∈ a.children x

/-- No node lies below itself. -/
def Acyclic (a : Arena) : Prop := ∀ x, ¬TransGen a.Child x x

theorem node?_eq_none_iff : a.node? x = none ↔ a.size ≤ x :=
  Array.getElem?_eq_none_iff

theorem exists_node? (h : x < a.size) : ∃ n, a.node? x = some n :=
  ⟨a.nodes[x], Array.getElem?_eq_getElem h⟩

theorem child_iff {n : Node} (hn : a.node? x = some n) : a.Child x y ↔ y ∈ n.shape.children := by
  rw [Child, children_eq hn]

theorem children_of_size_le (h : a.size ≤ x) : a.children x = [] := by
  rw [children, shape?, node?_eq_none_iff.mpr h]
  rfl

theorem Child.lt_size (h : a.Child x y) : x < a.size := by
  by_contra hx
  rw [Child, children_of_size_le (Nat.le_of_not_lt hx)] at h
  cases h

/-- Where every node refers to earlier ones only, there is no cycle. -/
theorem acyclic_of_children_lt (h : ∀ x < a.size, ∀ y ∈ a.children x, y < x) : a.Acyclic := by
  have hlt : ∀ x y, TransGen a.Child x y → y < x := by
    intro x y hxy
    induction hxy with
    | single hc => exact h x hc.lt_size _ hc
    | tail _ hc ih => exact Nat.lt_trans (h _ hc.lt_size _ hc) ih
  exact fun x hx => Nat.lt_irrefl x (hlt x x hx)

open Classical in
noncomputable def reach (a : Arena) (x : NodeId) : Finset NodeId :=
  (Finset.range a.size).filter fun y => ReflTransGen a.Child x y

theorem mem_reach : y ∈ a.reach x ↔ y < a.size ∧ ReflTransGen a.Child x y := by
  simp [reach]

theorem card_reach_le (a : Arena) (x : NodeId) : (a.reach x).card ≤ a.size := by
  have hsub : a.reach x ⊆ Finset.range a.size := fun y hy =>
    Finset.mem_range.mpr (mem_reach.mp hy).1
  exact (Finset.card_le_card hsub).trans_eq (Finset.card_range _)

theorem card_reach_pos (h : x < a.size) : 0 < (a.reach x).card :=
  Finset.card_pos.mpr ⟨x, mem_reach.mpr ⟨h, .refl⟩⟩

theorem card_reach_of_size_le (h : a.size ≤ x) : (a.reach x).card = 0 := by
  refine Finset.card_eq_zero.mpr (Finset.eq_empty_of_forall_notMem fun y hy => ?_)
  obtain ⟨hlt, hxy⟩ := mem_reach.mp hy
  rcases ReflTransGen.cases_head hxy with rfl | ⟨z, hz, -⟩
  · exact Nat.not_lt.mpr h hlt
  · exact Nat.not_lt.mpr h hz.lt_size

theorem card_reach_lt (ha : a.Acyclic) (h : a.Child x y) :
    (a.reach y).card < (a.reach x).card := by
  refine Finset.card_lt_card (Finset.ssubset_iff_of_subset ?_ |>.mpr ⟨x, ?_, ?_⟩)
  · intro z hz
    obtain ⟨hlt, hyz⟩ := mem_reach.mp hz
    exact mem_reach.mpr ⟨hlt, hyz.head h⟩
  · exact mem_reach.mpr ⟨h.lt_size, .refl⟩
  · exact fun hx => ha x (TransGen.head' h (mem_reach.mp hx).2)

end FactoryLint.Arena
