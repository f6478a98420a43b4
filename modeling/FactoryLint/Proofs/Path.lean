import FactoryLint.Path
import Mathlib.Data.List.Basic

namespace FactoryLint.Path

variable {x y z : Component} {xs ys zs : List Component}

namespace Component

theorem precedes_or (x y : Component) : x.precedes y ∨ x = y ∨ y.precedes x := by
  cases x with
  | name a =>
    cases y with
    | name b =>
      simp only [precedes, decide_eq_true_eq, name.injEq]
      by_cases hab : a < b
      · exact Or.inl hab
      · by_cases hba : b < a
        · exact Or.inr (Or.inr hba)
        · exact Or.inr (Or.inl (List.le_antisymm (List.not_lt.mp hba) (List.not_lt.mp hab)))
    | _ => simp [precedes]
  | _ => cases y <;> simp [precedes]

theorem precedes_trans (hxy : x.precedes y) (hyz : y.precedes z) : x.precedes z := by
  cases x with
  | name a =>
    cases y with
    | name b =>
      cases z with
      | name c =>
        simp only [precedes, decide_eq_true_eq] at *
        exact List.lt_trans hxy hyz
      | _ => simp [precedes] at hyz
    | _ => simp [precedes] at hxy
  | _ => cases y <;> cases z <;> simp_all [precedes]

end Component

theorem upTo_cons : upTo (x :: xs) (y :: ys) ↔ x.precedes y ∨ x = y ∧ upTo xs ys := by
  rw [upTo, Bool.or_eq_true, Bool.and_eq_true, beq_iff_eq]

theorem upTo_total (xs ys : List Component) : upTo xs ys || upTo ys xs := by
  rw [Bool.or_eq_true]
  induction xs generalizing ys with
  | nil => exact Or.inl rfl
  | cons x xs ih =>
    cases ys with
    | nil => exact Or.inr rfl
    | cons y ys =>
      rw [upTo_cons, upTo_cons]
      rcases x.precedes_or y with hxy | rfl | hyx
      · exact Or.inl (Or.inl hxy)
      · exact (ih ys).imp (fun h => Or.inr ⟨rfl, h⟩) fun h => Or.inr ⟨rfl, h⟩
      · exact Or.inr (Or.inl hyx)

theorem upTo_trans (hxy : upTo xs ys) (hyz : upTo ys zs) : upTo xs zs := by
  induction xs generalizing ys zs with
  | nil => rfl
  | cons x xs ih =>
    cases ys with
    | nil => cases hxy
    | cons y ys =>
      cases zs with
      | nil => cases hyz
      | cons z zs =>
        rw [upTo_cons] at *
        rcases hxy with hxy | ⟨rfl, hxy⟩
        · rcases hyz with hyz | ⟨rfl, -⟩
          · exact Or.inl (Component.precedes_trans hxy hyz)
          · exact Or.inl hxy
        · exact hyz.imp_right fun h => ⟨h.1, ih hxy h.2⟩

/-- The path `a` comes no later than `b`. -/
def InOrder (a b : String) : Prop := upTo (components a.toList) (components b.toList)

variable {α : Type}

theorem sortOn_perm (path : α → String) (as : List α) : (sortOn path as).Perm as :=
  List.mergeSort_perm as _

theorem pairwise_sortOn (path : α → String) (as : List α) :
    (sortOn path as).Pairwise fun a b => InOrder (path a) (path b) := by
  have htrans : ∀ a b c : α, InOrder (path a) (path b) → InOrder (path b) (path c) →
      InOrder (path a) (path c) := fun _ _ _ => upTo_trans
  exact List.pairwise_mergeSort htrans (fun _ _ => upTo_total _ _) as

end FactoryLint.Path
