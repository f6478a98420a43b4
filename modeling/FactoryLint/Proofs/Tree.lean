import Mathlib.Data.List.Flatten

namespace FactoryLint

inductive Tree (α : Type)
  | node (label : α) (parts : List (Tree α))

namespace Tree

variable {α β γ : Type}

def label : Tree α → α
  | node x _ => x

def parts : Tree α → List (Tree α)
  | node _ ts => ts

def map (f : α → β) : Tree α → Tree β
  | node x ts => node (f x) (ts.map fun t => t.map f)

def labels : Tree α → List α
  | node x ts => x :: ts.flatMap fun t => t.labels

@[elab_as_elim, induction_eliminator]
theorem induct {motive : Tree α → Prop}
    (node : ∀ x ts, (∀ t ∈ ts, motive t) → motive (node x ts)) : ∀ t, motive t
  | .node x ts => node x ts fun t _ => induct node t

@[simp] theorem label_node (x : α) (ts : List (Tree α)) : (node x ts).label = x := rfl

@[simp] theorem parts_node (x : α) (ts : List (Tree α)) : (node x ts).parts = ts := rfl

@[simp] theorem map_node (f : α → β) (x : α) (ts : List (Tree α)) :
    (node x ts).map f = node (f x) (ts.map (Tree.map f)) := by
  rw [map]

@[simp] theorem labels_node (x : α) (ts : List (Tree α)) :
    (node x ts).labels = x :: ts.flatMap labels := by
  rw [labels]

@[simp] theorem label_map (f : α → β) (t : Tree α) : (t.map f).label = f t.label := by
  cases t with
  | node x ts => simp

theorem label_mem_labels (t : Tree α) : t.label ∈ t.labels := by
  cases t with
  | node x ts => simp

theorem map_congr {f g : α → β} {t : Tree α} (h : ∀ x ∈ t.labels, f x = g x) :
    t.map f = t.map g := by
  induction t with
  | node x ts ih =>
    have hts : ts.map (Tree.map f) = ts.map (Tree.map g) := by
      refine List.map_congr_left fun t ht => ih t ht fun y hy => h y ?_
      simp only [labels_node, List.mem_cons, List.mem_flatMap]
      exact Or.inr ⟨t, ht, hy⟩
    simp only [map_node, h x (by simp), hts]

theorem length_labels_pos (t : Tree α) : 0 < t.labels.length :=
  List.length_pos_of_mem t.label_mem_labels

theorem length_labels_le {t : Tree α} {ts : List (Tree α)} (h : t ∈ ts) :
    t.labels.length ≤ (ts.flatMap labels).length := by
  have hs := ((List.singleton_sublist.mpr h).flatMap labels).length_le
  simpa using hs

end Tree

end FactoryLint
