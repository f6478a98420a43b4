import FactoryLint.Proofs.Arena.Acyclic
import FactoryLint.Proofs.Php.Reach

namespace FactoryLint

open Relation (ReflTransGen TransGen)

/-- The nodes at and below `id` form a finite tree that is read as the term. -/
def Arena.Reads (a : Arena) (id : NodeId) (t : Term) : Prop :=
  ∃ u, a.Holds u ∧ u.label = id ∧ a.term u = t

theorem Arena.Holds.eq_of_label_eq {a : Arena} {t u : Tree NodeId} (ht : a.Holds t)
    (hu : a.Holds u) (h : t.label = u.label) : t = u := by
  induction t generalizing u with
  | node x ts ih =>
    cases u with
    | node y us =>
      obtain rfl : x = y := h
      obtain ⟨⟨n, hn, hts⟩, hts'⟩ := holds_node.mp ht
      obtain ⟨⟨n', hn', hus⟩, hus'⟩ := holds_node.mp hu
      obtain rfl := Option.some.inj (hn.symm.trans hn')
      have hlabels : List.Forall₂ (fun t u => t.label = u.label) ts us := by
        rw [← List.forall₂_map_right_iff, ← List.forall₂_map_left_iff, List.forall₂_eq_eq_eq,
          ← hts, hus]
      rw [List.forall₂_iff_zip] at hlabels
      have heq : List.Forall₂ Eq ts us := List.forall₂_iff_zip.mpr ⟨hlabels.1, fun {t u} hmem =>
        have hmem' := List.of_mem_zip hmem
        ih t hmem'.1 (hts' t hmem'.1) (hus' u hmem'.2) (hlabels.2 hmem)⟩
      rw [List.forall₂_eq_eq_eq] at heq
      rw [heq]

namespace Arena.Reads

variable {a : Arena} {x y : NodeId} {t u : Term}

theorem unique (h : a.Reads x t) (h' : a.Reads x u) : t = u := by
  obtain ⟨v, hv, rfl, rfl⟩ := h
  obtain ⟨v', hv', hlabel, rfl⟩ := h'
  rw [hv.eq_of_label_eq hv' hlabel.symm]

theorem label_eq (h : a.Reads x t) : a.label x = t.label := by
  obtain ⟨u, -, rfl, rfl⟩ := h
  exact (label_term u).symm

theorem span?_eq (h : a.Reads x t) : a.span? x = t.label.span := by
  rw [Arena.span?_eq, h.label_eq]

theorem child (h : a.Reads x t) (hc : a.Child x y) : ∃ p ∈ t.parts, a.Reads y p := by
  obtain ⟨u, hu, rfl, rfl⟩ := h
  cases u with
  | node x ts =>
    obtain ⟨⟨n, hn, hchildren⟩, hts⟩ := holds_node.mp hu
    have hy : y ∈ ts.map Tree.label := by
      rw [← hchildren]
      exact (child_iff hn).mp hc
    obtain ⟨u, hmem, rfl⟩ := List.mem_map.mp hy
    rw [term_node, Tree.parts_node]
    exact ⟨a.term u, List.mem_map_of_mem hmem, u, hts u hmem, rfl, rfl⟩

theorem below (h : a.Reads x t) (hxy : ReflTransGen a.Child x y) :
    ∃ u, ReflTransGen (fun t p => p ∈ t.parts) t u ∧ a.Reads y u := by
  induction hxy with
  | refl => exact ⟨t, .refl, h⟩
  | tail _ hc ih =>
    obtain ⟨u, hu, hy⟩ := ih
    obtain ⟨p, hp, hz⟩ := hy.child hc
    exact ⟨p, hu.tail hp, hz⟩

theorem length_labels_lt (h : a.Reads x t) (h' : a.Reads y u) (hxy : TransGen a.Child x y) :
    u.labels.length < t.labels.length := by
  have hchild : ∀ {x y t u}, a.Reads x t → a.Reads y u → a.Child x y →
      u.labels.length < t.labels.length := by
    intro x y t u h h' hc
    obtain ⟨p, hp, hy⟩ := h.child hc
    obtain rfl := h'.unique hy
    cases t with
    | node ℓ ts =>
      rw [Tree.labels_node, List.length_cons]
      exact Nat.lt_succ_of_le (Tree.length_labels_le hp)
  induction hxy generalizing u with
  | single hc => exact hchild h h' hc
  | tail hxz hc ih =>
    obtain ⟨v, -, hz⟩ := h.below hxz.to_reflTransGen
    exact Nat.lt_trans (hchild hz h' hc) (ih hz)

end Arena.Reads

namespace Php

/-- The array literals in a term. -/
def literals : Term → List Term
  | .node ℓ ts =>
    (if ℓ.kind = .arrayLiteral then [.node ℓ ts] else []) ++ ts.flatMap fun t => literals t

theorem literals_eq (t : Term) : literals t =
    (if t.label.kind = .arrayLiteral then [t] else []) ++ t.parts.flatMap literals := by
  cases t with
  | node ℓ ts => rw [literals, Tree.label_node, Tree.parts_node]

theorem mem_literals {t u : Term} : u ∈ literals t ↔
    t.label.kind = .arrayLiteral ∧ u = t ∨ u ∈ t.parts.flatMap literals := by
  rw [literals_eq, List.mem_append]
  refine or_congr ?_ Iff.rfl
  split_ifs with h <;> simp [h]

theorem mem_literals_of_below {t u : Term}
    (h : ReflTransGen (fun t p => p ∈ t.parts) t u) (hu : u.label.kind = .arrayLiteral) :
    u ∈ literals t := by
  induction h using ReflTransGen.head_induction_on with
  | refl => exact mem_literals.mpr (Or.inl ⟨hu, rfl⟩)
  | head hp _ ih => exact mem_literals.mpr (Or.inr (List.mem_flatMap.mpr ⟨_, hp, ih⟩))

theorem reaches_bare (e : Expr) : Reaches e e.bare := by
  fun_induction Expr.bare e with
  | case1 span inner ih => exact .head List.mem_cons_self ih
  | case2 e h => exact .refl

theorem exists_of_mem_literals {e : Expr} {u : Term} (h : u ∈ literals e.term) :
    ∃ span elements, Reaches e (.array span elements) ∧ u = (Expr.array span elements).term := by
  induction e using Expr.induct with
  | step e ih =>
    have hpart : ∀ p ∈ e.parts, u ∈ literals p.term →
        ∃ span elements, Reaches e (.array span elements) ∧ u = (Expr.array span elements).term := by
      intro p hp hu
      obtain ⟨span, elements, hr, he⟩ := ih p hp hu
      exact ⟨span, elements, .head hp hr, he⟩
    by_cases hparen : ∃ span inner, e = .parenthesized span inner
    · obtain ⟨span, inner, rfl⟩ := hparen
      rw [Expr.term] at h
      exact hpart inner List.mem_cons_self h
    rcases mem_literals.mp h with ⟨hkind, rfl⟩ | h
    · obtain ⟨span, elements, he⟩ := exists_bare_eq_array hkind
      refine ⟨span, elements, ?_, ?_⟩
      · rw [← he]
        exact reaches_bare e
      · rw [← he, term_bare]
    · -- Pairs, items and unpackings stand between a literal and its values, and are none.
      have hplain : ∀ kind span ts, kind = .pair ∨ kind = .item ∨ kind = .other →
          literals (.node (sourceLabel kind span) ts) = ts.flatMap literals := by
        rintro kind span ts (rfl | rfl | rfl) <;> rw [literals_eq] <;> rfl
      rw [flatMap_parts_term literals hplain fun span inner he => hparen ⟨span, inner, he⟩] at h
      obtain ⟨p, hp, hu⟩ := List.mem_flatMap.mp h
      exact hpart p hp hu

theorem reads_lowerExprs (es : List Expr) :
    List.Forall₂ (fun e root => (lowerExprs es .empty).2.Reads root e.term) es
      (lowerExprs es .empty).1 := by
  obtain ⟨b, us, hb, hlow⟩ := lowerExprs_lowers .empty es
  have hterms := hlow.terms
  rw [eq_comm, ← List.forall₂_eq_eq_eq, List.forall₂_map_left_iff,
    List.forall₂_map_right_iff, List.forall₂_iff_zip] at hterms
  rw [hb, List.forall₂_map_right_iff, List.forall₂_iff_zip]
  refine ⟨hterms.1, fun {e u} hmem => ?_⟩
  exact ⟨u, hlow.holds u (List.of_mem_zip hmem).2, rfl, (hterms.2 hmem).symm⟩

/-- A node of an array literal below that of an expression was lowered from an array literal that is
reached from the expression. -/
theorem exists_reaches_of_shape? {a : Arena} {e : Expr} {x id : NodeId} {items : List NodeId}
    (hx : a.Reads x e.term) (hid : ReflTransGen a.Child x id)
    (hshape : a.shape? id = some (.arrayLiteral items)) :
    ∃ span elements, Reaches e (.array span elements) ∧
      a.Reads id (Expr.array span elements).term := by
  obtain ⟨u, hu, hread⟩ := hx.below hid
  have hkind : u.label.kind = .arrayLiteral := by
    obtain ⟨n, hn, hs⟩ := Option.map_eq_some_iff.mp hshape
    rw [← hread.label_eq, Arena.label_eq hn, Node.label, hs]
    rfl
  obtain ⟨span, elements, hr, rfl⟩ := exists_of_mem_literals (mem_literals_of_below hu hkind)
  exact ⟨span, elements, hr, hread⟩

end Php

end FactoryLint
