import FactoryLint.Proofs.Arena.Forest
import FactoryLint.Proofs.Rule.Containers

namespace FactoryLint.Php

/-- The entries of an array literal lie in its span, one after another, and their values in them. -/
def Visited.HasEntries : Visited → Prop
  | .expr (.array span elements) => (∀ x ∈ elements, x.span.Inside span) ∧
      (elements.Pairwise fun x y => x.span.stop ≤ y.span.start) ∧
      ∀ x ∈ elements, ∀ e ∈ x.values, e.span.Inside x.span
  | _ => True

instance : (v : Visited) → Decidable v.HasEntries
  | .expr (.array span elements) => inferInstanceAs (Decidable
      ((∀ x ∈ elements, x.span.Inside span) ∧
        (elements.Pairwise fun x y => x.span.stop ≤ y.span.start) ∧
        ∀ x ∈ elements, ∀ e ∈ x.values, e.span.Inside x.span))
  | .stmt _ | .expr (.call ..) | .expr (.methodCall ..) | .expr (.property ..)
  | .expr (.operation ..) | .expr (.closure ..) | .expr (.parenthesized ..) | .expr (.variable ..)
  | .expr (.literal ..) | .expr (.name ..) | .expr (.template ..) | .expr (.other ..) =>
    inferInstanceAs (Decidable True)

/-- The term lies in the span, and its parts lie in it. -/
structure Term.Fills (t : Term) (span : Span) : Prop where
  inside : ∀ s ∈ t.label.span, s.Inside span
  nested : NestsSpans t

variable {span : Span} {e : Expr}

theorem Term.Fills.mono {t : Term} {outer : Span} (h : Term.Fills t span)
    (hin : span.Inside outer) : Term.Fills t outer :=
  ⟨fun s hs => (h.inside s hs).trans hin, h.nested⟩

theorem fills_node {α : Type} {l : List α} (place : α → Span) (term : α → Term) (kind : Kind)
    (hterm : ∀ x ∈ l, Term.Fills (term x) (place x)) (hin : ∀ x ∈ l, (place x).Inside span)
    (ho : l.Pairwise fun x y => (place x).stop ≤ (place y).start) :
    Term.Fills (.node (sourceLabel kind span) (l.map term)) span := by
  refine ⟨fun s hs => Option.some.inj hs ▸ Span.Inside.refl _, nestsSpans_node.mpr ⟨?_, ?_, ?_⟩⟩
  · intro t ht s hs u hu
    obtain ⟨x, hx, rfl⟩ := List.mem_map.mp ht
    obtain rfl := Option.some.inj hu
    exact ((hterm x hx).inside s hs).trans (hin x hx)
  · refine List.pairwise_map.mpr (ho.imp_of_mem fun {x y} hx hy hxy s hs u hu => ?_)
    calc s.stop ≤ (place x).stop := ((hterm x hx).inside s hs).2
      _ ≤ (place y).start := hxy
      _ ≤ u.start := ((hterm y hy).inside u hu).1
  · intro t ht
    obtain ⟨x, hx, rfl⟩ := List.mem_map.mp ht
    exact (hterm x hx).nested

def Visited.AllFit (v : Visited) : Prop := ∀ w ∈ v :: v.below, w.IsNested ∧ w.HasEntries

theorem Visited.AllFit.allNested {v : Visited} (h : v.AllFit) : v.AllNested := fun w hw =>
  (h w hw).1

theorem Visited.AllFit.part {p : Expr} (h : (Visited.expr e).AllFit) (hp : p ∈ e.parts) :
    (Visited.expr p).AllFit := by
  have hbelow := mem_below_of_mem_expr_parts hp
  intro w hw
  cases List.mem_cons.mp hw with
  | inl heq => exact heq ▸ h _ (List.mem_cons_of_mem _ hbelow)
  | inr hw => exact h w (List.mem_cons_of_mem _ (mem_below_trans hbelow hw))

theorem exists_stmt_of_mem_bodyValues {ss : List Stmt}
    (hn : ∀ s ∈ ss, (Visited.stmt s).AllNested) (he : e ∈ bodyValues ss) :
    ∃ s ∈ ss, e.span.Inside s.span := by
  obtain ⟨s, hs, hbelow⟩ := mem_below_of_mem_bodyValues he
  exact ⟨s, hs, (hn s hs).span_inside _ (List.mem_cons_of_mem _ hbelow)⟩

theorem stop_le_of_mem_bodyValues {s : Stmt} {ss : List Stmt} {e' : Expr}
    (hn : ∀ t ∈ ss, (Visited.stmt t).AllNested) (ho : ∀ t ∈ ss, s.span.stop ≤ t.span.start)
    (he : e.span.Inside s.span) (he' : e' ∈ bodyValues ss) : e.span.stop ≤ e'.span.start := by
  obtain ⟨t, ht, hin⟩ := exists_stmt_of_mem_bodyValues hn he'
  calc e.span.stop ≤ s.span.stop := he.2
    _ ≤ t.span.start := ho t ht
    _ ≤ e'.span.start := hin.1

theorem pairwise_bodyValues {ss : List Stmt} (hn : ∀ s ∈ ss, (Visited.stmt s).AllNested)
    (ho : ss.Pairwise fun s t => s.span.stop ≤ t.span.start) :
    (bodyValues ss).Pairwise fun e e' => e.span.stop ≤ e'.span.start := by
  fun_induction bodyValues ss with
  | case1 => exact .nil
  | case2 span e ss ih | case3 span e ss ih =>
    obtain ⟨hs, hss⟩ := List.forall_mem_cons.mp hn
    obtain ⟨hfirst, hrest⟩ := List.pairwise_cons.mp ho
    have hin := hs.isNested.inside (.expr e) (by simp [Visited.parts])
    refine List.pairwise_cons.mpr ⟨fun e' he' => ?_, ih hss hrest⟩
    exact stop_le_of_mem_bodyValues hss hfirst hin he'
  | case4 span body ss ih₁ ih₂ =>
    obtain ⟨hs, hss⟩ := List.forall_mem_cons.mp hn
    obtain ⟨hfirst, hrest⟩ := List.pairwise_cons.mp ho
    have hbody : ∀ t ∈ body, (Visited.stmt t).AllNested := fun t ht =>
      hs.part (List.mem_map_of_mem ht)
    have hordered := List.pairwise_map.mp hs.isNested.ordered
    refine List.pairwise_append.mpr ⟨ih₁ hbody hordered, ih₂ hss hrest, fun e he e' he' => ?_⟩
    obtain ⟨t, ht, hin⟩ := exists_stmt_of_mem_bodyValues hbody he
    have hblock := hin.trans (hs.isNested.inside _ (List.mem_map_of_mem ht))
    exact stop_le_of_mem_bodyValues hss hfirst hblock he'
  | case5 s ss _ _ _ ih => exact ih (List.forall_mem_cons.mp hn).2 (List.pairwise_cons.mp ho).2

def Element.term : Element → Term
  | .pair key value =>
    .node (sourceLabel .pair (key.span.through value.span)) [key.term, value.term]
  | .item value => .node (sourceLabel .item value.span) [value.term]
  | .spread span value =>
    .node (sourceLabel .item span) [.node (sourceLabel .other span) [value.term]]

theorem elementTerms_eq (es : List Element) : elementTerms es = es.map Element.term := by
  induction es with
  | nil => rw [elementTerms, List.map_nil]
  | cons x es ih => cases x <;> rw [elementTerms, ih, List.map_cons, Element.term]

theorem fills_element {x : Element} (hvalues : ∀ e ∈ x.values, Term.Fills e.term e.span)
    (hin : ∀ e ∈ x.values, e.span.Inside x.span)
    (ho : x.values.Pairwise fun e e' => e.span.stop ≤ e'.span.start) :
    Term.Fills x.term x.span := by
  cases x with
  | pair key value => exact fills_node Expr.span Expr.term .pair hvalues hin ho
  | item value => exact fills_node Expr.span Expr.term .item hvalues hin ho
  | spread span value =>
    have hinner : Term.Fills (.node (sourceLabel .other span) [value.term]) span :=
      fills_node Expr.span Expr.term .other hvalues hin ho
    exact fills_node (l := [()]) (fun _ => span) (fun _ => _) .item (fun _ _ => hinner)
      (fun _ _ => Span.Inside.refl _) (List.pairwise_singleton _ _)

theorem fills_parts {es : List Expr} (h : (Visited.expr e).IsNested)
    (hc : ∀ span body, e ≠ .closure span body) (hes : es.Sublist e.parts)
    (hparts : ∀ p ∈ e.parts, Term.Fills p.term p.span) (kind : Kind) :
    Term.Fills (.node (sourceLabel kind e.span) (es.map Expr.term)) e.span := by
  have hvisited : (Visited.expr e).parts = e.parts.map .expr := by
    rw [Visited.parts]
    exact hc
  have hin := h.inside
  have ho := h.ordered
  rw [hvisited] at hin ho
  refine fills_node Expr.span Expr.term kind (fun p hp => hparts p (hes.subset hp)) (fun p hp => ?_)
    ((List.pairwise_map.mp ho).sublist hes)
  exact hin _ (List.mem_map_of_mem (hes.subset hp))

theorem fills_term (e : Expr) (h : (Visited.expr e).AllFit) : Term.Fills e.term e.span := by
  induction e using Expr.induct with
  | step e ih =>
    have hparts : ∀ p ∈ e.parts, Term.Fills p.term p.span := fun p hp => ih p hp (h.part hp)
    obtain ⟨hnested, hentries⟩ := h _ List.mem_cons_self
    have hleaf : ∀ kind span, Term.Fills (.node (sourceLabel kind span) []) span := fun kind span =>
      fills_node Expr.span Expr.term kind (l := []) (by simp) (by simp) .nil
    cases e with
    | array span elements =>
      rw [Expr.term, elementTerms_eq]
      obtain ⟨hin, ho, hvalues⟩ := hentries
      have hordered := (List.pairwise_flatMap.mp (List.pairwise_map.mp hnested.ordered)).1
      refine fills_node Element.span Element.term .arrayLiteral (fun x hx => ?_) hin ho
      exact fills_element (fun e he => hparts e (List.mem_flatMap.mpr ⟨x, hx, he⟩)) (hvalues x hx)
        (hordered x hx)
    | call span callee arguments =>
      by_cases hname : ∃ inner name, callee = .name inner name
      · obtain ⟨inner, name, rfl⟩ := hname
        rw [Expr.term, exprTerms_eq]
        exact fills_parts hnested (by simp) (List.sublist_cons_self _ _) hparts _
      · rw [Expr.term, exprTerms_eq]
        · exact fills_parts hnested (by simp) (List.Sublist.refl _) hparts _
        · exact fun inner name he => hname ⟨inner, name, he⟩
    | methodCall span object name arguments =>
      rw [Expr.term, exprTerms_eq]
      exact fills_parts hnested (by simp) (List.Sublist.refl _) hparts _
    | property span object name =>
      rw [Expr.term]
      exact fills_parts hnested (by simp) (List.Sublist.refl _) hparts _
    | operation span form =>
      rw [Expr.term, Operation.terms_eq]
      exact fills_parts hnested (by simp) (List.Sublist.refl _) hparts _
    | closure span body =>
      rw [Expr.term, bodyTerms_eq]
      have hbody : ∀ s ∈ body, (Visited.stmt s).AllNested := fun s hs =>
        h.allNested.part (List.mem_map_of_mem hs)
      refine fills_node Expr.span Expr.term .other hparts (fun p hp => ?_)
        (pairwise_bodyValues hbody (List.pairwise_map.mp hnested.ordered))
      exact h.allNested.span_inside _ (List.mem_cons_of_mem _ (mem_below_of_mem_expr_parts hp))
    | parenthesized span inner =>
      rw [Expr.term]
      exact (hparts inner List.mem_cons_self).mono
        (hnested.inside (.expr inner) (List.mem_map_of_mem List.mem_cons_self))
    | _ =>
      rw [Expr.term]
      exact hleaf _ _

theorem isLowered_lower (program : Program) {x : NodeId} (hx : x < program.lower.2.size) :
    IsLowered program.lower.2 x := by
  obtain ⟨a, us, hlower, hlow⟩ := lowerExprs_lowers .empty program.arrays
  have hprogram : program.lower = (us.map Tree.label, a) := hlower
  rw [hprogram] at hx ⊢
  exact hlow.lowered x hx (Nat.zero_le _)

/-- Each literal is the root of a tree of its own. -/
theorem isForest_lower (program : Program) : program.lower.2.IsForest ∧
    ∀ root ∈ program.lower.1, root < program.lower.2.size ∧ program.lower.2.IsRoot root := by
  have hlt : ∀ x < program.lower.2.size, ∀ y ∈ program.lower.2.children x, y < x := by
    intro x hx y hy
    obtain ⟨shape, span, hn, hchildren⟩ := isLowered_lower program hx
    rw [Arena.children_eq hn] at hy
    exact hchildren y hy
  obtain ⟨a, us, hlower, hlow⟩ := lowerExprs_lowers .empty program.arrays
  have hprogram : program.lower = (us.map Tree.label, a) := hlower
  rw [hprogram] at hlt ⊢
  obtain ⟨hforest, hroots⟩ := Arena.isForest_of_trees hlow.holds hlow.nodup
    (fun x hx => hlow.covers x hx (Nat.zero_le _)) hlt
  refine ⟨hforest, fun root hroot => ?_⟩
  obtain ⟨u, hu, rfl⟩ := List.mem_map.mp hroot
  exact ⟨(hlow.holds u hu).lt_size _ u.label_mem_labels, hroots u hu⟩

theorem nestsAt_lower {program : Program}
    (h : ∀ v ∈ program.stops, v.IsNested ∧ v.HasEntries) (x : NodeId) :
    program.lower.2.NestsAt program.lower.2.span? x := by
  obtain ⟨a, us, hlower, hlow⟩ := lowerExprs_lowers .empty program.arrays
  have hprogram : program.lower = (us.map Tree.label, a) := hlower
  rw [hprogram]
  by_cases hx : x < a.size
  · obtain ⟨u, hu, hxu⟩ := List.mem_flatMap.mp (hlow.covers x hx (Nat.zero_le _))
    refine (hlow.holds u hu).nestsAt ?_ x hxu
    have hterm : a.term u ∈ us.map a.term := List.mem_map_of_mem hu
    rw [hlow.terms] at hterm
    obtain ⟨e, he, heq⟩ := List.mem_map.mp hterm
    rw [← heq]
    refine (fills_term e fun w hw => h w ?_).nested
    obtain ⟨_, _, -, hstop⟩ := Rule.HelperCall.mem_arrays.mp he
    cases List.mem_cons.mp hw with
    | inl heq => exact heq ▸ hstop
    | inr hbelow => exact mem_stops_of_mem_below hstop hbelow
  · exact Arena.nestsAt_of_children_eq_nil (Arena.children_of_size_le (Nat.le_of_not_lt hx))

end FactoryLint.Php
