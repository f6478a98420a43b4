import FactoryLint.Proofs.Php.Reach
import Mathlib.Data.List.Pairwise

namespace FactoryLint.Php

open Visited

namespace Visited

def inside (enter : Visited → Bool) : Visited → List Visited
  | .expr e => e.inside enter
  | .stmt s => s.inside enter

def preorder (enter : Visited → Bool) (v : Visited) : List Visited := v.lead enter (v.inside enter)

end Visited

variable {enter : Visited → Bool}

theorem exprVisits_eq (es : List Expr) :
    exprVisits enter es = (es.map .expr).flatMap (preorder enter) := by
  induction es with
  | nil => rw [exprVisits]; rfl
  | cons e es ih => rw [exprVisits, ih]; rfl

theorem stmtVisits_eq (ss : List Stmt) :
    stmtVisits enter ss = (ss.map .stmt).flatMap (preorder enter) := by
  induction ss with
  | nil => rw [stmtVisits]; rfl
  | cons s ss ih => rw [stmtVisits, ih]; rfl

theorem elementVisits_eq (es : List Element) : elementVisits enter es =
    ((es.flatMap Element.values).map .expr).flatMap (preorder enter) := by
  induction es with
  | nil => rw [elementVisits]; rfl
  | cons x es ih =>
    cases x <;> rw [elementVisits, ih, List.flatMap_cons, List.map_append, List.flatMap_append] <;>
      simp [Element.values, preorder, Visited.inside]

theorem armVisits_eq (arms : List Arm) : armVisits enter arms =
    ((arms.flatMap Arm.operands).map .expr).flatMap (preorder enter) := by
  induction arms with
  | nil => rw [armVisits]; rfl
  | cons arm arms ih =>
    cases arm <;> rw [armVisits, ih] <;>
      simp [Arm.operands, exprVisits_eq, preorder, Visited.inside]

theorem Operation.inside_eq (form : Operation) :
    form.inside enter = (form.operands.map .expr).flatMap (preorder enter) := by
  cases form with
  | conditional condition chosen otherwise =>
    cases chosen <;> simp [Operation.inside, operands, preorder, Visited.inside]
  | instantiation arguments =>
    cases arguments <;> simp [Operation.inside, operands, exprVisits_eq]
  | _ =>
    simp [Operation.inside, operands, exprVisits_eq, armVisits_eq, preorder, Visited.inside]

theorem Body.inside_eq (body : Body) :
    body.inside enter = (body.stmts.map .stmt).flatMap (preorder enter) := by
  cases body with
  | statement s =>
    rw [Body.inside]
    exact (List.append_nil _).symm
  | delimited body => rw [Body.inside, stmtVisits_eq]; rfl

theorem elseIfVisits_eq (elseIfs : List ElseIf) :
    elseIfVisits enter elseIfs = (elseIfs.flatMap ElseIf.parts).flatMap (preorder enter) := by
  induction elseIfs with
  | nil => rw [elseIfVisits]; rfl
  | cons x elseIfs ih =>
    cases x
    rw [elseIfVisits, ih, Body.inside_eq, List.flatMap_cons, List.flatMap_append]
    rfl

theorem blockVisits_eq (blocks : List (List Stmt)) :
    blockVisits enter blocks = (blocks.flatten.map .stmt).flatMap (preorder enter) := by
  induction blocks with
  | nil => rw [blockVisits]; rfl
  | cons body blocks ih =>
    rw [blockVisits, ih, stmtVisits_eq, List.flatten_cons, List.map_append, List.flatMap_append]

theorem memberVisits_eq (members : List Member) : memberVisits enter members =
    ((members.flatMap Member.stmts).map .stmt).flatMap (preorder enter) := by
  induction members with
  | nil => rw [memberVisits]; rfl
  | cons m members ih =>
    cases m <;> rw [memberVisits, ih] <;> simp [Member.stmts, stmtVisits_eq]

theorem Control.inside_eq (form : Control) :
    form.inside enter = form.parts.flatMap (preorder enter) := by
  cases form with
  | branch condition body elseIfs otherwise =>
    cases otherwise <;>
      simp [Control.inside, parts, Body.inside_eq, elseIfVisits_eq, preorder, Visited.inside]
  | attempt body handlers last =>
    cases last <;> simp [Control.inside, parts, stmtVisits_eq, blockVisits_eq]
  | _ =>
    simp [Control.inside, parts, exprVisits_eq, stmtVisits_eq, Body.inside_eq, blockVisits_eq,
      memberVisits_eq, preorder, Visited.inside]

/-- What lies inside a stop, by what lies inside its parts. -/
theorem inside_eq (enter : Visited → Bool) (v : Visited) :
    v.inside enter = v.parts.flatMap (preorder enter) := by
  cases v with
  | expr e =>
    cases e with
    | array span elements => rw [inside, Expr.inside, elementVisits_eq]; rfl
    | call span callee arguments => rw [inside, Expr.inside, exprVisits_eq]; rfl
    | methodCall span object name arguments => rw [inside, Expr.inside, exprVisits_eq]; rfl
    | property span object name =>
      rw [inside, Expr.inside]
      exact (List.append_nil _).symm
    | operation span form => rw [inside, Expr.inside, Operation.inside_eq]; rfl
    | closure span body => rw [inside, Expr.inside, stmtVisits_eq]; rfl
    | parenthesized span inner =>
      rw [inside, Expr.inside]
      exact (List.append_nil _).symm
    | _ => rw [inside, Expr.inside]; rfl
  | stmt s =>
    cases s with
    | expression span e =>
      rw [inside, Stmt.inside]
      exact (List.append_nil _).symm
    | block span body => rw [inside, Stmt.inside, stmtVisits_eq]; rfl
    | ret span value =>
      cases value with
      | none => rw [inside, Stmt.inside]; rfl
      | some e =>
        rw [inside, Stmt.inside]
        exact (List.append_nil _).symm
    | control span form => rw [inside, Stmt.inside, Control.inside_eq]; rfl
    | classDecl span name parent members => rw [inside, Stmt.inside, memberVisits_eq]; rfl
    | namespaceDecl span body => rw [inside, Stmt.inside, stmtVisits_eq]; rfl
    | useDecl span => rw [inside, Stmt.inside]; rfl
    | other span => rw [inside, Stmt.inside]; rfl

theorem visits_eq (enter : Visited → Bool) (program : Program) :
    program.visits enter = (program.map .stmt).flatMap (preorder enter) :=
  stmtVisits_eq program

def Visited.below (v : Visited) : List Visited := v.inside fun _ => true

def Program.stops (program : Program) : List Visited := program.visits fun _ => true

theorem below_eq (v : Visited) : v.below = v.parts.flatMap fun p => p :: p.below :=
  inside_eq _ v

theorem stops_eq (program : Program) :
    program.stops = (program.map .stmt).flatMap fun v => v :: v.below :=
  visits_eq _ program

theorem mem_below {v w : Visited} : w ∈ v.below ↔ ∃ p ∈ v.parts, w = p ∨ w ∈ p.below := by
  rw [below_eq, List.mem_flatMap]
  simp only [List.mem_cons]

theorem mem_below_of_mem_parts {v p : Visited} (h : p ∈ v.parts) : p ∈ v.below :=
  mem_below.mpr ⟨p, h, Or.inl rfl⟩

theorem mem_below_trans {u v w : Visited} (hv : v ∈ u.below) (hw : w ∈ v.below) :
    w ∈ u.below := by
  induction u using Visited.induct with
  | step u ih =>
    obtain ⟨p, hp, rfl | hv⟩ := mem_below.mp hv
    · exact mem_below.mpr ⟨v, hp, Or.inr hw⟩
    · exact mem_below.mpr ⟨p, hp, Or.inr (ih p hp hv)⟩

theorem mem_stops {program : Program} {w : Visited} :
    w ∈ program.stops ↔ ∃ s ∈ program, w = .stmt s ∨ w ∈ (Visited.stmt s).below := by
  rw [stops_eq, List.mem_flatMap]
  simp only [List.mem_cons, List.mem_map, exists_exists_and_eq_and]

theorem mem_stops_of_mem_below {program : Program} {v w : Visited} (hv : v ∈ program.stops)
    (hw : w ∈ v.below) : w ∈ program.stops := by
  obtain ⟨s, hs, rfl | hv⟩ := mem_stops.mp hv
  · exact mem_stops.mpr ⟨s, hs, Or.inr hw⟩
  · exact mem_stops.mpr ⟨s, hs, Or.inr (mem_below_trans hv hw)⟩

theorem mem_below_of_mem_preorder {enter : Visited → Bool} {v w : Visited}
    (h : w ∈ v.preorder enter) : w ∈ v :: v.below := by
  induction v using Visited.induct with
  | step v ih =>
    rcases List.mem_cons.mp h with rfl | h
    · exact List.mem_cons_self
    · split_ifs at h with hv
      · rw [inside_eq] at h
        obtain ⟨p, hp, hw⟩ := List.mem_flatMap.mp h
        rw [below_eq]
        exact List.mem_cons_of_mem _ (List.mem_flatMap.mpr ⟨p, hp, ih p hp hw⟩)
      · cases h

theorem mem_stops_of_mem_visits {enter : Visited → Bool} {program : Program} {w : Visited}
    (h : w ∈ program.visits enter) : w ∈ program.stops := by
  rw [visits_eq] at h
  obtain ⟨v, hv, hw⟩ := List.mem_flatMap.mp h
  rw [stops_eq]
  exact List.mem_flatMap.mpr ⟨v, hv, mem_below_of_mem_preorder hw⟩

theorem mem_below_of_mem_bodyValues {ss : List Stmt} {e : Expr} (h : e ∈ bodyValues ss) :
    ∃ s ∈ ss, .expr e ∈ (Visited.stmt s).below := by
  fun_induction bodyValues ss with
  | case1 => cases h
  | case2 span e' ss ih | case3 span e' ss ih =>
    rcases List.mem_cons.mp h with rfl | h
    · exact ⟨_, List.mem_cons_self, mem_below_of_mem_parts List.mem_cons_self⟩
    · obtain ⟨s, hs, he⟩ := ih h
      exact ⟨s, List.mem_cons_of_mem _ hs, he⟩
  | case4 span body ss ih₁ ih₂ =>
    rcases List.mem_append.mp h with h | h
    · obtain ⟨s, hs, he⟩ := ih₁ h
      exact ⟨_, List.mem_cons_self, mem_below.mpr ⟨.stmt s, List.mem_map_of_mem hs, Or.inr he⟩⟩
    · obtain ⟨s, hs, he⟩ := ih₂ h
      exact ⟨s, List.mem_cons_of_mem _ hs, he⟩
  | case5 s ss _ _ _ ih =>
    obtain ⟨s, hs, he⟩ := ih h
    exact ⟨s, List.mem_cons_of_mem _ hs, he⟩

theorem mem_below_of_mem_expr_parts {e p : Expr} (h : p ∈ e.parts) :
    .expr p ∈ (Visited.expr e).below := by
  by_cases hc : ∃ span body, e = .closure span body
  · obtain ⟨span, body, rfl⟩ := hc
    obtain ⟨s, hs, hp⟩ := mem_below_of_mem_bodyValues h
    exact mem_below.mpr ⟨.stmt s, List.mem_map_of_mem hs, Or.inr hp⟩
  · refine mem_below_of_mem_parts ?_
    rw [parts]
    · exact List.mem_map_of_mem h
    · exact fun span body he => hc ⟨span, body, he⟩

theorem Reaches.eq_or_mem_below {e e' : Expr} (h : Reaches e e') :
    e' = e ∨ .expr e' ∈ (Visited.expr e).below := by
  induction h with
  | refl => exact Or.inl rfl
  | tail _ hp ih =>
    have hp' := mem_below_of_mem_expr_parts hp
    rcases ih with rfl | ih
    · exact Or.inr hp'
    · exact Or.inr (mem_below_trans ih hp')

theorem eq_or_mem_below_bare (e : Expr) : e.bare = e ∨ .expr e.bare ∈ (Visited.expr e).below := by
  fun_induction Expr.bare e with
  | case1 span inner ih =>
    have hp : .expr inner ∈ (Visited.expr (.parenthesized span inner)).below :=
      mem_below_of_mem_expr_parts List.mem_cons_self
    rcases ih with he | he
    · exact Or.inr (he.symm ▸ hp)
    · exact Or.inr (mem_below_trans hp he)
  | case2 e h => exact Or.inl rfl

theorem Uses.mem_below {s : Settings} {outer c : Expr} (h : Uses s outer c) :
    .expr c ∈ (Visited.expr outer).below := by
  have hbare : ∀ object : Expr, object ∈ outer.parts →
      .expr object.bare ∈ (Visited.expr outer).below := by
    intro object ho
    have ho' := mem_below_of_mem_expr_parts ho
    rcases eq_or_mem_below_bare object with he | he
    · rwa [he]
    · exact mem_below_trans ho' he
  cases h <;> exact hbare _ List.mem_cons_self

theorem Reaches.mem_below_array {v outer : Expr} (h : Reaches v outer) {elements : List Element}
    (hv : v ∈ elements.flatMap Element.values) (span : Span) :
    .expr outer ∈ (Visited.expr (.array span elements)).below := by
  have hv' : .expr v ∈ (Visited.expr (.array span elements)).below :=
    mem_below_of_mem_expr_parts hv
  rcases h.eq_or_mem_below with rfl | hb
  · exact hv'
  · exact mem_below_trans hv' hb

end FactoryLint.Php
