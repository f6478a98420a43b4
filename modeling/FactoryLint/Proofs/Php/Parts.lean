import FactoryLint.Php.Visit
import Mathlib.Data.List.Basic

namespace FactoryLint.Php

/-- An expression without the parentheses around it. -/
def Expr.bare : Expr → Expr
  | .parenthesized _ inner => inner.bare
  | e => e

def Element.values : Element → List Expr
  | .pair key value => [key, value]
  | .item value => [value]
  | .spread _ value => [value]

/-- What the statements of a body return or evaluate, blocks included. -/
def bodyValues : List Stmt → List Expr
  | [] => []
  | .ret _ (some e) :: ss => e :: bodyValues ss
  | .expression _ e :: ss => e :: bodyValues ss
  | .block _ body :: ss => bodyValues body ++ bodyValues ss
  | _ :: ss => bodyValues ss

def Arm.operands : Arm → List Expr
  | .case conditions result => conditions ++ [result]
  | .default result => [result]

/-- What an operation is made up of, in source order. -/
def Operation.operands : Operation → List Expr
  | .unary operand => [operand]
  | .binary lhs rhs => [lhs, rhs]
  | .conditional condition chosen otherwise => condition :: (chosen.toList ++ [otherwise])
  | .assignment target value => [target, value]
  | .index array offset => [array, offset]
  | .matching subject arms => subject :: arms.flatMap Arm.operands
  | .arrowFunction body => [body]
  | .nullSafeProperty object => [object]
  | .nullSafeCall object arguments => object :: arguments
  | .staticCall arguments => arguments
  | .instantiation arguments => arguments.getD []

/-- The expressions that are looked into from an expression. -/
def Expr.parts : Expr → List Expr
  | .array _ elements => elements.flatMap Element.values
  | .call _ callee arguments => callee :: arguments
  | .methodCall _ object _ arguments => object :: arguments
  | .property _ object _ => [object]
  | .operation _ form => form.operands
  | .closure _ body => bodyValues body
  | .parenthesized _ inner => [inner]
  | .variable _ _ | .literal _ _ | .name _ _ | .template _ | .other _ => []

theorem sizeOf_lt_of_mem_bodyValues {ss : List Stmt} {e : Expr} (h : e ∈ bodyValues ss) :
    sizeOf e < sizeOf ss := by
  fun_induction bodyValues ss with
  | case1 => cases h
  | case2 span e' ss ih | case3 span e' ss ih =>
    rcases List.mem_cons.mp h with rfl | h
    · simp; omega
    · have := ih h; simp; omega
  | case4 span body ss ih₁ ih₂ =>
    rcases List.mem_append.mp h with h | h
    · have := ih₁ h; simp; omega
    · have := ih₂ h; simp; omega
  | case5 s ss _ _ _ ih =>
    have := ih h; simp; omega

theorem sizeOf_lt_of_mem_values {x : Element} {e : Expr} (h : e ∈ x.values) :
    sizeOf e < sizeOf x := by
  cases x with
  | pair key value =>
    simp only [Element.pair.sizeOf_spec]
    rcases List.mem_pair.mp h with rfl | rfl <;> omega
  | item value =>
    obtain rfl := List.mem_singleton.mp h
    simp
  | spread span value =>
    obtain rfl := List.mem_singleton.mp h
    simp only [Element.spread.sizeOf_spec]
    omega

theorem sizeOf_lt_of_mem_armOperands {arm : Arm} {e : Expr} (h : e ∈ arm.operands) :
    sizeOf e < sizeOf arm := by
  cases arm with
  | case conditions result =>
    rcases List.mem_append.mp h with h | h
    · have hlt := List.sizeOf_lt_of_mem h
      simp
      omega
    · obtain rfl := List.mem_singleton.mp h
      simp only [Arm.case.sizeOf_spec]
      omega
  | default result =>
    obtain rfl := List.mem_singleton.mp h
    simp

theorem sizeOf_lt_of_mem_operands {form : Operation} {e : Expr} (h : e ∈ form.operands) :
    sizeOf e < sizeOf form := by
  cases form with
  | unary operand | arrowFunction operand | nullSafeProperty operand =>
    obtain rfl := List.mem_singleton.mp h
    simp
  | binary lhs rhs =>
    simp only [Operation.binary.sizeOf_spec]
    rcases List.mem_pair.mp h with rfl | rfl <;> omega
  | assignment target value =>
    simp only [Operation.assignment.sizeOf_spec]
    rcases List.mem_pair.mp h with rfl | rfl <;> omega
  | index array offset =>
    simp only [Operation.index.sizeOf_spec]
    rcases List.mem_pair.mp h with rfl | rfl <;> omega
  | conditional condition chosen otherwise =>
    rcases List.mem_cons.mp h with rfl | h
    · simp
      omega
    rcases List.mem_append.mp h with h | h
    · obtain rfl := Option.mem_toList.mp h
      simp
      omega
    · obtain rfl := List.mem_singleton.mp h
      simp only [Operation.conditional.sizeOf_spec]
      omega
  | matching subject arms =>
    rcases List.mem_cons.mp h with rfl | h
    · simp
      omega
    · obtain ⟨arm, harm, h⟩ := List.mem_flatMap.mp h
      have hlt := List.sizeOf_lt_of_mem harm
      have hlt' := sizeOf_lt_of_mem_armOperands h
      simp
      omega
  | nullSafeCall object arguments =>
    rcases List.mem_cons.mp h with rfl | h
    · simp
      omega
    · have hlt := List.sizeOf_lt_of_mem h
      simp
      omega
  | staticCall arguments =>
    have hlt : sizeOf e < sizeOf arguments := List.sizeOf_lt_of_mem h
    simp
    omega
  | instantiation arguments =>
    cases arguments with
    | none => cases h
    | some arguments =>
      have hlt : sizeOf e < sizeOf arguments := List.sizeOf_lt_of_mem h
      simp
      omega

theorem sizeOf_lt_of_mem_parts {e p : Expr} (h : p ∈ e.parts) : sizeOf p < sizeOf e := by
  cases e with
  | array span elements =>
    obtain ⟨x, hx, hp⟩ := List.mem_flatMap.mp h
    have hx' := List.sizeOf_lt_of_mem hx
    have hp' := sizeOf_lt_of_mem_values hp
    simp
    omega
  | call span callee arguments =>
    rcases List.mem_cons.mp h with rfl | h
    · simp
      omega
    · have h' := List.sizeOf_lt_of_mem h
      simp
      omega
  | methodCall span object name arguments =>
    rcases List.mem_cons.mp h with rfl | h
    · simp
      omega
    · have h' := List.sizeOf_lt_of_mem h
      simp
      omega
  | property span object name =>
    obtain rfl := List.mem_singleton.mp h
    simp
    omega
  | operation span form =>
    have h' := sizeOf_lt_of_mem_operands h
    simp
    omega
  | closure span body =>
    have h' := sizeOf_lt_of_mem_bodyValues h
    simp
    omega
  | parenthesized span inner =>
    obtain rfl := List.mem_singleton.mp h
    simp only [Expr.parenthesized.sizeOf_spec]
    omega
  | _ => cases h

@[elab_as_elim]
theorem Expr.induct {motive : Expr → Prop}
    (step : ∀ e : Expr, (∀ p ∈ e.parts, motive p) → motive e) (e : Expr) : motive e :=
  step e fun p _ => induct step p
termination_by e
decreasing_by exact sizeOf_lt_of_mem_parts ‹_›

def Body.stmts : Body → List Stmt
  | .statement s => [s]
  | .delimited body => body

def ElseIf.parts : ElseIf → List Visited
  | .mk condition body => .expr condition :: body.stmts.map .stmt

def Member.stmts : Member → List Stmt
  | .method body => body
  | .other => []

def Control.parts : Control → List Visited
  | .branch condition body elseIfs otherwise =>
    .expr condition :: (body.stmts.map .stmt ++ elseIfs.flatMap ElseIf.parts ++
      (otherwise.toList.flatMap Body.stmts).map .stmt)
  | .forEach collection body => .expr collection :: body.stmts.map .stmt
  | .forLoop first conditions next body =>
    (first ++ conditions ++ next).map .expr ++ body.stmts.map .stmt
  | .whileLoop condition body => .expr condition :: body.stmts.map .stmt
  | .doWhile body condition => [.stmt body, .expr condition]
  | .choice subject cases => .expr subject :: cases.flatten.map .stmt
  | .attempt body handlers last => (body ++ handlers.flatten ++ last.getD []).map .stmt
  | .print values => values.map .expr
  | .function body => body.map .stmt
  | .traitBody members => (members.flatMap Member.stmts).map .stmt

/-- The stops directly inside a stop. -/
def Visited.parts : Visited → List Visited
  | .expr (.closure _ body) => body.map .stmt
  | .expr e => e.parts.map .expr
  | .stmt (.expression _ e) => [.expr e]
  | .stmt (.block _ body) => body.map .stmt
  | .stmt (.ret _ value) => (value.map .expr).toList
  | .stmt (.control _ form) => form.parts
  | .stmt (.classDecl _ _ _ members) => (members.flatMap Member.stmts).map .stmt
  | .stmt (.namespaceDecl _ body) => body.map .stmt
  | .stmt (.useDecl _) | .stmt (.other _) => []

section

variable {p : Visited}

theorem sizeOf_le_of_mem_exprs {es : List Expr} (h : p ∈ es.map .expr) :
    sizeOf p ≤ sizeOf es := by
  obtain ⟨e, he, rfl⟩ := List.mem_map.mp h
  have hlt := List.sizeOf_lt_of_mem he
  simp
  omega

theorem sizeOf_le_of_mem_stmts {ss : List Stmt} (h : p ∈ ss.map .stmt) :
    sizeOf p ≤ sizeOf ss := by
  obtain ⟨s, hs, rfl⟩ := List.mem_map.mp h
  have hlt := List.sizeOf_lt_of_mem hs
  simp
  omega

theorem sizeOf_le_of_mem_body {body : Body} (h : p ∈ body.stmts.map .stmt) :
    sizeOf p ≤ sizeOf body := by
  cases body with
  | statement s =>
    obtain rfl := List.mem_singleton.mp h
    simp
  | delimited body =>
    have hle : sizeOf p ≤ sizeOf body := sizeOf_le_of_mem_stmts h
    simp
    omega

theorem sizeOf_le_of_mem_elseIf {x : ElseIf} (h : p ∈ x.parts) : sizeOf p ≤ sizeOf x := by
  obtain ⟨condition, body⟩ := x
  rcases List.mem_cons.mp h with rfl | h
  · simp
  · have hle := sizeOf_le_of_mem_body h
    simp
    omega

theorem sizeOf_le_of_mem_blocks {blocks : List (List Stmt)}
    (h : p ∈ blocks.flatten.map .stmt) : sizeOf p ≤ sizeOf blocks := by
  rw [List.map_flatten] at h
  obtain ⟨ps, hps, hp⟩ := List.mem_flatten.mp h
  obtain ⟨body, hbody, rfl⟩ := List.mem_map.mp hps
  exact Nat.le_trans (sizeOf_le_of_mem_stmts hp) (Nat.le_of_lt (List.sizeOf_lt_of_mem hbody))

theorem sizeOf_le_of_mem_members {members : List Member}
    (h : p ∈ (members.flatMap Member.stmts).map .stmt) : sizeOf p ≤ sizeOf members := by
  rw [List.map_flatMap] at h
  obtain ⟨m, hm, hp⟩ := List.mem_flatMap.mp h
  have hlt := List.sizeOf_lt_of_mem hm
  cases m with
  | method body =>
    have hle : sizeOf p ≤ sizeOf body := sizeOf_le_of_mem_stmts hp
    simp at hlt
    omega
  | other => cases hp

theorem sizeOf_le_of_mem_elseIfs {xs : List ElseIf} (h : p ∈ xs.flatMap ElseIf.parts) :
    sizeOf p ≤ sizeOf xs := by
  obtain ⟨x, hx, hp⟩ := List.mem_flatMap.mp h
  exact Nat.le_trans (sizeOf_le_of_mem_elseIf hp) (Nat.le_of_lt (List.sizeOf_lt_of_mem hx))

theorem sizeOf_le_of_mem_otherwise {otherwise : Option Body}
    (h : p ∈ (otherwise.toList.flatMap Body.stmts).map .stmt) : sizeOf p ≤ sizeOf otherwise := by
  cases otherwise with
  | none => cases h
  | some body =>
    have hle : sizeOf p ≤ sizeOf body := sizeOf_le_of_mem_body (by simpa using h)
    simp only [Option.some.sizeOf_spec]
    omega

theorem sizeOf_le_of_mem_last {last : Option (List Stmt)} (h : p ∈ (last.getD []).map .stmt) :
    sizeOf p ≤ sizeOf last := by
  cases last with
  | none => cases h
  | some body =>
    have hle : sizeOf p ≤ sizeOf body := sizeOf_le_of_mem_stmts h
    simp only [Option.some.sizeOf_spec]
    omega

theorem sizeOf_le_of_mem_control {form : Control} (h : p ∈ form.parts) :
    sizeOf p ≤ sizeOf form := by
  cases form with
  | branch condition body elseIfs otherwise =>
    simp only [Control.parts, List.mem_cons, List.mem_append] at h
    simp only [Control.branch.sizeOf_spec]
    rcases h with rfl | (h | h) | h
    · simp only [Visited.expr.sizeOf_spec]
      omega
    · have hle := sizeOf_le_of_mem_body h
      omega
    · have hle := sizeOf_le_of_mem_elseIfs h
      omega
    · have hle := sizeOf_le_of_mem_otherwise h
      omega
  | forEach head body | whileLoop head body =>
    rcases List.mem_cons.mp h with rfl | h
    · simp
    · have hle := sizeOf_le_of_mem_body h
      simp
      omega
  | forLoop first conditions next body =>
    simp only [Control.parts, List.map_append, List.mem_append] at h
    simp only [Control.forLoop.sizeOf_spec]
    rcases h with ((h | h) | h) | h
    · have hle := sizeOf_le_of_mem_exprs h
      omega
    · have hle := sizeOf_le_of_mem_exprs h
      omega
    · have hle := sizeOf_le_of_mem_exprs h
      omega
    · have hle := sizeOf_le_of_mem_body h
      omega
  | doWhile body condition =>
    rcases List.mem_pair.mp h with rfl | rfl <;> simp
  | choice subject cases =>
    rcases List.mem_cons.mp h with rfl | h
    · simp
    · have hle := sizeOf_le_of_mem_blocks h
      simp
      omega
  | attempt body handlers last =>
    simp only [Control.parts, List.map_append, List.mem_append] at h
    simp only [Control.attempt.sizeOf_spec]
    rcases h with (h | h) | h
    · have hle := sizeOf_le_of_mem_stmts h
      omega
    · have hle := sizeOf_le_of_mem_blocks h
      omega
    · have hle := sizeOf_le_of_mem_last h
      omega
  | print values =>
    have hle := sizeOf_le_of_mem_exprs h
    simp
    omega
  | function body =>
    have hle := sizeOf_le_of_mem_stmts h
    simp
    omega
  | traitBody members =>
    have hle := sizeOf_le_of_mem_members h
    simp
    omega

theorem sizeOf_lt_of_mem_stops {v : Visited} (h : p ∈ v.parts) : sizeOf p < sizeOf v := by
  cases v with
  | expr e =>
    by_cases hc : ∃ span body, e = .closure span body
    · obtain ⟨span, body, rfl⟩ := hc
      have hle := sizeOf_le_of_mem_stmts h
      simp
      omega
    · rw [Visited.parts] at h
      · obtain ⟨e', he, rfl⟩ := List.mem_map.mp h
        have hlt := sizeOf_lt_of_mem_parts he
        simp
        omega
      · exact fun span body he => hc ⟨span, body, he⟩
  | stmt s =>
    cases s with
    | expression span e =>
      obtain rfl := List.mem_singleton.mp h
      simp only [Visited.expr.sizeOf_spec, Visited.stmt.sizeOf_spec, Stmt.expression.sizeOf_spec]
      omega
    | ret span value =>
      obtain ⟨e, rfl, rfl⟩ : ∃ e, value = some e ∧ .expr e = p := by simpa [Visited.parts] using h
      simp
      omega
    | control span form =>
      have hle := sizeOf_le_of_mem_control h
      simp
      omega
    | block span body =>
      have hle := sizeOf_le_of_mem_stmts h
      simp
      omega
    | classDecl span name parent members =>
      have hle := sizeOf_le_of_mem_members h
      simp
      omega
    | namespaceDecl span body =>
      have hle := sizeOf_le_of_mem_stmts h
      simp
      omega
    | useDecl span => cases h
    | other span => cases h

end

@[elab_as_elim]
theorem Visited.induct {motive : Visited → Prop}
    (step : ∀ v : Visited, (∀ p ∈ v.parts, motive p) → motive v) (v : Visited) : motive v :=
  step v fun p _ => induct step p
termination_by v
decreasing_by exact sizeOf_lt_of_mem_stops ‹_›

end FactoryLint.Php
