import FactoryLint.Proofs.Php.Nesting
import FactoryLint.Proofs.Text.Shift

namespace FactoryLint.Php

open Rewrite

def callLength (function : String) : Nat := Text.byteLength (callText function).toList

def calleeAt (place : Span) (function : String) : Expr :=
  .name ⟨place.start, place.start + Text.byteLength function.toList⟩ function

def callAt (place : Span) (function : String) : Expr :=
  .call ⟨place.start, place.start + callLength function⟩ (calleeAt place function) []

def Expr.isVariable (e : Expr) : Bool :=
  match e.bare with
  | .variable _ _ => true
  | _ => false

/-- The property of a variable that covers `place`. -/
def Expr.isAt (place : Span) : Expr → Bool
  | .property span object _ => span = place && object.isVariable
  | _ => false

section

variable (place : Span) (function : String)

mutual

/-- The expression with the call in `place`. -/
def Expr.patch : Expr → Expr
  | .array span elements =>
    .array (place.moved (callLength function) span) (patchElements elements)
  | .call span callee arguments =>
    .call (place.moved (callLength function) span) callee.patch (patchExprs arguments)
  | .methodCall span object name arguments =>
    .methodCall (place.moved (callLength function) span) object.patch name (patchExprs arguments)
  | .property span object name =>
    if (Expr.property span object name).isAt place then callAt place function
    else .property (place.moved (callLength function) span) object.patch name
  | .operation span form => .operation (place.moved (callLength function) span) form.patch
  | .closure span body => .closure (place.moved (callLength function) span) (patchStmts body)
  | .parenthesized span inner =>
    .parenthesized (place.moved (callLength function) span) inner.patch
  | .variable span name => .variable (place.moved (callLength function) span) name
  | .literal span text => .literal (place.moved (callLength function) span) text
  | .name span text => .name (place.moved (callLength function) span) text
  | .template span => .template (place.moved (callLength function) span)
  | .other span => .other (place.moved (callLength function) span)

def patchExprs : List Expr → List Expr
  | [] => []
  | e :: es => e.patch :: patchExprs es

def patchElements : List Element → List Element
  | [] => []
  | .pair key value :: es => .pair key.patch value.patch :: patchElements es
  | .item value :: es => .item value.patch :: patchElements es
  | .spread span value :: es =>
    .spread (place.moved (callLength function) span) value.patch :: patchElements es

def Operation.patch : Operation → Operation
  | .unary operand => .unary operand.patch
  | .binary lhs rhs => .binary lhs.patch rhs.patch
  | .conditional condition none otherwise => .conditional condition.patch none otherwise.patch
  | .conditional condition (some chosen) otherwise =>
    .conditional condition.patch (some chosen.patch) otherwise.patch
  | .assignment target value => .assignment target.patch value.patch
  | .index array offset => .index array.patch offset.patch
  | .matching subject arms => .matching subject.patch (patchArms arms)
  | .arrowFunction body => .arrowFunction body.patch
  | .nullSafeProperty object => .nullSafeProperty object.patch
  | .nullSafeCall object arguments => .nullSafeCall object.patch (patchExprs arguments)
  | .staticCall arguments => .staticCall (patchExprs arguments)
  | .instantiation none => .instantiation none
  | .instantiation (some arguments) => .instantiation (some (patchExprs arguments))

def patchArms : List Arm → List Arm
  | [] => []
  | .case conditions result :: arms =>
    .case (patchExprs conditions) result.patch :: patchArms arms
  | .default result :: arms => .default result.patch :: patchArms arms

def Stmt.patch : Stmt → Stmt
  | .expression span e => .expression (place.moved (callLength function) span) e.patch
  | .block span body => .block (place.moved (callLength function) span) (patchStmts body)
  | .ret span none => .ret (place.moved (callLength function) span) none
  | .ret span (some e) => .ret (place.moved (callLength function) span) (some e.patch)
  | .control span form => .control (place.moved (callLength function) span) form.patch
  | .classDecl span name parent members =>
    .classDecl (place.moved (callLength function) span) name parent (patchMembers members)
  | .namespaceDecl span body =>
    .namespaceDecl (place.moved (callLength function) span) (patchStmts body)
  | .useDecl span => .useDecl (place.moved (callLength function) span)
  | .other span => .other (place.moved (callLength function) span)

def patchStmts : List Stmt → List Stmt
  | [] => []
  | s :: ss => s.patch :: patchStmts ss

def Control.patch : Control → Control
  | .branch condition body elseIfs none =>
    .branch condition.patch body.patch (patchElseIfs elseIfs) none
  | .branch condition body elseIfs (some otherwise) =>
    .branch condition.patch body.patch (patchElseIfs elseIfs) (some otherwise.patch)
  | .forEach collection body => .forEach collection.patch body.patch
  | .forLoop first conditions next body =>
    .forLoop (patchExprs first) (patchExprs conditions) (patchExprs next) body.patch
  | .whileLoop condition body => .whileLoop condition.patch body.patch
  | .doWhile body condition => .doWhile body.patch condition.patch
  | .choice subject cases => .choice subject.patch (patchBlocks cases)
  | .attempt body handlers none => .attempt (patchStmts body) (patchBlocks handlers) none
  | .attempt body handlers (some last) =>
    .attempt (patchStmts body) (patchBlocks handlers) (some (patchStmts last))
  | .print values => .print (patchExprs values)
  | .function body => .function (patchStmts body)
  | .traitBody members => .traitBody (patchMembers members)

def Body.patch : Body → Body
  | .statement s => .statement s.patch
  | .delimited body => .delimited (patchStmts body)

def patchElseIfs : List ElseIf → List ElseIf
  | [] => []
  | .mk condition body :: elseIfs => .mk condition.patch body.patch :: patchElseIfs elseIfs

def patchBlocks : List (List Stmt) → List (List Stmt)
  | [] => []
  | body :: blocks => patchStmts body :: patchBlocks blocks

def patchMembers : List Member → List Member
  | [] => []
  | .method body :: members => .method (patchStmts body) :: patchMembers members
  | .other :: members => .other :: patchMembers members

end

attribute [simp] Expr.patch patchExprs patchElements Operation.patch patchArms Stmt.patch patchStmts
  Control.patch Body.patch patchElseIfs patchBlocks patchMembers

def Program.patch (program : Program) : Program := patchStmts place function program

def Visited.patch : Visited → Visited
  | .expr e => .expr (e.patch place function)
  | .stmt s => .stmt (s.patch place function)

end

def Visited.isAt (place : Span) : Visited → Bool
  | .expr e => e.isAt place
  | .stmt _ => false

variable {place : Span} {function : String}

theorem patchExprs_eq (es : List Expr) :
    patchExprs place function es = es.map (Expr.patch place function) := by
  induction es with
  | nil => rw [patchExprs, List.map_nil]
  | cons e es ih => rw [patchExprs, ih, List.map_cons]

theorem patchStmts_eq (ss : List Stmt) :
    patchStmts place function ss = ss.map (Stmt.patch place function) := by
  induction ss with
  | nil => rw [patchStmts, List.map_nil]
  | cons s ss ih => rw [patchStmts, ih, List.map_cons]

theorem flatMap_values_patchElements (es : List Element) :
    (patchElements place function es).flatMap Element.values =
      (es.flatMap Element.values).map (Expr.patch place function) := by
  induction es with
  | nil => rw [patchElements]; rfl
  | cons x es ih =>
    cases x <;>
      rw [patchElements, List.flatMap_cons, ih, List.flatMap_cons, List.map_append] <;> rfl

theorem operands_patchArms (arms : List Arm) :
    (patchArms place function arms).flatMap Arm.operands =
      (arms.flatMap Arm.operands).map (Expr.patch place function) := by
  induction arms with
  | nil => rw [patchArms]; rfl
  | cons arm arms ih =>
    cases arm <;>
      rw [patchArms, List.flatMap_cons, ih, List.flatMap_cons, List.map_append] <;>
      simp [Arm.operands, patchExprs_eq]

theorem operands_patch (form : Operation) :
    (form.patch place function).operands =
      form.operands.map (Expr.patch place function) := by
  cases form with
  | conditional condition chosen otherwise => cases chosen <;> rw [Operation.patch] <;> rfl
  | instantiation arguments =>
    cases arguments <;> rw [Operation.patch] <;> simp [Operation.operands, patchExprs_eq]
  | _ =>
    rw [Operation.patch]
    simp [Operation.operands, patchExprs_eq, operands_patchArms]

theorem stmts_patch_body (body : Body) :
    (body.patch place function).stmts = body.stmts.map (Stmt.patch place function) := by
  cases body <;> rw [Body.patch] <;> simp [Body.stmts, patchStmts_eq]

theorem parts_patchElseIfs (elseIfs : List ElseIf) :
    (patchElseIfs place function elseIfs).flatMap ElseIf.parts =
      (elseIfs.flatMap ElseIf.parts).map (Visited.patch place function) := by
  induction elseIfs with
  | nil => rw [patchElseIfs]; rfl
  | cons x elseIfs ih =>
    obtain ⟨condition, body⟩ := x
    rw [patchElseIfs, List.flatMap_cons, ih, List.flatMap_cons, List.map_append]
    simp [ElseIf.parts, stmts_patch_body, Visited.patch]

theorem patchBlocks_eq (blocks : List (List Stmt)) :
    patchBlocks place function blocks = blocks.map (List.map (Stmt.patch place function)) := by
  induction blocks with
  | nil => rw [patchBlocks, List.map_nil]
  | cons body blocks ih => rw [patchBlocks, ih, patchStmts_eq, List.map_cons]

theorem stmts_patchMembers (members : List Member) :
    (patchMembers place function members).flatMap Member.stmts =
      (members.flatMap Member.stmts).map (Stmt.patch place function) := by
  induction members with
  | nil => rw [patchMembers]; rfl
  | cons m members ih =>
    cases m <;> rw [patchMembers, List.flatMap_cons, ih, List.flatMap_cons, List.map_append] <;>
      simp [Member.stmts, patchStmts_eq]

theorem patch_comp_stmt : Visited.patch place function ∘ Visited.stmt =
    Visited.stmt ∘ Stmt.patch place function := rfl

theorem patch_comp_expr : Visited.patch place function ∘ Visited.expr =
    Visited.expr ∘ Expr.patch place function := rfl

theorem map_stmt_patch (ss : List Stmt) :
    (ss.map (Stmt.patch place function)).map Visited.stmt =
      (ss.map Visited.stmt).map (Visited.patch place function) := by
  rw [List.map_map, List.map_map, patch_comp_stmt]

theorem map_expr_patch (es : List Expr) :
    (es.map (Expr.patch place function)).map Visited.expr =
      (es.map Visited.expr).map (Visited.patch place function) := by
  rw [List.map_map, List.map_map, patch_comp_expr]

theorem parts_patch_control (form : Control) :
    (form.patch place function).parts = form.parts.map (Visited.patch place function) := by
  cases form with
  | branch condition body elseIfs otherwise =>
    cases otherwise <;> rw [Control.patch] <;>
      simp [Control.parts, stmts_patch_body, parts_patchElseIfs, patch_comp_stmt, Visited.patch]
  | attempt body handlers last =>
    cases last <;> rw [Control.patch] <;>
      simp [Control.parts, patchStmts_eq, patchBlocks_eq, patch_comp_stmt]
  | _ =>
    rw [Control.patch]
    simp [Control.parts, patchExprs_eq, patchStmts_eq, stmts_patch_body, patchBlocks_eq,
      stmts_patchMembers, patch_comp_stmt, patch_comp_expr, Visited.patch]

theorem bodyValues_patchStmts (ss : List Stmt) : bodyValues (patchStmts place function ss) =
    (bodyValues ss).map (Expr.patch place function) := by
  fun_induction bodyValues ss with
  | case1 => rw [patchStmts, bodyValues, List.map_nil]
  | case2 span e ss ih | case3 span e ss ih =>
    rw [patchStmts, Stmt.patch, bodyValues, ih, List.map_cons]
  | case4 span body ss ih₁ ih₂ =>
    rw [patchStmts, Stmt.patch, bodyValues, ih₁, ih₂, List.map_append]
  | case5 s ss hr he hb ih =>
    cases s with
    | expression span e => exact absurd rfl (he span e)
    | block span body => exact absurd rfl (hb span body)
    | ret span value =>
      cases value with
      | none => rw [patchStmts, Stmt.patch, bodyValues, ih] <;> simp
      | some e => exact absurd rfl (hr span e)
    | _ => rw [patchStmts, Stmt.patch, bodyValues, ih] <;> simp

theorem patch_of_isAt {e : Expr} (h : e.isAt place) :
    e.patch place function = callAt place function := by
  cases e with
  | property span object name => rw [Expr.patch, if_pos h]
  | _ => cases h

theorem patch_property {span : Span} {object : Expr} {name : Option String}
    (h : (Expr.property span object name).isAt place = false) :
    (Expr.property span object name).patch place function =
      .property (place.moved (callLength function) span) (object.patch place function) name := by
  rw [Expr.patch, if_neg (Bool.eq_false_iff.mp h)]

theorem parts_patch {e : Expr} (h : e.isAt place = false) :
    (e.patch place function).parts = e.parts.map (Expr.patch place function) := by
  cases e with
  | array span elements => rw [Expr.patch, Expr.parts, Expr.parts, flatMap_values_patchElements]
  | closure span body => rw [Expr.patch, Expr.parts, Expr.parts, bodyValues_patchStmts]
  | property span object name => rw [patch_property h, Expr.parts, Expr.parts, List.map_singleton]
  | parenthesized span inner => rw [Expr.patch, Expr.parts, Expr.parts, List.map_singleton]
  | call span callee arguments =>
    rw [Expr.patch, Expr.parts, Expr.parts, patchExprs_eq, List.map_cons]
  | methodCall span object name arguments =>
    rw [Expr.patch, Expr.parts, Expr.parts, patchExprs_eq, List.map_cons]
  | operation span form => rw [Expr.patch, Expr.parts, Expr.parts, operands_patch]
  | _ => rw [Expr.patch, Expr.parts, Expr.parts, List.map_nil]

theorem patch_ne_closure {e : Expr} (h : ∀ span body, e ≠ .closure span body) (span : Span)
    (body : List Stmt) : e.patch place function ≠ .closure span body := by
  cases e with
  | closure span body => exact absurd rfl (h span body)
  | property span object name =>
    rw [Expr.patch]
    split_ifs <;> intro he <;> cases he
  | _ =>
    rw [Expr.patch]
    intro he
    cases he

theorem stops_patch {v : Visited} (h : v.isAt place = false) :
    (v.patch place function).parts = v.parts.map (Visited.patch place function) := by
  cases v with
  | expr e =>
    by_cases hc : ∃ span body, e = .closure span body
    · obtain ⟨span, body, rfl⟩ := hc
      rw [Visited.patch, Expr.patch, Visited.parts, Visited.parts, patchStmts_eq, map_stmt_patch]
    · have hc' : ∀ span body, e ≠ .closure span body := fun span body he => hc ⟨span, body, he⟩
      rw [Visited.patch, Visited.parts, Visited.parts, parts_patch h, map_expr_patch]
      · exact hc'
      · exact patch_ne_closure hc'
  | stmt s =>
    cases s with
    | expression span e => rw [Visited.patch, Stmt.patch]; rfl
    | ret span value => cases value <;> rw [Visited.patch, Stmt.patch] <;> rfl
    | control span form =>
      rw [Visited.patch, Stmt.patch, Visited.parts, parts_patch_control, Visited.parts]
    | block span body =>
      rw [Visited.patch, Stmt.patch, Visited.parts, Visited.parts, patchStmts_eq, map_stmt_patch]
    | classDecl span name parent members =>
      rw [Visited.patch, Stmt.patch, Visited.parts, Visited.parts, stmts_patchMembers,
        map_stmt_patch]
    | namespaceDecl span body =>
      rw [Visited.patch, Stmt.patch, Visited.parts, Visited.parts, patchStmts_eq, map_stmt_patch]
    | useDecl span => rw [Visited.patch, Stmt.patch]; rfl
    | other span => rw [Visited.patch, Stmt.patch]; rfl

theorem Expr.eq_of_isAt {e : Expr} (h : e.isAt place) : ∃ object name inner variableName,
    e = .property place object name ∧ object.bare = .variable inner variableName := by
  cases e with
  | property span object name =>
    rw [isAt, Bool.and_eq_true, decide_eq_true_eq] at h
    obtain ⟨rfl, hv⟩ := h
    unfold isVariable at hv
    split at hv
    · rename_i inner variableName hb
      exact ⟨object, name, inner, variableName, rfl, hb⟩
    · cases hv
  | _ => cases h

theorem span_patch (hplace : place.start < place.stop) (v : Visited) :
    (v.patch place function).span = place.moved (callLength function) v.span := by
  cases v with
  | expr e =>
    by_cases h : e.isAt place
    · rw [Visited.patch, patch_of_isAt h]
      obtain ⟨object, name, _, _, rfl, -⟩ := Expr.eq_of_isAt h
      exact (Span.moved_place hplace).symm
    · cases e with
      | property span object name =>
        rw [Visited.patch, patch_property (Bool.eq_false_iff.mpr h)]
        rfl
      | _ => rw [Visited.patch, Expr.patch]; rfl
  | stmt s =>
    cases s with
    | ret span value => cases value <;> rw [Visited.patch, Stmt.patch] <;> rfl
    | _ => rw [Visited.patch, Stmt.patch]; rfl

theorem Visited.span_of_isAt {v : Visited} (h : v.isAt place) : v.span = place := by
  cases v with
  | expr e =>
    obtain ⟨object, name, _, _, rfl, -⟩ := Expr.eq_of_isAt h
    rfl
  | stmt s => cases h

theorem below_patch_of_free {v : Visited} (h : ∀ x ∈ v :: v.below, x.isAt place = false) :
    (v.patch place function).below = v.below.map (Visited.patch place function) := by
  induction v using Visited.induct with
  | step v ih =>
    rw [below_eq, stops_patch (h v List.mem_cons_self), below_eq, List.flatMap_map,
      List.map_flatMap]
    refine List.flatMap_congr fun p hp => ?_
    rw [List.map_cons, ih p hp fun x hx => h x (List.mem_cons_of_mem _ ?_)]
    exact mem_below.mpr ⟨p, hp, List.mem_cons.mp hx⟩

/-- What becomes of a stop and of what lies inside it. -/
def Patches (place : Span) (function : String) (vs : List Visited) : Prop :=
  ∀ w ∈ (vs.map (Visited.patch place function)).flatMap fun v => v :: v.below,
    (∃ u ∈ vs.flatMap fun v => v :: v.below, w = u.patch place function ∧ place.Clear u.span) ∨
      w = .expr (calleeAt place function)

/-- Of siblings only one holds the place; all that lies in the others is clear of it. -/
theorem patches_siblings (hplace : place.start < place.stop) {vs : List Visited}
    (hn : ∀ v ∈ vs, v.AllNested)
    (ho : vs.Pairwise fun p q => p.span.stop ≤ q.span.start) {x : Visited}
    (hx : x ∈ vs.flatMap fun v => v :: v.below) (hat : x.isAt place)
    (ih : ∀ v ∈ vs, x ∈ v :: v.below → Patches place function [v]) :
    Patches place function vs := by
  intro w hw
  obtain ⟨v', hv', hw⟩ := List.mem_flatMap.mp hw
  obtain ⟨p, hp, rfl⟩ := List.mem_map.mp hv'
  obtain ⟨q, hq, hxq⟩ := List.mem_flatMap.mp hx
  by_cases hxp : x ∈ p :: p.below
  · refine (ih p hp hxp w (by simpa using hw)).imp_left ?_
    rintro ⟨u, hu, he, hc⟩
    exact ⟨u, List.mem_flatMap.mpr ⟨p, hp, by simpa using hu⟩, he, hc⟩
  · have hplaceq : place.Inside q.span := Visited.span_of_isAt hat ▸ (hn q hq).span_inside x hxq
    have hapart := (eq_or_of_pairwise ho hp hq).resolve_left fun he => hxp (he ▸ hxq)
    have hfree : ∀ y ∈ p :: p.below, y.isAt place = false := by
      intro y hy
      by_contra hat'
      have hplacep : place.Inside p.span :=
        Visited.span_of_isAt (Bool.not_eq_false _ ▸ hat') ▸ (hn p hp).span_inside y hy
      unfold Span.Inside at hplacep hplaceq
      omega
    have hw' : w ∈ (p :: p.below).map (Visited.patch place function) := by
      rw [List.map_cons, ← below_patch_of_free hfree]
      exact hw
    obtain ⟨u, hu, rfl⟩ := List.mem_map.mp hw'
    refine Or.inl ⟨u, List.mem_flatMap.mpr ⟨p, hp, hu⟩, rfl, ?_⟩
    have hup := (hn p hp).span_inside u hu
    unfold Span.Clear
    unfold Span.Inside at hup hplaceq
    omega

theorem below_callAt : (Visited.expr (callAt place function)).below =
    [.expr (calleeAt place function)] := rfl

theorem patches_of_mem (hplace : place.start < place.stop) {v : Visited} (h : v.AllNested)
    {x : Visited} (hx : x ∈ v :: v.below) (hat : x.isAt place) : Patches place function [v] := by
  induction v using Visited.induct with
  | step v ih =>
    intro w hw
    rw [List.map_singleton, List.flatMap_singleton, List.mem_cons] at hw
    rw [List.flatMap_singleton]
    have hinside : place.Inside v.span := Visited.span_of_isAt hat ▸ h.span_inside x hx
    rcases hw with rfl | hw
    · exact Or.inl ⟨v, List.mem_cons_self, rfl, Or.inr (Or.inr hinside)⟩
    by_cases hv : v.isAt place
    · cases v with
      | expr e =>
        rw [Visited.patch, patch_of_isAt hv, below_callAt, List.mem_singleton] at hw
        exact Or.inr hw
      | stmt s => cases hv
    · have hv' : v.isAt place = false := Bool.eq_false_iff.mpr hv
      have hxv : x ∈ v.below :=
        (List.mem_cons.mp hx).resolve_left fun he => hv (he ▸ hat)
      rw [below_eq] at hxv
      have hsiblings : Patches place function v.parts :=
        patches_siblings hplace (fun p hp => h.part hp) h.isNested.ordered hxv hat
          fun p hp hxp => ih p hp (h.part hp) hxp
      rw [below_eq, stops_patch hv'] at hw
      refine (hsiblings w hw).imp_left ?_
      rintro ⟨u, hu, he, hc⟩
      exact ⟨u, List.mem_cons_of_mem _ (below_eq v ▸ hu), he, hc⟩

theorem map_stmt_patch_program (program : Program) :
    (program.patch place function).map Visited.stmt =
      (program.map Visited.stmt).map (Visited.patch place function) := by
  rw [Program.patch, patchStmts_eq, map_stmt_patch]

/-- Stops of the patched program are patched stops clear of the place, and the new callee. -/
theorem mem_stops_patch {program : Program} (hn : program.WellNested)
    (hplace : place.start < place.stop) {x : Visited} (hx : x ∈ program.stops)
    (hat : x.isAt place) {w : Visited} (hw : w ∈ (program.patch place function).stops) :
    (∃ u ∈ program.stops, w = u.patch place function ∧ place.Clear u.span) ∨
      w = .expr (calleeAt place function) := by
  rw [stops_eq] at hx
  have hpatches : Patches place function (program.map Visited.stmt) :=
    patches_siblings hplace hn.allNested_stmt (List.pairwise_map.mpr hn.ordered) hx hat
      fun v hv hxv => patches_of_mem hplace (hn.allNested_stmt v hv) hxv hat
  rw [stops_eq, map_stmt_patch_program] at hw
  rw [stops_eq]
  exact hpatches w hw

theorem Visited.IsNested.patch (hplace : place.start < place.stop) {v : Visited}
    (h : v.IsNested) (hv : v.isAt place = false) : (v.patch place function).IsNested := by
  constructor
  · intro p hp
    rw [stops_patch hv] at hp
    obtain ⟨q, hq, rfl⟩ := List.mem_map.mp hp
    rw [span_patch hplace, span_patch hplace]
    exact (h.inside q hq).moved
  · rw [stops_patch hv]
    refine List.pairwise_map.mpr (h.ordered.imp fun hle => ?_)
    rw [span_patch hplace, span_patch hplace]
    exact Span.shift_le_shift hle

theorem isNested_callAt : (Visited.expr (callAt place function)).IsNested := by
  constructor
  · intro p hp
    obtain rfl := List.mem_singleton.mp hp
    refine ⟨Nat.le_refl _, Nat.add_le_add_left ?_ _⟩
    rw [callLength, callText, String.toList_append, Text.byteLength_append]
    exact Nat.le_add_right _ _
  · exact List.pairwise_singleton _ _

theorem callLength_eq (function : String) :
    callLength function = Text.byteLength function.toList + 2 := by
  have hparens : Text.byteLength "()".toList = 2 := by decide
  rw [callLength, callText, String.toList_append, Text.byteLength_append, hparens]

theorem callLength_pos (function : String) : 0 < callLength function := by
  rw [callLength_eq]
  exact Nat.succ_pos _

theorem Visited.IsWritten.patch {v : Visited} (h : v.IsWritten) (hc : place.Clear v.span) :
    (v.patch place function).IsWritten := by
  cases v with
  | stmt s => exact trivial
  | expr e =>
    cases e with
    | «variable» span name =>
      have hlt : span.start < span.stop := h
      obtain ⟨hstart, -⟩ := hc.endpoints (Nat.le_of_lt hlt)
      rw [Visited.patch, Expr.patch]
      refine Nat.lt_of_not_le fun hle => Nat.not_le.mpr hlt ?_
      exact Span.le_of_shift_le_shift (callLength_pos function) hstart hle
    | property span object name =>
      rw [Visited.patch, Expr.patch]
      split_ifs <;> exact trivial
    | _ =>
      rw [Visited.patch, Expr.patch]
      exact trivial

theorem Program.WellNested.patch {program : Program} (hn : program.WellNested)
    (hplace : place.start < place.stop) {x : Visited} (hx : x ∈ program.stops)
    (hat : x.isAt place) : (program.patch place function).WellNested := by
  constructor
  · rw [Program.patch, patchStmts_eq]
    refine List.pairwise_map.mpr (hn.ordered.imp fun {s t} hle => ?_)
    have hs : (s.patch place function).span = _ := span_patch hplace (.stmt s)
    have ht : (t.patch place function).span = _ := span_patch hplace (.stmt t)
    rw [hs, ht]
    exact Span.shift_le_shift hle
  · intro w hw
    rcases mem_stops_patch hn hplace hx hat hw with ⟨u, hu, rfl, -⟩ | rfl
    · by_cases hu' : u.isAt place
      · cases u with
        | expr e =>
          rw [Visited.patch, patch_of_isAt hu']
          exact isNested_callAt
        | stmt s => cases hu'
      · exact (hn.nested u hu).patch hplace (Bool.eq_false_iff.mpr hu')
    · exact ⟨fun _ hp => (List.not_mem_nil hp).elim, .nil⟩
  · intro w hw
    rcases mem_stops_patch hn hplace hx hat hw with ⟨u, hu, rfl, hc⟩ | rfl
    · exact (hn.written u hu).patch hc
    · exact trivial

def Program.Forward (program : Program) : Prop :=
  ∀ v ∈ program.stops, v.span.start ≤ v.span.stop

theorem Program.Forward.patch {program : Program} (hf : program.Forward)
    (hn : program.WellNested) (hplace : place.start < place.stop) {x : Visited}
    (hx : x ∈ program.stops) (hat : x.isAt place) :
    (program.patch place function).Forward := by
  intro w hw
  rcases mem_stops_patch hn hplace hx hat hw with ⟨u, hu, rfl, -⟩ | rfl
  · rw [span_patch hplace]
    exact Span.shift_le_shift (hf u hu)
  · exact Nat.le_add_right _ _

end FactoryLint.Php
