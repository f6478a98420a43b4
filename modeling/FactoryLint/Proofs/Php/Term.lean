import FactoryLint.Php.Lowering
import FactoryLint.Proofs.Arena.Slot
import FactoryLint.Proofs.Php.Parts
import FactoryLint.Proofs.Rewrite.Emit

namespace FactoryLint.Php

def sourceLabel (kind : Kind) (span : Span) : Label := ⟨kind, some span, .source⟩

mutual

def Expr.term : Expr → Term
  | .array span elements => .node (sourceLabel .arrayLiteral span) (elementTerms elements)
  | .call span callee arguments =>
    match callee with
    | .name _ name => .node (sourceLabel (.functionCall (some name)) span) (exprTerms arguments)
    | callee => .node (sourceLabel .other span) (callee.term :: exprTerms arguments)
  | .methodCall span object name arguments =>
    .node (sourceLabel (.methodCall name) span) (object.term :: exprTerms arguments)
  | .property span object name => .node (sourceLabel (.property name) span) [object.term]
  | .operation span form => .node (sourceLabel .other span) form.terms
  | .closure span body => .node (sourceLabel .other span) (bodyTerms body)
  | .parenthesized _ inner => inner.term
  | .variable span name => .node (sourceLabel (.variable name) span) []
  | .literal span text => .node (sourceLabel (.literal text) span) []
  | .name span _ => .node (sourceLabel .other span) []
  | .template span => .node (sourceLabel .interpolated span) []
  | .other span => .node (sourceLabel .other span) []

def exprTerms : List Expr → List Term
  | [] => []
  | e :: es => e.term :: exprTerms es

def elementTerms : List Element → List Term
  | [] => []
  | .pair key value :: es =>
    .node (sourceLabel .pair (key.span.through value.span)) [key.term, value.term] ::
      elementTerms es
  | .item value :: es => .node (sourceLabel .item value.span) [value.term] :: elementTerms es
  | .spread span value :: es =>
    .node (sourceLabel .item span) [.node (sourceLabel .other span) [value.term]] ::
      elementTerms es

def Operation.terms : Operation → List Term
  | .unary operand => [operand.term]
  | .binary lhs rhs => [lhs.term, rhs.term]
  | .conditional condition none otherwise => [condition.term, otherwise.term]
  | .conditional condition (some chosen) otherwise =>
    [condition.term, chosen.term, otherwise.term]
  | .assignment target value => [target.term, value.term]
  | .index array offset => [array.term, offset.term]
  | .matching subject arms => subject.term :: armTerms arms
  | .arrowFunction body => [body.term]
  | .nullSafeProperty object => [object.term]
  | .nullSafeCall object arguments => object.term :: exprTerms arguments
  | .staticCall arguments => exprTerms arguments
  | .instantiation none => []
  | .instantiation (some arguments) => exprTerms arguments

def armTerms : List Arm → List Term
  | [] => []
  | .case conditions result :: arms => exprTerms conditions ++ result.term :: armTerms arms
  | .default result :: arms => result.term :: armTerms arms

def bodyTerms : List Stmt → List Term
  | [] => []
  | .ret _ (some e) :: ss => e.term :: bodyTerms ss
  | .expression _ e :: ss => e.term :: bodyTerms ss
  | .block _ body :: ss => bodyTerms body ++ bodyTerms ss
  | _ :: ss => bodyTerms ss

end

theorem exprTerms_eq (es : List Expr) : exprTerms es = es.map Expr.term := by
  induction es with
  | nil => rw [exprTerms, List.map_nil]
  | cons e es ih => rw [exprTerms, ih, List.map_cons]

theorem bodyTerms_eq (ss : List Stmt) : bodyTerms ss = (bodyValues ss).map Expr.term := by
  fun_induction bodyValues ss with
  | case1 => rw [bodyTerms, List.map_nil]
  | case2 span e ss ih | case3 span e ss ih => rw [bodyTerms, ih, List.map_cons]
  | case4 span body ss ih₁ ih₂ => rw [bodyTerms, ih₁, ih₂, List.map_append]
  | case5 s ss h₁ h₂ h₃ ih => rw [bodyTerms, ih] <;> assumption

theorem armTerms_eq (arms : List Arm) :
    armTerms arms = (arms.flatMap Arm.operands).map Expr.term := by
  induction arms with
  | nil => rw [armTerms]; rfl
  | cons arm arms ih =>
    cases arm <;> rw [armTerms, ih, List.flatMap_cons, List.map_append] <;>
      simp [Arm.operands, exprTerms_eq]

theorem Operation.terms_eq (form : Operation) : form.terms = form.operands.map Expr.term := by
  cases form with
  | conditional condition chosen otherwise => cases chosen <;> rw [Operation.terms] <;> rfl
  | matching subject arms => rw [Operation.terms, armTerms_eq]; rfl
  | nullSafeCall object arguments => rw [Operation.terms, exprTerms_eq]; rfl
  | staticCall arguments => rw [Operation.terms, exprTerms_eq]; rfl
  | instantiation arguments =>
    cases arguments with
    | none => rw [Operation.terms]; rfl
    | some arguments => rw [Operation.terms, exprTerms_eq]; rfl
  | _ => rw [Operation.terms]; rfl

/-- The node stands in the source, and refers to earlier nodes only. -/
def IsLowered (a : Arena) (id : NodeId) : Prop :=
  ∃ shape span, a.node? id = some ⟨shape, some span, .source⟩ ∧ ∀ y ∈ shape.children, y < id

/-- From `a` to `b` trees of new nodes were added that are read as the given terms. -/
structure Lowers (a b : Arena) (us : List (Tree NodeId)) (ts : List Term) : Prop where
  size_le : a.size ≤ b.size
  kept : ∀ id < a.size, b.node? id = a.node? id
  holds : ∀ u ∈ us, b.Holds u
  nodup : (us.flatMap Tree.labels).Nodup
  fresh : ∀ id ∈ us.flatMap Tree.labels, a.size ≤ id
  covers : ∀ id < b.size, a.size ≤ id → id ∈ us.flatMap Tree.labels
  lowered : ∀ id < b.size, a.size ≤ id → IsLowered b id
  terms : us.map b.term = ts
  source : ∀ t ∈ ts, Rewrite.IsSource t

namespace Lowers

variable {a b c : Arena} {us vs : List (Tree NodeId)} {ts ws : List Term}

theorem nil (a : Arena) : Lowers a a [] [] where
  size_le := Nat.le_refl _
  kept := fun _ _ => rfl
  holds := by simp
  nodup := by simp
  fresh := by simp
  covers := fun _ hlt hge => absurd hge (Nat.not_le.mpr hlt)
  lowered := fun _ hlt hge => absurd hge (Nat.not_le.mpr hlt)
  terms := rfl
  source := by simp

theorem lt_size (h : Lowers a b us ts) : ∀ id ∈ us.flatMap Tree.labels, id < b.size :=
  Arena.lt_size_of_holds h.holds

section

variable (h : Lowers a b us ts) (hkept : ∀ id < b.size, c.node? id = b.node? id)

include h hkept

theorem later_kept : ∀ id < a.size, c.node? id = a.node? id := fun id hid =>
  (hkept id (Nat.lt_of_lt_of_le hid h.size_le)).trans (h.kept id hid)

theorem later_holds : ∀ u ∈ us, c.Holds u :=
  Arena.holds_congr (fun id hid => hkept id (h.lt_size id hid)) h.holds

theorem later_terms : us.map c.term = ts := by
  rw [← h.terms]
  exact Arena.map_term_congr fun id hid => hkept id (h.lt_size id hid)

theorem later_lowered : ∀ id < b.size, a.size ≤ id → IsLowered c id := by
  intro id hlt hge
  rw [IsLowered, hkept id hlt]
  exact h.lowered id hlt hge

end

theorem append (h : Lowers a b us ts) (h' : Lowers b c vs ws) :
    Lowers a c (us ++ vs) (ts ++ ws) where
  size_le := Nat.le_trans h.size_le h'.size_le
  kept := h.later_kept h'.kept
  holds u hu := (List.mem_append.mp hu).elim (h.later_holds h'.kept u) (h'.holds u)
  nodup := by
    rw [List.flatMap_append]
    refine List.nodup_append'.mpr ⟨h.nodup, h'.nodup, fun id hid hid' => ?_⟩
    exact Nat.not_lt.mpr (h'.fresh id hid') (h.lt_size id hid)
  fresh id hid := by
    rw [List.flatMap_append, List.mem_append] at hid
    exact hid.elim (h.fresh id) fun hid => Nat.le_trans h.size_le (h'.fresh id hid)
  covers id hlt hge := by
    rw [List.flatMap_append, List.mem_append]
    by_cases hid : id < b.size
    · exact Or.inl (h.covers id hid hge)
    · exact Or.inr (h'.covers id hlt (Nat.le_of_not_lt hid))
  lowered id hlt hge := by
    by_cases hid : id < b.size
    · exact h.later_lowered h'.kept id hid hge
    · exact h'.lowered id hlt (Nat.le_of_not_lt hid)
  terms := by rw [List.map_append, h.later_terms h'.kept, h'.terms]
  source t ht := (List.mem_append.mp ht).elim (h.source t) (h'.source t)

/-- Trees may be listed in another order than that in which they were added. -/
theorem append_swap (h : Lowers a b us ts) (h' : Lowers b c vs ws) :
    Lowers a c (vs ++ us) (ws ++ ts) where
  size_le := (h.append h').size_le
  kept := (h.append h').kept
  holds u hu := (h.append h').holds u (List.mem_append.mpr (List.mem_append.mp hu).symm)
  nodup := (List.perm_append_comm.flatMap_right _).nodup (h.append h').nodup
  fresh id hid := (h.append h').fresh id ((List.perm_append_comm.flatMap_right _).mem_iff.mp hid)
  covers id hlt hge :=
    (List.perm_append_comm.flatMap_right _).mem_iff.mp ((h.append h').covers id hlt hge)
  lowered := (h.append h').lowered
  terms := by rw [List.map_append, h.later_terms h'.kept, h'.terms]
  source t ht := (List.mem_append.mp ht).elim (h'.source t) (h.source t)

theorem push (h : Lowers a b us ts) (shape : Shape) (span : Span)
    (hc : shape.children = us.map Tree.label) :
    ∃ c u, Lowering.push shape span b = (u.label, c) ∧
      Lowers a c [u] [.node (sourceLabel shape.kind span) ts] := by
  obtain ⟨c, hpush⟩ : ∃ c, c = (b.push ⟨shape, some span, .source⟩).2 := ⟨_, rfl⟩
  have hnode : ∀ id, c.node? id = if id = b.size then some ⟨shape, some span, .source⟩
      else b.node? id := fun id => hpush ▸ b.node?_push _ id
  have hsize : c.size = b.size + 1 := by rw [hpush, Arena.size_push]
  have hroot : c.node? b.size = some ⟨shape, some span, .source⟩ := by rw [hnode, if_pos rfl]
  have hkept : ∀ id < b.size, c.node? id = b.node? id := fun id hid => by
    rw [hnode, if_neg (Nat.ne_of_lt hid)]
  have hnew : ∀ id < c.size, ¬id < b.size → id = b.size := fun id hlt hid => by omega
  refine ⟨c, .node b.size us, by rw [hpush]; rfl, ?_, h.later_kept hkept, ?_, ?_, ?_, ?_, ?_, ?_,
    ?_⟩
  · rw [hsize]
    exact Nat.le_succ_of_le h.size_le
  · intro u hu
    rw [List.mem_singleton.mp hu]
    exact Arena.holds_node.mpr ⟨⟨_, hroot, hc⟩, h.later_holds hkept⟩
  · rw [List.flatMap_singleton, Tree.labels_node, List.nodup_cons]
    exact ⟨fun hid => Nat.lt_irrefl _ (h.lt_size _ hid), h.nodup⟩
  · intro id hid
    rw [List.flatMap_singleton, Tree.labels_node, List.mem_cons] at hid
    rcases hid with rfl | hid
    · exact h.size_le
    · exact h.fresh id hid
  · intro id hlt hge
    rw [List.flatMap_singleton, Tree.labels_node, List.mem_cons]
    by_cases hid : id < b.size
    · exact Or.inr (h.covers id hid hge)
    · exact Or.inl (hnew id hlt hid)
  · intro id hlt hge
    by_cases hid : id < b.size
    · exact h.later_lowered hkept id hid hge
    · obtain rfl := hnew id hlt hid
      refine ⟨shape, span, hroot, fun y hy => ?_⟩
      rw [hc] at hy
      obtain ⟨u, hu, rfl⟩ := List.mem_map.mp hy
      exact (h.holds u hu).lt_size _ u.label_mem_labels
  · rw [List.map_singleton, Arena.term_node, Arena.label_eq hroot, h.later_terms hkept]
    rfl
  · intro t ht
    rw [List.mem_singleton.mp ht]
    exact Rewrite.isSource_node.mpr ⟨rfl, h.source⟩

end Lowers

theorem Lowers.expr {a b : Arena} {us : List (Tree NodeId)} {ts : List Term} {e : Expr}
    (h : Lowers a b us ts) (shape : Shape) (span : Span)
    (hc : shape.children = us.map Tree.label)
    (hlower : e.lower a = Lowering.push shape span b)
    (hterm : e.term = .node (sourceLabel shape.kind span) ts) :
    ∃ c u, e.lower a = (u.label, c) ∧ Lowers a c [u] [e.term] := by
  rw [hlower, hterm]
  exact h.push shape span hc

theorem Lowering.bind_eq {α β : Type} {x : Lowering α} {v : α} {a b : Arena}
    (h : x a = (v, b)) (f : α → Lowering β) : (x >>= f) a = f v b := by
  change (match x a with | (v, b) => f v b) = f v b
  rw [h]

theorem lowerExprs_append (es es' : List Expr) : lowerExprs (es ++ es') = do
    let ids ← lowerExprs es
    let ids' ← lowerExprs es'
    return ids ++ ids' := by
  induction es with
  | nil => simp [lowerExprs]
  | cons e es ih => simp [lowerExprs, ih]

theorem lowerArms_eq (arms : List Arm) :
    lowerArms arms = lowerExprs (arms.flatMap Arm.operands) := by
  induction arms with
  | nil => rw [lowerArms]; rfl
  | cons arm arms ih =>
    cases arm <;>
      simp [lowerArms, ih, Arm.operands, lowerExprs_append, lowerExprs]

theorem Operation.lower_eq (form : Operation) : form.lower = lowerExprs form.operands := by
  cases form with
  | conditional condition chosen otherwise =>
    cases chosen <;> simp [Operation.lower, operands, lowerExprs]
  | instantiation arguments => cases arguments <;> simp [Operation.lower, operands, lowerExprs]
  | _ => simp [Operation.lower, operands, lowerExprs, lowerArms_eq]

/-- Wherever the expression is lowered, its term is what is then read. -/
def Expr.LowersAnywhere (e : Expr) : Prop :=
  ∀ a, ∃ b u, e.lower a = (u.label, b) ∧ Lowers a b [u] [e.term]

theorem lowerExprs_of_lowers {es : List Expr} (hes : ∀ e ∈ es, e.LowersAnywhere) (a : Arena) :
    ∃ b us, lowerExprs es a = (us.map Tree.label, b) ∧ Lowers a b us (es.map Expr.term) := by
  induction es generalizing a with
  | nil => exact ⟨a, [], by rw [lowerExprs]; rfl, .nil a⟩
  | cons e es ih =>
    obtain ⟨b, u, hb, h⟩ := hes e List.mem_cons_self a
    obtain ⟨c, us, hc, h'⟩ := ih (fun e he => hes e (List.mem_cons_of_mem _ he)) b
    refine ⟨c, u :: us, ?_, h.append h'⟩
    rw [lowerExprs, Lowering.bind_eq hb, Lowering.bind_eq hc]
    rfl

theorem lowerElements_of_lowers {es : List Element}
    (hes : ∀ x ∈ es, ∀ e ∈ x.values, e.LowersAnywhere) (a : Arena) :
    ∃ b us, lowerElements es a = (us.map Tree.label, b) ∧ Lowers a b us (elementTerms es) := by
  induction es generalizing a with
  | nil => exact ⟨a, [], by rw [lowerElements]; rfl, by rw [elementTerms]; exact .nil a⟩
  | cons x es ih =>
    have hx := hes x List.mem_cons_self
    have hrest := ih fun x hx => hes x (List.mem_cons_of_mem _ hx)
    cases x with
    | pair key value =>
      obtain ⟨b, k, hb, h₁⟩ := hx key List.mem_cons_self a
      obtain ⟨c, v, hc, h₂⟩ := hx value (List.mem_cons_of_mem _ List.mem_cons_self) b
      obtain ⟨d, u, hd, h₃⟩ := (h₁.append h₂).push (.arrayItem (some k.label) v.label)
        (key.span.through value.span) rfl
      obtain ⟨f, us, hf, h₄⟩ := hrest d
      refine ⟨f, u :: us, ?_, ?_⟩
      · rw [lowerElements, Lowering.bind_eq hb, Lowering.bind_eq hc, Lowering.bind_eq hd,
          Lowering.bind_eq hf]
        rfl
      · rw [elementTerms]
        exact h₃.append h₄
    | item value =>
      obtain ⟨b, v, hb, h₁⟩ := hx value List.mem_cons_self a
      obtain ⟨c, u, hc, h₂⟩ := h₁.push (.arrayItem none v.label) value.span rfl
      obtain ⟨d, us, hd, h₃⟩ := hrest c
      refine ⟨d, u :: us, ?_, ?_⟩
      · rw [lowerElements, Lowering.bind_eq hb, Lowering.bind_eq hc, Lowering.bind_eq hd]
        rfl
      · rw [elementTerms]
        exact h₂.append h₃
    | spread span value =>
      obtain ⟨b, v, hb, h₁⟩ := hx value List.mem_cons_self a
      obtain ⟨c, w, hc, h₂⟩ := h₁.push (.other [v.label]) span rfl
      obtain ⟨d, u, hd, h₃⟩ := h₂.push (.arrayItem none w.label) span rfl
      obtain ⟨f, us, hf, h₄⟩ := hrest d
      refine ⟨f, u :: us, ?_, ?_⟩
      · rw [lowerElements, Lowering.bind_eq hb, Lowering.bind_eq hc, Lowering.bind_eq hd,
          Lowering.bind_eq hf]
        rfl
      · rw [elementTerms]
        exact h₃.append h₄

theorem lowerBody_of_lowers {ss : List Stmt} (hss : ∀ e ∈ bodyValues ss, e.LowersAnywhere)
    (a : Arena) :
    ∃ b us, lowerBody ss a = (us.map Tree.label, b) ∧ Lowers a b us (bodyTerms ss) := by
  fun_induction bodyValues ss generalizing a with
  | case1 => exact ⟨a, [], by rw [lowerBody]; rfl, by rw [bodyTerms]; exact .nil a⟩
  | case2 span e ss ih | case3 span e ss ih =>
    obtain ⟨b, u, hb, h⟩ := hss e List.mem_cons_self a
    obtain ⟨c, us, hc, h'⟩ := ih (fun e he => hss e (List.mem_cons_of_mem _ he)) b
    refine ⟨c, u :: us, ?_, ?_⟩
    · rw [lowerBody, Lowering.bind_eq hb, Lowering.bind_eq hc]
      rfl
    · rw [bodyTerms]
      exact h.append h'
  | case4 span body ss ih₁ ih₂ =>
    obtain ⟨b, us, hb, h⟩ := ih₁ (fun e he => hss e (List.mem_append_left _ he)) a
    obtain ⟨c, vs, hc, h'⟩ := ih₂ (fun e he => hss e (List.mem_append_right _ he)) b
    refine ⟨c, us ++ vs, ?_, ?_⟩
    · rw [lowerBody, Lowering.bind_eq hb, Lowering.bind_eq hc, List.map_append]
      rfl
    · rw [bodyTerms]
      exact h.append h'
  | case5 s ss h₁ h₂ h₃ ih =>
    obtain ⟨b, us, hb, h⟩ := ih hss a
    refine ⟨b, us, ?_, ?_⟩
    · rw [lowerBody, hb] <;> assumption
    · rw [bodyTerms] <;> assumption

theorem Expr.lowersAnywhere_call {span : Span} {callee : Expr} {arguments : List Expr}
    (hcallee : callee.LowersAnywhere) (harguments : ∀ e ∈ arguments, e.LowersAnywhere) :
    (Expr.call span callee arguments).LowersAnywhere := by
  intro a
  obtain ⟨b, us, hb, h⟩ := lowerExprs_of_lowers harguments a
  by_cases hn : ∃ span name, callee = .name span name
  · obtain ⟨inner, name, rfl⟩ := hn
    refine h.expr (.functionCall (some name) (us.map Tree.label)) span rfl ?_ ?_
    · rw [Expr.lower, Lowering.bind_eq hb]
    · rw [Expr.term, exprTerms_eq]
      rfl
  · have hne : ∀ span name, callee ≠ .name span name :=
      fun span name he => hn ⟨span, name, he⟩
    obtain ⟨c, u, hc, h'⟩ := hcallee b
    -- the callee is lowered behind the arguments and listed before them
    refine (h.append_swap h').expr (.other (u.label :: us.map Tree.label)) span rfl ?_ ?_
    · rw [Expr.lower, Lowering.bind_eq hb]
      split
      · rename_i span name
        exact absurd rfl (hne span name)
      · rw [Lowering.bind_eq hc]
    · rw [Expr.term]
      · rw [exprTerms_eq]
        rfl
      · exact hne

theorem Expr.lower_lowers (e : Expr) : e.LowersAnywhere := by
  induction e using Expr.induct with
  | step e ih =>
    intro a
    cases e with
    | array span elements =>
      obtain ⟨b, us, hb, h⟩ := lowerElements_of_lowers
        (fun x hx e he => ih e (List.mem_flatMap.mpr ⟨x, hx, he⟩)) a
      refine h.expr (.arrayLiteral (us.map Tree.label)) span rfl ?_ ?_
      · rw [Expr.lower, Lowering.bind_eq hb]
      · rw [Expr.term]
        rfl
    | call span callee arguments =>
      exact Expr.lowersAnywhere_call (ih callee List.mem_cons_self)
        (fun e he => ih e (List.mem_cons_of_mem _ he)) a
    | methodCall span object name arguments =>
      obtain ⟨b, u, hb, h⟩ := ih object List.mem_cons_self a
      obtain ⟨c, us, hc, h'⟩ :=
        lowerExprs_of_lowers (fun e he => ih e (List.mem_cons_of_mem _ he)) b
      refine (h.append h').expr (.methodCall u.label name (us.map Tree.label)) span rfl ?_ ?_
      · rw [Expr.lower, Lowering.bind_eq hb, Lowering.bind_eq hc]
      · rw [Expr.term, exprTerms_eq]
        rfl
    | property span object name =>
      obtain ⟨b, u, hb, h⟩ := ih object List.mem_cons_self a
      refine h.expr (.property u.label name) span rfl ?_ ?_
      · rw [Expr.lower, Lowering.bind_eq hb]
      · rw [Expr.term]
        rfl
    | operation span form =>
      have hoperands : ∀ e ∈ form.operands, e.LowersAnywhere := ih
      obtain ⟨b, us, hb, h⟩ := lowerExprs_of_lowers hoperands a
      refine h.expr (.other (us.map Tree.label)) span rfl ?_ ?_
      · rw [Expr.lower, Operation.lower_eq, Lowering.bind_eq hb]
      · rw [Expr.term, Operation.terms_eq]
        rfl
    | closure span body =>
      have hvalues : ∀ e ∈ bodyValues body, e.LowersAnywhere := ih
      obtain ⟨b, us, hb, h⟩ := lowerBody_of_lowers hvalues a
      refine h.expr (.other (us.map Tree.label)) span rfl ?_ ?_
      · rw [Expr.lower, Lowering.bind_eq hb]
      · rw [Expr.term]
        rfl
    | parenthesized span inner =>
      obtain ⟨b, u, hb, h⟩ := ih inner List.mem_cons_self a
      rw [Expr.lower, Expr.term]
      exact ⟨b, u, hb, h⟩
    | «variable» span name =>
      exact (Lowers.nil a).expr (.variable name) span rfl (by rw [Expr.lower])
        (by rw [Expr.term]; rfl)
    | literal span text =>
      exact (Lowers.nil a).expr (.literal text) span rfl (by rw [Expr.lower])
        (by rw [Expr.term]; rfl)
    | name span text =>
      exact (Lowers.nil a).expr (.other []) span rfl (by rw [Expr.lower])
        (by rw [Expr.term]; rfl)
    | template span =>
      exact (Lowers.nil a).expr (.interpolated []) span rfl (by rw [Expr.lower])
        (by rw [Expr.term]; rfl)
    | other span =>
      exact (Lowers.nil a).expr (.other []) span rfl (by rw [Expr.lower])
        (by rw [Expr.term]; rfl)

theorem lowerExprs_lowers (a : Arena) (es : List Expr) :
    ∃ b us, lowerExprs es a = (us.map Tree.label, b) ∧ Lowers a b us (es.map Expr.term) :=
  lowerExprs_of_lowers (fun e _ => e.lower_lowers) a

end FactoryLint.Php
