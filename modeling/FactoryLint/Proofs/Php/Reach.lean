import FactoryLint.Proofs.Php.Term
import Mathlib.Logic.Relation

namespace FactoryLint.Php

def Reaches (e e' : Expr) : Prop := Relation.ReflTransGen (fun e p => p ∈ e.parts) e e'

/-- The expression reads the member of the instance. -/
def Expr.IsContainer (s : Settings) : Expr → Prop
  | .property _ object (some member) =>
    SameName member s.memberName ∧ ∃ span, object.bare = .variable span s.selfReference
  | _ => False

/-- The member is used as the object of a property, or of a method call that is not excluded. -/
inductive Uses (s : Settings) : Expr → Expr → Prop
  | property (span : Span) (object : Expr) (name : Option String) :
    object.bare.IsContainer s → Uses s (.property span object name) object.bare
  | methodCall (span : Span) (object : Expr) (name : Option String) (arguments : List Expr) :
    (∀ n ∈ name, ¬s.Excludes n) → object.bare.IsContainer s →
      Uses s (.methodCall span object name arguments) object.bare

theorem bare_bare (e : Expr) : e.bare.bare = e.bare := by
  fun_induction Expr.bare e with
  | case1 _ _ ih => exact ih
  | case2 e h =>
    unfold Expr.bare
    split
    · exact absurd rfl (h _ _)
    · rfl

namespace Uses

variable {s : Settings} {outer c : Expr}

theorem isContainer (h : Uses s outer c) : c.IsContainer s := by
  cases h <;> assumption

theorem bare_eq (h : Uses s outer c) : c.bare = c := by
  cases h <;> exact bare_bare _

end Uses

theorem term_bare (e : Expr) : e.bare.term = e.term := by
  fun_induction Expr.bare e with
  | case1 span inner ih => rw [ih, Expr.term]
  | case2 e h => rfl

theorem bare_ne_parenthesized (e : Expr) (span : Span) (inner : Expr) :
    e.bare ≠ .parenthesized span inner := by
  fun_induction Expr.bare e with
  | case1 _ _ ih => exact ih
  | case2 e h => exact h span inner

/-- The kind of the node that an expression without parentheses around it is lowered to. -/
def Expr.kind : Expr → Kind
  | .array .. => .arrayLiteral
  | .call _ (.name _ text) _ => .functionCall (some text)
  | .methodCall _ _ member _ => .methodCall member
  | .property _ _ member => .property member
  | .variable _ text => .variable text
  | .literal _ text => .literal text
  | .template _ => .interpolated
  | .call .. | .operation .. | .closure .. | .parenthesized .. | .name .. | .other _ => .other

theorem label_term (e : Expr) : e.term.label = sourceLabel e.bare.kind e.bare.span := by
  rw [← term_bare]
  cases h : e.bare with
  | parenthesized span inner => exact absurd h (bare_ne_parenthesized e span inner)
  | call span callee arguments => cases callee <;> simp [Expr.term, Expr.kind, Expr.span]
  | _ => simp [Expr.term, Expr.kind, Expr.span]

theorem kind_label_term (e : Expr) : e.term.label.kind = e.bare.kind := by
  rw [label_term]
  rfl

theorem span_label_term (e : Expr) : e.term.label.span = some e.bare.span := by
  rw [label_term]
  rfl

theorem exists_bare_eq_variable {e : Expr} {name : String}
    (h : e.term.label.kind = .variable name) : ∃ span, e.bare = .variable span name := by
  rw [kind_label_term] at h
  unfold Expr.kind at h
  split at h <;> cases h
  exact ⟨_, ‹_›⟩

theorem exists_bare_eq_property {e : Expr} {name : Option String}
    (h : e.term.label.kind = .property name) :
    ∃ span object, e.bare = .property span object name := by
  rw [kind_label_term] at h
  unfold Expr.kind at h
  split at h <;> cases h
  exact ⟨_, _, ‹_›⟩

theorem exists_bare_eq_array {e : Expr} (h : e.term.label.kind = .arrayLiteral) :
    ∃ span elements, e.bare = .array span elements := by
  rw [kind_label_term] at h
  unfold Expr.kind at h
  split at h <;> cases h
  exact ⟨_, _, ‹_›⟩

theorem readsMember_term {s : Settings} (e : Expr) :
    Rewrite.readsMember s id e.term ↔ e.bare.IsContainer s := by
  constructor
  · intro h
    obtain ⟨x, y, name, ht, hx, hname, hy⟩ := Rewrite.exists_of_readsMember h
    obtain ⟨span, object, he⟩ := exists_bare_eq_property (by rw [ht]; exact hx)
    rw [← term_bare, he, Expr.term] at ht
    obtain ⟨-, hobject⟩ := Tree.node.inj ht
    rw [he]
    refine ⟨hname, exists_bare_eq_variable ?_⟩
    rw [List.singleton_inj.mp hobject]
    exact hy
  · intro h
    rw [← term_bare]
    cases he : e.bare with
    | property span object name =>
      rw [he] at h
      cases name with
      | none => cases h
      | some name =>
        obtain ⟨hname, span', hobject⟩ := h
        rw [Expr.term, ← term_bare object, hobject, Expr.term]
        simpa [Rewrite.readsMember, sourceLabel] using hname
    | _ =>
      rw [he] at h
      cases h

theorem flatMap_elementTerms {β : Type} (f : Term → List β) (es : List Element)
    (hf : ∀ kind span ts, kind = .pair ∨ kind = .item ∨ kind = .other →
      f (.node (sourceLabel kind span) ts) = ts.flatMap f) :
    (elementTerms es).flatMap f = (es.flatMap Element.values).flatMap fun e => f e.term := by
  induction es with
  | nil => rw [elementTerms]; rfl
  | cons x es ih =>
    cases x with
    | pair key value =>
      rw [elementTerms, List.flatMap_cons, ih, hf .pair _ _ (by simp)]
      simp [Element.values]
    | item value =>
      rw [elementTerms, List.flatMap_cons, ih, hf .item _ _ (by simp)]
      simp [Element.values]
    | spread span value =>
      rw [elementTerms, List.flatMap_cons, ih, hf .item _ _ (by simp), List.flatMap_singleton,
        hf .other _ _ (by simp)]
      simp [Element.values]

/-- A part of an expression is a part of its term, or the only thing that one of these says. The
name of a function that is called is part of the label. -/
theorem flatMap_parts_term {β : Type} (f : Term → List β)
    (hf : ∀ kind span ts, kind = .pair ∨ kind = .item ∨ kind = .other →
      f (.node (sourceLabel kind span) ts) = ts.flatMap f) {e : Expr}
    (hp : ∀ span inner, e ≠ .parenthesized span inner) :
    e.term.parts.flatMap f = e.parts.flatMap fun p => f p.term := by
  cases e with
  | array span elements =>
    rw [Expr.term, Tree.parts_node, flatMap_elementTerms f elements hf]
    rfl
  | call span callee arguments =>
    by_cases h : ∃ span name, callee = .name span name
    · obtain ⟨inner, name, rfl⟩ := h
      have hname : f (Expr.name inner name).term = [] := by
        rw [Expr.term, hf .other _ _ (by simp), List.flatMap_nil]
      rw [Expr.term, Tree.parts_node, exprTerms_eq, List.flatMap_map, Expr.parts,
        List.flatMap_cons, hname, List.nil_append]
    · rw [Expr.term, Tree.parts_node, exprTerms_eq, List.flatMap_cons, List.flatMap_map,
        Expr.parts, List.flatMap_cons]
      exact fun span name he => h ⟨span, name, he⟩
  | methodCall span object name arguments =>
    rw [Expr.term, Tree.parts_node, exprTerms_eq, List.flatMap_cons, List.flatMap_map, Expr.parts,
      List.flatMap_cons]
  | property span object name =>
    rw [Expr.term, Tree.parts_node, Expr.parts, List.flatMap_singleton, List.flatMap_singleton]
  | operation span form =>
    rw [Expr.term, Tree.parts_node, Operation.terms_eq, List.flatMap_map, Expr.parts]
  | closure span body =>
    rw [Expr.term, Tree.parts_node, bodyTerms_eq, List.flatMap_map, Expr.parts]
  | parenthesized span inner => exact absurd rfl (hp span inner)
  | _ =>
    rw [Expr.term]
    rfl

section

open Rewrite

variable {s : Settings}

theorem replaced_plain {kind : Kind} (h : kind = .pair ∨ kind = .item ∨ kind = .other ∨
    kind = .arrayLiteral ∨ ∃ name, kind = .functionCall name) (span : Span) (ts : List Term) :
    replaced s (.node (sourceLabel kind span) ts) = ts.flatMap (replaced s) := by
  have hc : ¬(sourceLabel kind span).isClosed := by
    rcases h with rfl | rfl | rfl | rfl | ⟨_, rfl⟩ <;> simp [sourceLabel, Label.isClosed]
  have hs : ¬isSite s id (.node (sourceLabel kind span) ts) := by
    cases ts <;> rcases h with rfl | rfl | rfl | rfl | ⟨_, rfl⟩ <;> simp [isSite, sourceLabel]
  rw [replaced_node, if_neg hc, if_neg hs, List.nil_append]

theorem replaced_parts {e : Expr} (hp : ∀ span object name, e ≠ .property span object name)
    (hm : ∀ span object name arguments, e ≠ .methodCall span object name arguments) :
    replaced s e.term = e.parts.flatMap fun p => replaced s p.term := by
  by_cases hparen : ∃ span inner, e = .parenthesized span inner
  · obtain ⟨span, inner, rfl⟩ := hparen
    rw [Expr.term, Expr.parts, List.flatMap_singleton]
  rw [← flatMap_parts_term (replaced s)
    (fun kind span ts h => replaced_plain (h.imp_right (Or.imp_right Or.inl)) span ts)
    fun span inner h => hparen ⟨span, inner, h⟩]
  cases e with
  | property span object name => exact absurd rfl (hp span object name)
  | methodCall span object name arguments => exact absurd rfl (hm span object name arguments)
  | parenthesized span inner => exact absurd ⟨span, inner, rfl⟩ hparen
  | «variable» | literal | template =>
    rw [Expr.term, replaced_node]
    rfl
  | call span callee arguments =>
    cases callee <;> rw [Expr.term, replaced_plain (by simp), Tree.parts_node] <;> simp
  | _ => rw [Expr.term, replaced_plain (by simp), Tree.parts_node]

theorem mem_replaced_node {ℓ : Label} (hℓ : ℓ.isClosed = false) (object : Term) (rest : List Term)
    (u : Term) : u ∈ replaced s (.node ℓ (object :: rest)) ↔
      isSite s id (.node ℓ (object :: rest)) ∧ u = object ∨
        ∃ t ∈ object :: rest, u ∈ replaced s t := by
  rw [replaced_node, if_neg (Bool.eq_false_iff.mp hℓ), List.mem_append, List.mem_flatMap]
  refine or_congr ?_ Iff.rfl
  split_ifs with h <;> simp [h]

theorem uses_property (span : Span) (object : Expr) (name : Option String) (u : Term) :
    (∃ c, Uses s (.property span object name) c ∧ u = c.term) ↔
      object.bare.IsContainer s ∧ u = object.term := by
  constructor
  · rintro ⟨c, hc, rfl⟩
    cases hc with
    | property _ _ _ h => exact ⟨h, term_bare object⟩
  · rintro ⟨h, rfl⟩
    exact ⟨_, .property span object name h, (term_bare object).symm⟩

theorem uses_methodCall (span : Span) (object : Expr) (name : Option String)
    (arguments : List Expr) (u : Term) :
    (∃ c, Uses s (.methodCall span object name arguments) c ∧ u = c.term) ↔
      ((∀ n ∈ name, ¬s.Excludes n) ∧ object.bare.IsContainer s) ∧ u = object.term := by
  constructor
  · rintro ⟨c, hc, rfl⟩
    cases hc with
    | methodCall _ _ _ _ hn h => exact ⟨⟨hn, h⟩, term_bare object⟩
  · rintro ⟨⟨hn, h⟩, rfl⟩
    exact ⟨_, .methodCall span object name arguments hn h, (term_bare object).symm⟩

theorem mem_replaced_term (e : Expr) (u : Term) : u ∈ replaced s e.term ↔
    (∃ c, Uses s e c ∧ u = c.term) ∨ ∃ p ∈ e.parts, u ∈ replaced s p.term := by
  by_cases hp : ∃ span object name, e = .property span object name
  · obtain ⟨span, object, name, rfl⟩ := hp
    have hsite : isSite s id (.node (sourceLabel (.property name) span) [object.term]) ↔
        object.bare.IsContainer s := readsMember_term object
    rw [Expr.term, mem_replaced_node rfl, hsite, uses_property]
    simp [Expr.parts]
  by_cases hm : ∃ span object name arguments, e = .methodCall span object name arguments
  · obtain ⟨span, object, name, arguments, rfl⟩ := hm
    have hsite : isSite s id (.node (sourceLabel (.methodCall name) span)
        (object.term :: exprTerms arguments)) ↔
        (∀ n ∈ name, ¬s.Excludes n) ∧ object.bare.IsContainer s := by
      rw [← readsMember_term]
      cases name <;> simp [isSite, sourceLabel]
    rw [Expr.term, mem_replaced_node rfl, hsite, uses_methodCall, exprTerms_eq]
    simp [Expr.parts]
  have huse : ¬∃ c, Uses s e c ∧ u = c.term := by
    rintro ⟨c, hc, -⟩
    cases hc with
    | property span object name => exact hp ⟨span, object, name, rfl⟩
    | methodCall span object name arguments => exact hm ⟨span, object, name, arguments, rfl⟩
  rw [or_iff_right huse, replaced_parts (fun span object name h => hp ⟨span, object, name, h⟩)
    fun span object name arguments h => hm ⟨span, object, name, arguments, h⟩, List.mem_flatMap]

/-- What is replaced in an expression are the members used by what is reached from it. -/
theorem mem_replaced_iff (e : Expr) (u : Term) : u ∈ replaced s e.term ↔
    ∃ outer c, Reaches e outer ∧ Uses s outer c ∧ u = c.term := by
  induction e using Expr.induct with
  | step e ih =>
    rw [mem_replaced_term]
    constructor
    · rintro (⟨c, hc, hu⟩ | ⟨p, hp, hu⟩)
      · exact ⟨e, c, .refl, hc, hu⟩
      · obtain ⟨outer, c, hr, hc, hu⟩ := (ih p hp).mp hu
        exact ⟨outer, c, .head hp hr, hc, hu⟩
    · rintro ⟨outer, c, hr, hc, hu⟩
      rcases Relation.ReflTransGen.cases_head hr with rfl | ⟨p, hp, hr⟩
      · exact Or.inl ⟨c, hc, hu⟩
      · exact Or.inr ⟨p, hp, (ih p hp).mpr ⟨outer, c, hr, hc, hu⟩⟩

end

end FactoryLint.Php
