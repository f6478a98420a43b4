import FactoryLint.Proofs.Classes.Enclosing
import FactoryLint.Proofs.Php.Declared
import FactoryLint.Proofs.Php.Literals
import FactoryLint.Proofs.Rule.Patched

namespace FactoryLint.Php

variable {program : Program} {source : String} {ds : List Declaration}

def Program.IsAround (program : Program) (e : Expr) (c : Stmt) : Prop :=
  c.IsClass ∧ .stmt c ∈ program.stops ∧ .expr e ∈ (Visited.stmt c).below

/-- The statement has the property and lies inside all others that have it. -/
def Innermost (p : Stmt → Prop) (c : Stmt) : Prop :=
  p c ∧ ∀ c', p c' → c.span.Inside c'.span

def Program.HasBrackets (program : Program) : Prop :=
  ∀ span elements, .expr (.array span elements) ∈ program.stops → span.start < span.stop

instance (program : Program) : Decidable program.HasBrackets :=
  decidable_of_iff (∀ v ∈ program.stops, ∀ e ∈ v.array?, e.span.start < e.span.stop) (by
    constructor
    · intro h span elements hmem
      exact h _ hmem _ rfl
    · intro h v hv e he
      obtain ⟨span, elements, rfl, rfl⟩ := eq_of_array? he
      exact h span elements hv)

/-- What is resolved for a literal: the class around it that is innermost among those that lie in no
expression, so the innermost one of all exactly if that one lies in no expression. -/
structure Program.Gates (program : Program) (source : String) (ds : List Declaration)
    (literal : Expr) (found : Option Declaration) : Prop where
  collected : ∀ c, program.IsAround literal c →
    ((∃ d ∈ ds, program.Declares source c d) ↔ program.IsOpen c)
  none_iff : found = none ↔ ∀ c, program.IsAround literal c → ¬program.IsOpen c
  innermost : ∀ d ∈ found, ∃ c, program.Declares source c d ∧
    Innermost (fun c => program.IsAround literal c ∧ program.IsOpen c) c
  exact : (∃ c, Innermost (program.IsAround literal) c ∧ ∃ d ∈ found, program.Declares source c d) ↔
    ∃ c, Innermost (program.IsAround literal) c ∧ program.IsOpen c

section

variable {literal : Expr} (hn : program.WellNested) (hliteral : .expr literal ∈ program.stops)
  (hspan : literal.span.start < literal.span.stop)

include hn

theorem Program.IsAround.span_inside {c : Stmt} (hc : program.IsAround literal c) :
    literal.span.Inside c.span :=
  hn.span_inside hc.2.1 hc.2.2

include hspan

theorem Program.IsAround.mem_visits_iff {c : Stmt} (hc : program.IsAround literal c) :
    .stmt c ∈ program.visits entersStatements ↔ program.IsOpen c := by
  have hin := hc.span_inside hn
  unfold Span.Inside at hin
  rw [hn.mem_visits_iff (by omega), and_iff_right hc.2.1]

include hliteral in

theorem Program.Declares.isAround {c : Stmt} {d : Declaration}
    (h : program.Declares source c d) (hin : literal.span.Inside d.span) :
    program.IsAround literal c ∧ program.IsOpen c := by
  obtain ⟨hclass, hd⟩ := h.isClass
  have hvisit := h.mem_visits
  rw [hd] at hin
  have hpos : c.span.start < c.span.stop := by
    unfold Span.Inside at hin
    omega
  obtain ⟨hstop, hopen⟩ := (hn.mem_visits_iff hpos).mp hvisit
  refine ⟨⟨hclass, hstop, ?_⟩, hopen⟩
  rcases hn.leads hstop hliteral with he | (hb | ho) | (hb | ho)
  · cases he
  · exact hb
  · exact absurd (Nat.le_trans hin.2 ho) (Nat.not_le.mpr hspan)
  · exact absurd hb (hopen literal hliteral)
  · exact absurd (Nat.le_trans ho hin.1) (Nat.not_le.mpr hspan)

variable (hds : program.declarations? source = some ds)

include hds

theorem Program.IsAround.exists_declares {c : Stmt} (hc : program.IsAround literal c)
    (hopen : program.IsOpen c) : ∃ d ∈ ds, program.Declares source c d := by
  obtain ⟨d, hd⟩ := Php.exists_declares hds hc.1 ((hc.mem_visits_iff hn hspan).mpr hopen)
  exact ⟨d, (mem_declarations hds).mpr ⟨c, hd⟩, hd⟩

include hliteral

/-- Nothing is found around the literal only if all classes around it lie in expressions. -/
theorem enclosing?_eq_none_iff_isAround (h : Hierarchy) :
    (⟨h, ds⟩ : Scope).enclosing? literal.span = none ↔
      ∀ c, program.IsAround literal c → ¬program.IsOpen c := by
  rw [Scope.enclosing?_eq_none_iff]
  constructor
  · intro hall c hc hopen
    obtain ⟨d, hmem, hd⟩ := hc.exists_declares hn hspan hds hopen
    apply hall d hmem
    rw [hd.isClass.2]
    exact hc.span_inside hn
  · intro hall d hmem hin
    obtain ⟨c, hd⟩ := (mem_declarations hds).mp hmem
    obtain ⟨hc, hopen⟩ := hd.isAround hn hliteral hspan hin
    exact hall c hc hopen

theorem exists_innermost_of_enclosing? {h : Hierarchy} {d : Declaration}
    (hfound : (⟨h, ds⟩ : Scope).enclosing? literal.span = some d) :
    ∃ c, program.Declares source c d ∧
      Innermost (fun c => program.IsAround literal c ∧ program.IsOpen c) c := by
  obtain ⟨⟨hmem, hin⟩, -⟩ := Scope.shortest_of_enclosing? hfound
  obtain ⟨c, hd⟩ := (mem_declarations hds).mp hmem
  refine ⟨c, hd, hd.isAround hn hliteral hspan hin, ?_⟩
  rintro c' ⟨hc', hopen'⟩
  obtain ⟨d', hmem', hd'⟩ := hc'.exists_declares hn hspan hds hopen'
  rw [← hd.isClass.2, ← hd'.isClass.2]
  apply Scope.inside_of_enclosing? (Nat.le_of_lt hspan) _ hfound d' hmem'
  · rw [hd'.isClass.2]
    exact hc'.span_inside hn
  · intro x hx y hy hsx hsy
    exact nested_of_inside hn hds hspan hx hy hsx hsy

theorem gates_of_enclosing? (h : Hierarchy) : program.Gates source ds literal
    ((⟨h, ds⟩ : Scope).enclosing? literal.span) := by
  have hnone : (⟨h, ds⟩ : Scope).enclosing? literal.span = none ↔
      ∀ c, program.IsAround literal c → ¬program.IsOpen c :=
    enclosing?_eq_none_iff_isAround hn hliteral hspan hds h
  refine ⟨fun c hc => ⟨?_, hc.exists_declares hn hspan hds⟩, hnone, fun d hfound =>
    exists_innermost_of_enclosing? hn hliteral hspan hds hfound, ?_, ?_⟩
  · rintro ⟨d, -, hd⟩
    exact (hc.mem_visits_iff hn hspan).mp hd.mem_visits
  · rintro ⟨c, hc, d, -, hd⟩
    exact ⟨c, hc, (hc.1.mem_visits_iff hn hspan).mp hd.mem_visits⟩
  · rintro ⟨c, ⟨hc, hleast⟩, hopen⟩
    have hsome : (⟨h, ds⟩ : Scope).enclosing? literal.span ≠ none :=
      fun he => hnone.mp he c hc hopen
    obtain ⟨d, hfound⟩ := Option.ne_none_iff_exists'.mp hsome
    obtain ⟨c', hd, ⟨hc', -⟩, hleast'⟩ :=
      exists_innermost_of_enclosing? hn hliteral hspan hds hfound
    refine ⟨c', ⟨hc', fun x hx => ?_⟩, d, hfound, hd⟩
    exact (hleast' c ⟨hc, hopen⟩).trans (hleast x hx)

end

theorem span?_lower (program : Program) : List.Forall₂
    (fun literal root => program.lower.2.span? root = some literal.span)
    program.arrays program.lower.1 := by
  have hreads : List.Forall₂ (fun literal root => program.lower.2.Reads root literal.term)
      program.arrays program.lower.1 := reads_lowerExprs program.arrays
  rw [List.forall₂_iff_zip] at hreads ⊢
  refine ⟨hreads.1, fun {literal root} hmem => ?_⟩
  obtain ⟨span, elements, rfl⟩ := Rule.HelperCall.exists_eq_array (List.of_mem_zip hmem).1
  exact (hreads.2 hmem).span?_eq.trans (span_label_term _)

/-- The roots are the array literals one after another, and each is gated by the innermost class
around it that lies in no expression. -/
theorem gates_of_lower (hn : program.WellNested) (hb : program.HasBrackets) (h : Hierarchy)
    (hds : program.declarations? source = some ds) : List.Forall₂
      (fun literal root =>
        program.Gates source ds literal ((⟨h, ds⟩ : Scope).enclosing? literal.span) ∧
        program.lower.2.span? root = some literal.span)
      program.arrays program.lower.1 := by
  rw [List.forall₂_and_left]
  refine ⟨fun literal hliteral => ?_, span?_lower program⟩
  obtain ⟨span, elements, rfl, hstop⟩ := Rule.HelperCall.mem_arrays.mp hliteral
  exact gates_of_enclosing? hn hstop (hb span elements hstop) hds h

def callbackLiteral : Expr := .array ⟨58, 61⟩ [.item (.literal ⟨59, 60⟩ "1")]

def callbackClass : Stmt :=
  .classDecl ⟨20, 64⟩ "B" (some "\\F") [.method [.ret ⟨52, 62⟩ (some callbackLiteral)]]

def callbackProgram : Program :=
  [.other ⟨0, 5⟩, .expression ⟨6, 67⟩
    (.call ⟨6, 66⟩ (.name ⟨6, 8⟩ "it") [.closure ⟨9, 65⟩ [callbackClass]])]

def callbackSource : String :=
  "<?php it(function()\x7bclass B extends \\F\x7bfunction d()\x7breturn[1];\x7d\x7d\x7d);"

theorem isAround_callback : callbackProgram.IsAround callbackLiteral callbackClass := by
  have hcall : .stmt callbackClass ∈ callbackProgram.stops := by
    refine mem_stops.mpr ⟨_, List.mem_cons_of_mem _ List.mem_cons_self, Or.inr ?_⟩
    refine mem_below.mpr ⟨_, List.mem_cons_self, Or.inr ?_⟩
    refine mem_below.mpr ⟨_, List.mem_cons_of_mem _ List.mem_cons_self, Or.inr ?_⟩
    exact mem_below_of_mem_parts List.mem_cons_self
  refine ⟨trivial, hcall, mem_below.mpr ⟨_, List.mem_cons_self, Or.inr ?_⟩⟩
  exact mem_below_of_mem_parts List.mem_cons_self

theorem gates_of_lower_callback : ∃ root, callbackProgram.lower.1 = [root] ∧
    callbackProgram.lower.2.span? root = some ⟨58, 61⟩ ∧
    callbackProgram.IsAround callbackLiteral callbackClass ∧
    callbackProgram.declarations? callbackSource = some [] ∧
    callbackProgram.Gates callbackSource [] callbackLiteral none := by
  have hds : callbackProgram.declarations? callbackSource = some [] := by decide +kernel
  have hall := gates_of_lower (by decide +kernel : callbackProgram.WellNested) (by decide +kernel)
    .empty hds
  have harrays : callbackProgram.arrays = [callbackLiteral] := rfl
  rw [harrays, List.forall₂_cons_left_iff] at hall
  obtain ⟨root, roots, ⟨hgates, hspan⟩, hnil, hroots⟩ := hall
  rw [List.forall₂_nil_left_iff.mp hnil] at hroots
  exact ⟨root, hroots, hspan, isAround_callback, hds, hgates⟩

end FactoryLint.Php
