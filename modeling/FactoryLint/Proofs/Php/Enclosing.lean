import FactoryLint.Proofs.Classes.Enclosing
import FactoryLint.Proofs.Php.Declared

namespace FactoryLint.Php

/-- Where the declarations around a span are nested, the one that is resolved for the span is the
innermost, and it is missing only if there is none around it. In a well nested program they are
nested around every span that takes any room. -/
theorem enclosing?_innermost :
    (∀ (s : Scope) (span : Span), span.start ≤ span.stop →
      Declaration.NestedAround s.declarations span → s.FindsInnermost span) ∧
    ∀ (program : Program) (source : String) (ds : List Declaration), program.WellNested →
      program.declarations? source = some ds →
        ∀ span : Span, span.start < span.stop → Declaration.NestedAround ds span :=
  ⟨fun _ _ hspan hnested => Scope.findsInnermost_of_nested hspan hnested,
    fun _ _ _ hn h _ hspan _ hd _ hd' hs hs' => nested_of_inside hn h hspan hd hd' hs hs'⟩

def innerProgram : Program :=
  [.other ⟨0, 5⟩, .classDecl ⟨6, 72⟩ "A" none [.method [.classDecl ⟨27, 70⟩ "B" (some "A")
    [.method [.ret ⟨58, 68⟩ (some (.array ⟨64, 67⟩ [.item (.literal ⟨65, 66⟩ "1")]))]]]]]

def innerSource : String :=
  "<?php class A\x7bfunction f()\x7bclass B extends A\x7bfunction g()\x7breturn[1];\x7d\x7d\x7d\x7d"

theorem enclosing?_innermost_inner : ∃ ds, innerProgram.declarations? innerSource = some ds ∧
    (⟨.empty, ds⟩ : Scope).enclosing? ⟨64, 67⟩ = some ⟨"B", some "A", ⟨27, 70⟩⟩ ∧
    (⟨.empty, ds⟩ : Scope).FindsInnermost ⟨64, 67⟩ := by
  have hn : innerProgram.WellNested := by decide +kernel
  have hdeclarations : innerProgram.declarations? innerSource =
      some [⟨"A", none, ⟨6, 72⟩⟩, ⟨"B", some "A", ⟨27, 70⟩⟩] := by
    decide +kernel
  refine ⟨_, hdeclarations, by decide +kernel, enclosing?_innermost.1 _ _ (by decide) ?_⟩
  exact enclosing?_innermost.2 innerProgram innerSource _ hn hdeclarations _ (by decide)

end FactoryLint.Php
