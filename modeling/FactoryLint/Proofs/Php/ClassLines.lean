import FactoryLint.Proofs.Php.Recorded

namespace FactoryLint.Php

/-- What a program says about the names of classes, statement by statement. -/
inductive ClassLine
  | enter (space : Option (List Char))
  | use (item : List Char)
  | declare (name : String) (parent : Option String)
  deriving DecidableEq, Repr

variable (source : List Char)

def Visited.classLines : Visited → List ClassLine
  | .stmt (.namespaceDecl span _) => [.enter (Naming.enterSpace (textOf source span)).space]
  | .stmt (.useDecl span) => (Naming.classItems (textOf source span)).map .use
  | .stmt (.classDecl _ name parent _) => [.declare name parent]
  | _ => []

/-- The aliases leaked in the namespace, behind a stop. -/
def Visited.leakedAfter (left : List (List Char)) : Visited → List (List Char)
  | .stmt (.namespaceDecl ..) => []
  | .stmt (.useDecl span) => Naming.leaked (textOf source span) ++ left
  | _ => left

def Visited.Avoids (left : List (List Char)) : Visited → Prop
  | .stmt (.classDecl _ name parent _) =>
    Naming.Avoids left name.toList ∧ ∀ p ∈ parent, Naming.Avoids left p.toList
  | _ => True

def AvoidLeaks : List (List Char) → List Visited → Prop
  | _, [] => True
  | left, v :: vs => v.Avoids left ∧ AvoidLeaks (v.leakedAfter source left) vs

instance (left : List (List Char)) : (v : Visited) → Decidable (v.Avoids left)
  | .stmt (.classDecl _ name parent _) => inferInstanceAs
    (Decidable (Naming.Avoids left name.toList ∧ ∀ p ∈ parent, Naming.Avoids left p.toList))
  | .stmt (.expression ..) | .stmt (.block ..) | .stmt (.ret ..) | .stmt (.control ..)
  | .stmt (.namespaceDecl ..) | .stmt (.useDecl _) | .stmt (.other _)
  | .expr _ => inferInstanceAs (Decidable True)

instance decidableAvoidLeaks : (left : List (List Char)) → (vs : List Visited) →
    Decidable (AvoidLeaks source left vs)
  | _, [] => inferInstanceAs (Decidable True)
  | left, v :: vs =>
    have := decidableAvoidLeaks (v.leakedAfter source left) vs
    inferInstanceAs (Decidable (v.Avoids left ∧ AvoidLeaks source (v.leakedAfter source left) vs))

namespace Naming

/-- The names of the classes and of their parents, by what is said about classes only. -/
def resolve (n : Naming) : List ClassLine → List (String × Option String)
  | [] => []
  | .enter space :: lines => resolve ⟨space, []⟩ lines
  | .use item :: lines => (n.addImport item).resolve lines
  | .declare name parent :: lines =>
    (.ofList (n.qualify name.toList), parent.map fun p => .ofList (n.qualify p.toList)) ::
      n.resolve lines

theorem resolve_use (n : Naming) (items : List (List Char)) (lines : List ClassLine) :
    n.resolve (items.map .use ++ lines) = (items.foldl addImport n).resolve lines := by
  induction items generalizing n with
  | nil => rfl
  | cons item items ih => exact ih (n.addImport item)

variable {source} {left : List (List Char)} {n m : Naming}

theorem collect?_eq_resolve {vs : List Visited} {ds : List Declaration} (h : Agree left n m)
    (havoid : AvoidLeaks source left vs) (hfound : n.collect? source vs = some ds) :
    ds.map (fun d => (d.name, d.parent)) =
      m.resolve (vs.flatMap (Visited.classLines source)) := by
  induction vs generalizing left n m ds with
  | nil =>
    obtain rfl := Option.some.inj hfound
    rfl
  | cons v vs ih =>
    obtain ⟨hv, hvs⟩ := havoid
    obtain ⟨next, rest, hnext, hrest, rfl⟩ := collect?_cons_eq_some.mp hfound
    rw [List.flatMap_cons]
    cases v with
    | expr e =>
      obtain rfl := Option.some.inj hnext
      exact ih h hvs hrest
    | stmt s =>
      cases s with
      | namespaceDecl span body =>
        obtain rfl := Option.some.inj hnext
        exact ih (.refl [] (.enterSpace (textOf source span))) hvs hrest
      | useDecl span =>
        have hsub : leaked (textOf source span) ⊆ leaked (textOf source span) ++ left :=
          List.subset_append_left _ _
        have hadd : n.addImports? (textOf source span) = some next := hnext
        have hnone : n.declared? (.stmt (.useDecl span)) = none := rfl
        have hagree := (h.weaken (List.subset_append_right _ left)).addImports? hadd hsub
        rw [hnone, Option.toList_none, List.nil_append, Visited.classLines, resolve_use]
        exact ih hagree hvs hrest
      | classDecl span name parent members =>
        obtain rfl := Option.some.inj hnext
        have hparent : (parent.map fun p => String.ofList (n.qualify p.toList)) =
            parent.map fun p => .ofList (m.qualify p.toList) :=
          Option.map_congr fun p hp => congrArg String.ofList (h.qualify (hv.2 p hp))
        have hclass : (String.ofList (n.qualify name.toList),
            parent.map fun p => String.ofList (n.qualify p.toList)) =
            (.ofList (m.qualify name.toList), parent.map fun p => .ofList (m.qualify p.toList)) := by
          rw [h.qualify hv.1, hparent]
        exact congrArg₂ List.cons hclass (ih h hvs hrest)
      | expression | block | ret | control | other =>
        obtain rfl := Option.some.inj hnext
        exact ih h hvs hrest

end Naming

namespace Program

def classLines (program : Program) (source : String) : List ClassLine :=
  (program.visits entersStatements).flatMap (Visited.classLines source.toList)

def AvoidsLeaks (program : Program) (source : String) : Prop :=
  AvoidLeaks source.toList [] (program.visits entersStatements)

instance (program : Program) (source : String) : Decidable (program.AvoidsLeaks source) :=
  inferInstanceAs (Decidable (AvoidLeaks _ _ _))

def classNames? (program : Program) (source : String) : Option (List (String × Option String)) :=
  (program.declarations? source).map fun ds => ds.map fun d => (d.name, d.parent)

theorem classNames?_eq_resolve {program : Program} {source : String}
    (hlegible : program.IsLegible source) (h : program.AvoidsLeaks source) :
    program.classNames? source = some (Naming.initial.resolve (program.classLines source)) := by
  obtain ⟨ds, hds⟩ := Option.isSome_iff_exists.mp (isSome_declarations?_iff.mpr hlegible)
  rw [classNames?, hds, Option.map_some]
  rw [declarations?_eq] at hds
  exact congrArg some (Naming.collect?_eq_resolve (.refl [] .initial) h hds)

/-- Programs that differ in their imports of functions and constants only have the same classes with
the same parents, unless a class goes by an alias that is leaked or the braces of an import are
crossed, where the program stops. -/
theorem classNames?_eq {program program' : Program} {source source' : String}
    (hlines : program.classLines source = program'.classLines source')
    (hlegible : program.IsLegible source) (hlegible' : program'.IsLegible source')
    (h : program.AvoidsLeaks source) (h' : program'.AvoidsLeaks source') :
    ∃ names, program.classNames? source = some names ∧
      program'.classNames? source' = some names := by
  refine ⟨_, classNames?_eq_resolve hlegible h, ?_⟩
  rw [classNames?_eq_resolve hlegible' h', hlines]

def leakingSource : String :=
  "<?php namespace A;use L\\\x7bF,function g as H,const k\x7d;use function p\\q;" ++
    "class B extends F \x7b\x7dclass C extends q\\D \x7b\x7d"

def leakingProgram : Program :=
  [.other ⟨0, 5⟩,
    .namespaceDecl ⟨6, 111⟩ [.useDecl ⟨18, 52⟩, .useDecl ⟨52, 69⟩,
      .classDecl ⟨69, 89⟩ "B" (some "F") [], .classDecl ⟨89, 111⟩ "C" (some "q\\D") []]]

def otherSource : String :=
  "<?php namespace A;use L\\\x7bfunction x\\y,F\x7d;" ++
    "class B extends F \x7b\x7dclass C extends q\\D \x7b\x7d"

def otherProgram : Program :=
  [.other ⟨0, 5⟩,
    .namespaceDecl ⟨6, 83⟩ [.useDecl ⟨18, 41⟩,
      .classDecl ⟨41, 61⟩ "B" (some "F") [], .classDecl ⟨61, 83⟩ "C" (some "q\\D") []]]

theorem classNames?_eq_leaking : ∃ names, leakingProgram.classNames? leakingSource = some names ∧
    otherProgram.classNames? otherSource = some names := by
  have hlines : leakingProgram.classLines leakingSource = [.enter (some ['A']),
      .use ['L', '\\', 'F'], .declare "B" (some "F"), .declare "C" (some "q\\D")] := by
    decide +kernel
  have hlines' : otherProgram.classLines otherSource = [.enter (some ['A']),
      .use ['L', '\\', 'F'], .declare "B" (some "F"), .declare "C" (some "q\\D")] := by
    decide +kernel
  have havoids : leakingProgram.AvoidsLeaks leakingSource := by decide +kernel
  have havoids' : otherProgram.AvoidsLeaks otherSource := by decide +kernel
  exact classNames?_eq (hlines.trans hlines'.symm) (by decide +kernel) (by decide +kernel) havoids
    havoids'

end Program

end FactoryLint.Php
