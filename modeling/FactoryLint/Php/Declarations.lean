import FactoryLint.Classes.Hierarchy
import FactoryLint.Php.Naming
import FactoryLint.Php.Visit
import FactoryLint.Text.Bytes

namespace FactoryLint.Php

def textOf (source : List Char) (span : Span) : List Char :=
  (Text.slice? source span).getD []

/-- What has been found on the way through a program: how names are resolved from here on, and
the classes, the last one first. -/
structure Findings where
  naming : Naming
  declarations : List Declaration

namespace Findings

def note? (source : List Char) (f : Findings) : Visited → Option Findings
  | .stmt (.namespaceDecl span _) =>
    some { f with naming := .enterSpace (textOf source span) }
  | .stmt (.useDecl span) =>
    (f.naming.addImports? (textOf source span)).map fun naming => { f with naming }
  | .stmt (.classDecl span name parent _) =>
    let d : Declaration :=
      { name := .ofList (f.naming.qualify name.toList)
        parent := parent.map fun p => .ofList (f.naming.qualify p.toList)
        span }
    some { f with declarations := d :: f.declarations }
  | _ => some f

end Findings

def entersStatements : Visited → Bool
  | .stmt _ => true
  | .expr _ => false

/-- The classes of a program, in source order; `none` if the program stops at an import. -/
def Program.declarations? (program : Program) (source : String) : Option (List Declaration) :=
  ((program.visits entersStatements).foldlM (Findings.note? source.toList)
    ⟨.initial, []⟩).map (·.declarations.reverse)

end FactoryLint.Php
