import FactoryLint.Text.Split

namespace FactoryLint.Php

/-- The namespace that holds, and the imports made in it: the full names of classes under their
aliases, whose ASCII letters are in lower case. Later imports come first. -/
structure Naming where
  space : Option (List Char)
  imports : List (List Char × List Char)
  deriving DecidableEq, Repr

namespace Naming

def initial : Naming := ⟨none, []⟩

def inSpace (n : Naming) (name : List Char) : List Char :=
  match n.space with
  | some space => space ++ '\\' :: name
  | none => name

/-- The full name that a written name stands for. A leading backslash makes it absolute and
`namespace` relative to the namespace; otherwise its first segment may be an alias. -/
def qualify (n : Naming) (name : List Char) : List Char :=
  let name := Text.trim name
  match Text.after? ['\\'] name with
  | some absolute => absolute
  | none =>
    match Text.after? "namespace\\".toList name with
    | some relative => n.inSpace relative
    | none =>
      let first := name.takeWhile (· ≠ '\\')
      match n.imports.lookup (Text.lower first) with
      | some full => full ++ name.drop first.length
      | none => n.inSpace name

/-- Enter the namespace of a statement. Its name is what stands between the keyword and the first
brace or semicolon. -/
def enterSpace (text : List Char) : Naming :=
  let rest := Text.dropWord "namespace" (Text.trimLeft text)
  let name := Text.trim (rest.takeWhile fun c => c ≠ '\x7b' && c ≠ ';')
  ⟨if name.isEmpty then none else some name, []⟩

/-- The name and the alias of an imported class. Without an alias of its own, the last segment of
the name is its alias. -/
def importParts (item : List Char) : List Char × List Char :=
  match Text.breakAt? " as ".toList (Text.lower item) with
  | some (before, _) =>
    (Text.trim (item.take before.length), Text.trim (item.drop (before.length + 4)))
  | none =>
    let name := Text.trim item
    (name, Text.afterLast '\\' name)

def addImport (n : Naming) (item : List Char) : Naming :=
  let (name, as) := importParts item
  if name.isEmpty || as.isEmpty then n
  else { n with imports := (Text.lower as, name.dropWhile (· = '\\')) :: n.imports }

def groupPrefix (common : List Char) : List Char :=
  let common := Text.dropRight '\\' common
  if common.isEmpty then [] else common ++ ['\\']

/-- What stands before all imports of a group, and the imports as they are written. The program
stops if the last closing brace stands before the first opening one. -/
def importPieces? (body : List Char) : Option (List Char × List (List Char)) :=
  match Text.breakAt? ['\x7b'] body, Text.beforeLast? '\x7d' body with
  | some (before, inner), some upToLast =>
    if upToLast.length < before.length then none
    else
      let inner := inner.take (upToLast.length - (before.length + 1))
      some (groupPrefix (Text.trim before),
        ((Text.splitAt ',' inner).map Text.trim).filter (!·.isEmpty))
  | _, _ => some ([], (Text.splitAt ',' body).map Text.trim)

def importItems? (body : List Char) : Option (List (List Char)) :=
  (importPieces? body).map fun (common, pieces) => pieces.map (common ++ ·)

def importsNoClasses (body : List Char) : Bool :=
  (Text.after? "function ".toList (Text.lower body)).isSome ||
    (Text.after? "const ".toList (Text.lower body)).isSome

def importBody (text : List Char) : List Char :=
  Text.trim (Text.dropRight ';' (Text.trim (Text.dropWord "use" (Text.trim text))))

def addImports? (n : Naming) (text : List Char) : Option Naming :=
  let body := importBody text
  if importsNoClasses body then some n else (importItems? body).map (·.foldl addImport n)

end Naming

end FactoryLint.Php
