import FactoryLint.Php.Declarations
import FactoryLint.Php.Parser.Name
import FactoryLint.Php.Token.Lexeme
import FactoryLint.Proofs.Text.Pieces

namespace FactoryLint.Php

open Text (gap lower IsTight)

structure Segment where
  text : List Char
  ne_nil : text ≠ []
  whole : Lexeme.segment text = text.length

structure QualifiedName where
  first : Segment
  rest : List Segment

namespace QualifiedName

def restText (name : QualifiedName) : List Char := name.rest.flatMap fun s => '\\' :: s.text

def text (name : QualifiedName) : List Char := name.first.text ++ name.restText

def last (name : QualifiedName) : Segment := name.rest.getLast?.getD name.first

def extend (name : QualifiedName) (more : List Segment) : QualifiedName :=
  ⟨name.first, name.rest ++ more⟩

def append (name inner : QualifiedName) : QualifiedName := name.extend (inner.first :: inner.rest)

/-- The name is not one with `namespace` in front, nor a reserved word. -/
def IsFree (name : QualifiedName) : Prop :=
  lower name.first.text ≠ "namespace".toList ∧
    (name.rest = [] → String.ofList (lower name.first.text) ∉ Parser.reserved)

instance (name : QualifiedName) : Decidable name.IsFree :=
  inferInstanceAs (Decidable (_ ∧ (_ → _)))

end QualifiedName

/-- How a class statement refers to a class. Keywords may be written in any case. -/
inductive Reference
  | absolute (name : QualifiedName)
  | relative (keyword : Segment) (isKeyword : lower keyword.text = "namespace".toList)
    (name : QualifiedName)
  | plain (name : QualifiedName) (free : name.IsFree)

def Reference.text : Reference → List Char
  | .absolute name => '\\' :: name.text
  | .relative keyword _ name => keyword.text ++ '\\' :: name.text
  | .plain name _ => name.text

structure Layout where
  apart : Bool
  beforeOpen : Bool
  afterOpen : Bool
  beforeComma : Bool
  afterComma : Bool
  beforeClose : Bool
  beforeEnd : Bool

def Layout.comma (layout : Layout) : List Char :=
  gap layout.beforeComma ++ ',' :: gap layout.afterComma

inductive NamespaceHead
  | braced (name : Option QualifiedName) (layout : Layout)
  | unbraced (name : QualifiedName) (layout : Layout)

namespace NamespaceHead

def name? : NamespaceHead → Option QualifiedName
  | .braced name _ => name
  | .unbraced name _ => some name

def afterKeyword : NamespaceHead → List Char
  | .braced none layout => gap layout.beforeOpen ++ ['\x7b']
  | .braced (some name) layout => ' ' :: name.text ++ gap layout.beforeOpen ++ ['\x7b']
  | .unbraced name layout => ' ' :: name.text ++ gap layout.beforeEnd ++ [';']

def text (head : NamespaceHead) : List Char := "namespace".toList ++ head.afterKeyword

end NamespaceHead

structure ImportName where
  leading : Bool
  name : QualifiedName
  free : leading = false → name.IsFree

def ImportName.text (n : ImportName) : List Char :=
  if n.leading then '\\' :: n.name.text else n.name.text

structure Import where
  name : ImportName
  ownAlias : Option Segment

namespace Import

def aliasText : Option Segment → List Char
  | none => []
  | some a => " as ".toList ++ a.text

def text (i : Import) : List Char := i.name.text ++ aliasText i.ownAlias

/-- Without an alias of its own, what is imported goes by the last segment of its name. -/
def knownAs (i : Import) : Segment := i.ownAlias.getD i.name.name.last

end Import

inductive ImportKind
  | classes
  | functions
  | constants
  deriving DecidableEq

def ImportKind.word : ImportKind → List Char
  | .classes => []
  | .functions => "function ".toList
  | .constants => "const ".toList

inductive ImportBody
  | list (first : Import) (more : List Import)
  | group (common : ImportName) (first : Import) (more : List Import)
    (plain : ∀ i ∈ first :: more, i.name.leading = false) (trailingComma : Bool)

namespace ImportBody

def outerText (layout : Layout) (common : ImportName) : List Char :=
  common.text ++ gap layout.apart ++ '\\' :: gap layout.beforeOpen

def innerText (layout : Layout) (items : List Import) (trailingComma : Bool) : List Char :=
  gap layout.afterOpen ++ layout.comma.intercalate (items.map Import.text) ++
    ((if trailingComma then gap layout.beforeComma ++ [','] else []) ++ gap layout.beforeClose)

def text (layout : Layout) : ImportBody → List Char
  | .list first more => layout.comma.intercalate ((first :: more).map Import.text)
  | .group common first more _ trailingComma =>
    outerText layout common ++
      '\x7b' :: (innerText layout (first :: more) trailingComma ++ ['\x7d'])

def imports : ImportBody → List (Segment × QualifiedName)
  | .list first more => (first :: more).map fun i => (i.knownAs, i.name.name)
  | .group common first more _ _ =>
    (first :: more).map fun i => (i.knownAs, common.name.append i.name.name)

end ImportBody

structure UseStatement where
  kind : ImportKind
  body : ImportBody
  layout : Layout

namespace UseStatement

def text (u : UseStatement) : List Char :=
  "use ".toList ++ u.kind.word ++ u.body.text u.layout ++ gap u.layout.beforeEnd ++ [';']

def imports (u : UseStatement) : List (Segment × QualifiedName) :=
  if u.kind = .classes then u.body.imports else []

end UseStatement

/-- What a stop of a walk through a program means for the names of classes. -/
inductive Line
  | enter (head : NamespaceHead)
  | use (u : UseStatement)
  | declare (span : Span) (name : Segment) (parent : Option Reference)
  | other

def Visited.IsSilent : Visited → Prop
  | .stmt (.namespaceDecl ..) | .stmt (.useDecl _) | .stmt (.classDecl ..) => False
  | _ => True

/-- The stop is what the line is written as. The text of a namespace goes on behind its head. -/
inductive Line.Fits (source : List Char) : Line → Visited → Prop
  | enter {head : NamespaceHead} {span : Span} {body : List Stmt}
    (h : head.text <+: textOf source span) :
    Fits source (.enter head) (.stmt (.namespaceDecl span body))
  | use {u : UseStatement} {span : Span} (h : textOf source span = u.text) :
    Fits source (.use u) (.stmt (.useDecl span))
  | declare {span : Span} {name : Segment} {parent : Option Reference} {members : List Member} :
    Fits source (.declare span name parent)
      (.stmt (.classDecl span (.ofList name.text) (parent.map fun r => .ofList r.text) members))
  | other {v : Visited} (h : v.IsSilent) : Fits source .other v

/-- The namespace that holds, and the classes imported in it so far, the last one first. -/
structure Environment where
  space : Option QualifiedName
  imports : List (Segment × QualifiedName)

namespace Environment

def initial : Environment := ⟨none, []⟩

def within (env : Environment) (name : QualifiedName) : QualifiedName :=
  match env.space with
  | some space => space.append name
  | none => name

def imported? (env : Environment) (a : Segment) : Option QualifiedName :=
  (env.imports.find? fun i => lower i.1.text = lower a.text).map Prod.snd

def resolve (env : Environment) : Reference → QualifiedName
  | .absolute name => name
  | .relative _ _ name => env.within name
  | .plain name _ =>
    match env.imported? name.first with
    | some full => full.extend name.rest
    | none => env.within name

/-- No code but another namespace may follow a namespace in braces, so a namespace holds up to the
next one. -/
def next (env : Environment) : Line → Environment
  | .enter head => ⟨head.name?, []⟩
  | .use u => { env with imports := u.imports.reverse ++ env.imports }
  | .declare .. | .other => env

def declared? (env : Environment) : Line → Option Declaration
  | .declare span name parent => some
    { name := .ofList (env.within ⟨name, []⟩).text
      parent := parent.map fun reference => .ofList (env.resolve reference).text
      span }
  | .enter _ | .use _ | .other => none

def declared (env : Environment) : List Line → List Declaration
  | [] => []
  | line :: lines => (env.declared? line).toList ++ (env.next line).declared lines

/-- A class is not declared under an alias that was imported in its namespace. -/
def Admits (env : Environment) : Line → Prop
  | .declare _ name _ => env.imported? name = none
  | .enter _ | .use _ | .other => True

def AdmitsAll (env : Environment) : List Line → Prop
  | [] => True
  | line :: lines => env.Admits line ∧ (env.next line).AdmitsAll lines

instance (env : Environment) : (line : Line) → Decidable (env.Admits line)
  | .declare _ name _ => inferInstanceAs (Decidable (env.imported? name = none))
  | .enter _ | .use _ | .other => inferInstanceAs (Decidable True)

instance decidableAdmitsAll (env : Environment) :
    (lines : List Line) → Decidable (env.AdmitsAll lines)
  | [] => inferInstanceAs (Decidable True)
  | line :: lines =>
    have := decidableAdmitsAll (env.next line) lines
    inferInstanceAs (Decidable (env.Admits line ∧ (env.next line).AdmitsAll lines))

end Environment

end FactoryLint.Php
