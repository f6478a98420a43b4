import FactoryLint.Text.Span

namespace FactoryLint.Php

inductive TokenKind
  | inlineText
  | openTag
  | echoTag
  | closeTag
  | variable
  /-- A name of one segment; keywords are among them. -/
  | name
  | qualifiedName
  | absoluteName
  | number
  | string
  | templateOpen
  | templateText
  | templateClose
  | heredocOpen
  | nowdocOpen
  | documentText
  | documentClose
  | holeOpen
  | cast
  | symbol
  deriving DecidableEq, Repr

structure Token where
  kind : TokenKind
  span : Span
  text : String
  deriving DecidableEq, Repr

namespace Token

def isSymbol (t : Token) (text : String) : Bool :=
  t.kind == .symbol && t.text == text

def lowered (t : Token) : String :=
  .ofList (t.text.toList.map Char.toLower)

/-- Keywords may be written in any case. -/
def isKeyword (t : Token) (word : String) : Bool :=
  t.kind == .name && t.lowered == word

end Token

end FactoryLint.Php
