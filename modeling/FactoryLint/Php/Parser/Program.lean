import FactoryLint.Php.Parser.Stmt
import FactoryLint.Php.Token.Scan

namespace FactoryLint.Php

/-- Parsers for at most `depth` levels of nesting. -/
def Nested.upTo : Nat → Nested
  | 0 => ⟨fun _ => failure, failure⟩
  | depth + 1 =>
    ⟨fun power ts => Parser.expr (upTo depth) power ts, fun ts => Parser.stmt (upTo depth) ts⟩

/-- Parse all tokens as statements. A level of nesting takes a token, and a statement may begin
with an expression of its own level, so the depth suffices. -/
def Program.ofTokens? (tokens : List Token) : Option Program :=
  let p := Parser.many (fun ts => !ts.isEmpty) (Nested.upTo (2 * tokens.length + 2)).stmt
  (p.run tokens).bind fun (program, rest) => if rest.isEmpty then some program else none

def Program.parse? (source : String) : Option Program :=
  (Token.scan? source).bind ofTokens?

end FactoryLint.Php
