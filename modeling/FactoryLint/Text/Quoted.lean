import FactoryLint.Text.Unprintable

namespace FactoryLint.Text.Quoted

def written (c : Char) : List Char :=
  match c with
  | '\x00' => ['\\', '0']
  | '\t' => ['\\', 't']
  | '\n' => ['\\', 'n']
  | '\r' => ['\\', 'r']
  | '"' => ['\\', '"']
  | '\\' => ['\\', '\\']
  | c =>
    if isUnprintable c then ['\\', 'u', '\x7b'] ++ Nat.toDigits 16 c.toNat ++ ['\x7d'] else [c]

/-- The text between double quotes, with escapes for what cannot be shown. -/
def encode (text : String) : String :=
  .ofList ('"' :: text.toList.flatMap written ++ ['"'])

end FactoryLint.Text.Quoted
