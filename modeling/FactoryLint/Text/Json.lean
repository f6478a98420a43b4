namespace FactoryLint.Text

inductive Json
  | string (text : String)
  | number (n : Nat)
  | array (items : List Json)
  | object (fields : List (String × Json))

namespace Json

def written (c : Char) : List Char :=
  match c with
  | '"' => ['\\', '"']
  | '\\' => ['\\', '\\']
  | '\n' => ['\\', 'n']
  | '\r' => ['\\', 'r']
  | '\t' => ['\\', 't']
  | '\x08' => ['\\', 'b']
  | '\x0c' => ['\\', 'f']
  | c =>
    let n := c.toNat
    if n < 32 then ['\\', 'u', '0', '0', Nat.digitChar (n / 16), Nat.digitChar (n % 16)] else [c]

def quoted (text : String) : String :=
  .ofList ('"' :: text.toList.flatMap written ++ ['"'])

def bracketed (indent : Nat) (opening closing : String) (items : List String) : String :=
  let line := "\n" ++ .ofList (List.replicate (2 * indent) ' ')
  if items.isEmpty then opening ++ closing
  else opening ++ line ++ "  " ++ (("," ++ line ++ "  ").intercalate items) ++ line ++ closing

mutual

def render (indent : Nat) : Json → String
  | .string text => quoted text
  | .number n => toString n
  | .array items => bracketed indent "[" "]" (renderItems (indent + 1) items)
  | .object fields => bracketed indent "\x7b" "\x7d" (renderFields (indent + 1) fields)

def renderItems (indent : Nat) : List Json → List String
  | [] => []
  | item :: items => render indent item :: renderItems indent items

def renderFields (indent : Nat) : List (String × Json) → List String
  | [] => []
  | (name, value) :: fields =>
    (quoted name ++ ": " ++ render indent value) :: renderFields indent fields

end

end Json

end FactoryLint.Text
