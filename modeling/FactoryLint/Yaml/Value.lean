namespace FactoryLint

inductive Yaml
  | scalar (text : String) (isPlain : Bool)
  | list (items : List Yaml)
  | mapping (entries : List (Yaml × Yaml))

namespace Yaml

def absent : Yaml :=
  .scalar "" true

/-- The text of a scalar. Scalars that look like numbers or truth values are texts as well. -/
def text? : Yaml → Option String
  | .scalar text _ => some text
  | _ => none

def items? : Yaml → Option (List Yaml)
  | .list items => some items
  | .scalar "" true => some []
  | _ => none

def entries? : Yaml → Option (List (Yaml × Yaml))
  | .mapping entries => some entries
  | .scalar "" true => some []
  | _ => none

end Yaml

end FactoryLint
