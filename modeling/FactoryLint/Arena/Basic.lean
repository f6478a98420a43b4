import FactoryLint.Text.Span

namespace FactoryLint

abbrev NodeId := Nat

/-- A built node took the place of what covers the span `replaces`, if that is known. -/
inductive Origin
  | source
  | built (replaces : Option Span)
  deriving DecidableEq, Repr

inductive Shape
  | arrayLiteral (items : List NodeId)
  | arrayItem (key : Option NodeId) (value : NodeId)
  | property (object : NodeId) (name : Option String)
  | methodCall (object : NodeId) (name : Option String) (arguments : List NodeId)
  | functionCall (name : Option String) (arguments : List NodeId)
  | variable (name : String)
  | interpolated (parts : List NodeId)
  | literal (text : String)
  | other (children : List NodeId)
  deriving DecidableEq, Repr

structure Node where
  shape : Shape
  span : Option Span
  origin : Origin
  deriving DecidableEq, Repr

structure Arena where
  nodes : Array Node
  deriving DecidableEq, Repr, Inhabited

namespace Shape

def children : Shape → List NodeId
  | .arrayLiteral items => items
  | .arrayItem key value => key.toList ++ [value]
  | .property object _ => [object]
  | .methodCall object _ arguments => object :: arguments
  | .functionCall _ arguments => arguments
  | .variable _ => []
  | .interpolated parts => parts
  | .literal _ => []
  | .other children => children

def replaceIn? (old new : NodeId) : List NodeId → Option (List NodeId)
  | [] => none
  | c :: cs => if c = old then some (new :: cs) else (replaceIn? old new cs).map (c :: ·)

/-- Put `new` in one slot that holds `old`, if there is one. An item's value is tried before its
key, and an object before the arguments. -/
def replaceChild? (old new : NodeId) : Shape → Option Shape
  | .arrayLiteral items => (replaceIn? old new items).map .arrayLiteral
  | .arrayItem key value =>
    if value = old then some (.arrayItem key new)
    else if key = some old then some (.arrayItem (some new) value)
    else none
  | .property object name => if object = old then some (.property new name) else none
  | .methodCall object name arguments =>
    if object = old then some (.methodCall new name arguments)
    else (replaceIn? old new arguments).map (.methodCall object name)
  | .functionCall name arguments => (replaceIn? old new arguments).map (.functionCall name)
  | .variable _ => none
  | .interpolated parts => (replaceIn? old new parts).map .interpolated
  | .literal _ => none
  | .other children => (replaceIn? old new children).map .other

end Shape

def Node.isBuilt (n : Node) : Bool :=
  match n.origin with
  | .source => false
  | .built _ => true

namespace Arena

def empty : Arena := ⟨#[]⟩

def size (a : Arena) : Nat :=
  a.nodes.size

def node? (a : Arena) (id : NodeId) : Option Node :=
  a.nodes[id]?

def shape? (a : Arena) (id : NodeId) : Option Shape :=
  (a.node? id).map (·.shape)

def span? (a : Arena) (id : NodeId) : Option Span :=
  (a.node? id).bind (·.span)

def children (a : Arena) (id : NodeId) : List NodeId :=
  ((a.shape? id).map (·.children)).getD []

def push (a : Arena) (n : Node) : NodeId × Arena :=
  (a.size, ⟨a.nodes.push n⟩)

def pushSource (a : Arena) (shape : Shape) (span : Option Span) : NodeId × Arena :=
  a.push ⟨shape, span, .source⟩

def pushBuilt (a : Arena) (shape : Shape) : NodeId × Arena :=
  a.push ⟨shape, none, .built none⟩

/-- Put `new` in one slot of `parent` that holds `old`. From then on `new` counts as built in the
place of `old`. There is no result if no slot holds `old`. -/
def replaceChild? (a : Arena) (parent old new : NodeId) : Option Arena :=
  match (a.shape? parent).bind (·.replaceChild? old new) with
  | none => none
  | some shape =>
    let nodes := a.nodes.modify parent fun n => { n with shape }
    some ⟨nodes.modify new fun n => { n with origin := .built (a.span? old) }⟩

end Arena

namespace Shape

def call (name : String) (arguments : List NodeId) : Shape :=
  .functionCall (some name) arguments

def callOn (object : NodeId) (name : String) (arguments : List NodeId) : Shape :=
  .methodCall object (some name) arguments

def member (object : NodeId) (name : String) : Shape :=
  .property object (some name)

def variableNamed (name : String) : Shape :=
  .variable (.ofList (name.toList.dropWhile (· = '$')))

end Shape

end FactoryLint
