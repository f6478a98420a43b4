import FactoryLint.Arena.Basic

namespace FactoryLint.Arena

inductive Descent
  | enter
  | skip
  deriving DecidableEq, Repr

abbrev Step (σ : Type) := NodeId → Arena → σ → Descent × Arena × σ

variable {σ : Type}

/-- Treat nodes one after another, as long as there is a result. -/
def each (treat : NodeId → Arena → σ → Option (Arena × σ)) :
    List NodeId → Arena → σ → Option (Arena × σ)
  | [], a, s => some (a, s)
  | id :: ids, a, s =>
    match treat id a s with
    | none => none
    | some (a, s) => each treat ids a s

/-- Walk `id` and all below it, parents before children and siblings in order, to a depth of at
most `depth` nodes. -/
def preorder (step : Step σ) : Nat → NodeId → Arena → σ → Option (Arena × σ)
  | 0, _, _, _ => none
  | depth + 1, id, a, s =>
    match step id a s with
    | (.skip, a, s) => some (a, s)
    | (.enter, a, s) => each (preorder step depth) (a.children id) a s

/-- The same walk of several nodes, with those still to come on a stack, in at most `bound`
steps. -/
def runStack (step : Step σ) : Nat → List NodeId → Arena → σ → Option (Arena × σ)
  | _, [], a, s => some (a, s)
  | 0, _ :: _, _, _ => none
  | bound + 1, id :: stack, a, s =>
    match step id a s with
    | (.skip, a, s) => runStack step bound stack a s
    | (.enter, a, s) => runStack step bound (a.children id ++ stack) a s

def walk (step : Step σ) (depth : Nat) (ids : List NodeId) (a : Arena) (s : σ) :
    Option (Arena × σ) :=
  each (preorder step depth) ids a s

end FactoryLint.Arena
