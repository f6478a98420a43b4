namespace FactoryLint.Diff

inductive Change (α : Type)
  | kept (x : α)
  | removed (x : α)
  | added (x : α)
  deriving DecidableEq, Repr

namespace Change

variable {α : Type}

def old? : Change α → Option α
  | .kept x | .removed x => some x
  | .added _ => none

def new? : Change α → Option α
  | .kept x | .added x => some x
  | .removed _ => none

end Change

variable {α : Type} [DecidableEq α]

/-- A row of the table of common lengths, from the row above it: for each number of elements of
`ys`, the most elements in order that they have in common with the elements up to `x`. The first
two arguments are the entry above to the left and the entry to the left. -/
def nextRow (x : α) : Nat → Nat → List Nat → List α → List Nat
  | diagonal, left, above :: row, y :: ys =>
    let here := if x = y then diagonal + 1 else max left above
    here :: nextRow x above here row ys
  | _, _, _, _ => []

def commonLengths (xs ys : List α) : Array (Array Nat) :=
  let start := List.replicate (ys.length + 1) 0
  let rows := xs.foldl (fun (rows, row) x =>
    let row := 0 :: nextRow x 0 0 row.tail ys
    (row :: rows, row)) ([start], start)
  (rows.1.reverse.map List.toArray).toArray

def entry (table : Array (Array Nat)) (i j : Nat) : Nat :=
  ((table[i]?.bind (·[j]?)).getD 0)

/-- The changes from the last `i` elements and the last `j` elements of two lists, which are given
from their ends. What is added is written after what is removed. -/
def traceBack (table : Array (Array Nat)) (changes : List (Change α)) :
    List α → List α → List (Change α)
  | [], [] => changes
  | [], y :: ys => traceBack table (.added y :: changes) [] ys
  | x :: xs, [] => traceBack table (.removed x :: changes) xs []
  | x :: xs, y :: ys =>
    let i := xs.length + 1
    let j := ys.length + 1
    if entry table i j = entry table i (j - 1) then
      traceBack table (.added y :: changes) (x :: xs) ys
    else if entry table i j = entry table (i - 1) j then
      traceBack table (.removed x :: changes) xs (y :: ys)
    else traceBack table (.kept x :: changes) xs ys
  termination_by xs ys => xs.length + ys.length

def commonStart : List α → List α → List α
  | x :: xs, y :: ys => if x = y then x :: commonStart xs ys else []
  | _, _ => []

def align (old new : List α) : List (Change α) :=
  let before := commonStart old new
  let xs := (old.drop before.length).reverse
  let ys := (new.drop before.length).reverse
  let after := commonStart xs ys
  let xs := xs.drop after.length
  let ys := ys.drop after.length
  let table := commonLengths xs.reverse ys.reverse
  before.map .kept ++ traceBack table [] xs ys ++ after.reverse.map .kept

end FactoryLint.Diff
