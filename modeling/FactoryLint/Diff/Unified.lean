import FactoryLint.Diff.Alignment
import FactoryLint.Text.Lines

namespace FactoryLint.Diff

abbrev Line := List Char

inductive Run
  | kept (lines : List Line)
  | changed (removed added : List Line)

def runs : List (Change Line) → List Run
  | [] => []
  | .kept x :: cs =>
    match runs cs with
    | .kept xs :: rest => .kept (x :: xs) :: rest
    | rest => .kept [x] :: rest
  | .removed x :: cs =>
    match runs cs with
    | .changed xs ys :: rest => .changed (x :: xs) ys :: rest
    | rest => .changed [x] [] :: rest
  | .added y :: cs =>
    match runs cs with
    | .changed xs ys :: rest => .changed xs (y :: ys) :: rest
    | rest => .changed [] [y] :: rest

/-- Runs that are shown together, and how many lines of both texts stand before them. -/
structure Hunk where
  oldStart : Nat
  newStart : Nat
  runs : List Run

namespace Run

def oldCount : Run → Nat
  | .kept lines => lines.length
  | .changed removed _ => removed.length

def newCount : Run → Nat
  | .kept lines => lines.length
  | .changed _ added => added.length

end Run

/-- A diff shows this many lines before and after a change. -/
def context : Nat := 3

/-- Cut runs into hunks: between two changes of a hunk there are at most twice as many lines as
are shown after one. The first runs belong to the hunk `current`, whose runs are in reverse, and
the numbers say how many lines stand before them. -/
def hunksFrom (current : Hunk) : Nat → Nat → List Run → List Hunk
  | _, _, [] => [{ current with runs := current.runs.reverse }]
  | _, _, [.kept lines] =>
    [{ current with runs := (.kept (lines.take context) :: current.runs).reverse }]
  | old, new, .kept lines :: rest =>
    let count := lines.length
    if 2 * context < count then
      let hidden := count - context
      let next : Hunk := ⟨old + hidden, new + hidden, [.kept (lines.drop hidden)]⟩
      { current with runs := (.kept (lines.take context) :: current.runs).reverse } ::
        hunksFrom next (old + count) (new + count) rest
    else
      hunksFrom { current with runs := .kept lines :: current.runs } (old + count) (new + count)
        rest
  | old, new, run :: rest =>
    hunksFrom { current with runs := run :: current.runs } (old + run.oldCount)
      (new + run.newCount) rest

def hunks : List Run → List Hunk
  | [] => []
  | [.kept _] => []
  | .kept lines :: rest =>
    let hidden := lines.length - context
    hunksFrom ⟨hidden, hidden, [.kept (lines.drop hidden)]⟩ lines.length lines.length rest
  | rest => hunksFrom ⟨0, 0, []⟩ 0 0 rest

def range (start count : Nat) : String :=
  if count = 1 then toString (start + 1)
  else toString (if count = 0 then start else start + 1) ++ "," ++ toString count

def marked (mark : Char) (line : Line) : List Char :=
  let missing := match line.getLast? with
    | some c => c != '\n' && c != '\r'
    | none => true
  mark :: line ++ (if missing then "\n\\ No newline at end of file\n".toList else [])

def Run.text : Run → List Char
  | .kept lines => lines.flatMap (marked ' ')
  | .changed removed added => removed.flatMap (marked '-') ++ added.flatMap (marked '+')

def Hunk.text (h : Hunk) : List Char :=
  let old := range h.oldStart (h.runs.foldl (fun n r => n + r.oldCount) 0)
  let new := range h.newStart (h.runs.foldl (fun n r => n + r.newCount) 0)
  ("@@ -" ++ old ++ " +" ++ new ++ " @@\n").toList ++ h.runs.flatMap Run.text

def unified (path old new : String) : String :=
  let hunks := hunks (runs (align (Text.endedLines old.toList) (Text.endedLines new.toList)))
  if hunks.isEmpty then ""
  else "--- a/" ++ path ++ "\n+++ b/" ++ path ++ "\n" ++ .ofList (hunks.flatMap Hunk.text)

end FactoryLint.Diff
