import FactoryLint.Arena.Basic
import FactoryLint.Edit.Basic

namespace FactoryLint.Rewrite

/-- Splice edits into the text of a node that covers `span`. They are given back to front; those
that reach beyond the span are left out. -/
def spliceWithin (span : Span) (text : List Char) : List Edit → Except EditError (List Char)
  | [] => .ok text
  | e :: es =>
    if e.span.start ≤ e.span.stop ∧ e.span.Inside span then
      let inner : Span := ⟨e.span.start - span.start, e.span.stop - span.start⟩
      match Text.replace? text inner e.replacement.toList with
      | some text => spliceWithin span text es
      | none => .error (.offBoundary e.span)
    else spliceWithin span text es

def spliced (span : Span) (covered : List Char) (edits : List Edit) : Except EditError String :=
  let backToFront := edits.mergeSort fun a b => b.span.start ≤ a.span.start
  (spliceWithin span covered backToFront).map String.ofList

def written : Shape → List String → String
  | .functionCall name _, arguments => name.getD "" ++ "(" ++ ", ".intercalate arguments ++ ")"
  | .methodCall _ name _, object :: arguments =>
    object ++ "->" ++ name.getD "" ++ "(" ++ ", ".intercalate arguments ++ ")"
  | .property _ name, object :: _ => object ++ "->" ++ name.getD ""
  | .variable name, _ => "$" ++ name
  | .literal text, _ => text
  | .arrayLiteral _, items => "[" ++ ", ".intercalate items ++ "]"
  | .arrayItem _ _, [key, value] => key ++ " => " ++ value
  | _, parts => String.join parts

mutual

/-- The edits for the nodes at and below `id` that were built in place of a part of the source.
What lies below such a node goes into its text. The first argument bounds the depth. -/
def editsAt (a : Arena) (source message : String) : Nat → NodeId → Except EditError (List Edit)
  | 0, _ => .ok []
  | depth + 1, id =>
    match a.node? id with
    | some ⟨_, _, .built (some span)⟩ =>
      (textAt a source depth id).map fun text => [⟨span, text, message⟩]
    | _ => ((a.children id).mapM (editsAt a source message depth)).map List.flatten

/-- The text of a node. A node of the source is copied from there, with the edits below it; these
are looked for if its span is one of the source. -/
def textAt (a : Arena) (source : String) : Nat → NodeId → Except EditError String
  | 0, _ => .ok ""
  | depth + 1, id =>
    match a.node? id with
    | none => .ok ""
    | some ⟨shape, some span, .source⟩ =>
      match Text.slice? source.toList span with
      | none => .ok ""
      | some covered => do
        let nested ← shape.children.mapM (editsAt a source "" depth)
        spliced span covered nested.flatten
    | some ⟨shape, _, _⟩ => (shape.children.mapM (textAt a source depth)).map (written shape)

end

/-- A path without a cycle visits a node once, and may pause there to write it. -/
def depthBound (a : Arena) : Nat :=
  2 * a.size + 2

def edits (a : Arena) (root : NodeId) (source message : String) :
    Except EditError (List Edit) :=
  editsAt a source message (depthBound a) root

def text (a : Arena) (id : NodeId) (source : String) : Except EditError String :=
  textAt a source (depthBound a) id

end FactoryLint.Rewrite
