import FactoryLint.Report.Basic
import Mathlib.Data.List.Basic

namespace FactoryLint

namespace Printed

def append (p q : Printed) : Printed :=
  ⟨p.output ++ q.output, p.warnings ++ q.warnings⟩

def all (ps : List Printed) : Printed :=
  ps.foldr append nothing

def ofLines (lines : List String) : Printed :=
  ⟨String.join (lines.map (· ++ "\n")), []⟩

@[simp] theorem append_nothing (p : Printed) : p.append nothing = p := by
  simp only [append, nothing, String.append_empty, List.append_nil]

theorem append_assoc (p q r : Printed) : (p.append q).append r = p.append (q.append r) := by
  simp only [append, String.append_assoc, List.append_assoc]

theorem print_eq (p : Printed) (text : String) : p.print text = p.append ⟨text, []⟩ := by
  simp only [print, append, List.append_nil]

theorem warn_eq (p : Printed) (text : String) : p.warn text = p.append ⟨"", [text]⟩ := by
  simp only [warn, append, String.append_empty]

theorem foldl_printLine (p : Printed) (lines : List String) :
    lines.foldl printLine p = p.append (ofLines lines) := by
  induction lines generalizing p with
  | nil => exact (append_nothing p).symm
  | cons line lines ih =>
    rw [List.foldl_cons, ih, printLine, print_eq, append_assoc]
    simp only [ofLines, append, List.map_cons, String.join_cons, List.append_nil]

theorem foldl_warn (p : Printed) (warnings : List String) :
    warnings.foldl warn p = p.append ⟨"", warnings⟩ := by
  induction warnings generalizing p with
  | nil => exact (append_nothing p).symm
  | cons warning warnings ih =>
    rw [List.foldl_cons, ih, warn_eq, append_assoc]
    rfl

end Printed

def Summary.add (s t : Summary) : Summary where
  filesProcessed := s.filesProcessed + t.filesProcessed
  filesWithChanges := s.filesWithChanges + t.filesWithChanges
  totalEdits := s.totalEdits + t.totalEdits
  errors := s.errors + t.errors
  classesIndexed := s.classesIndexed + t.classesIndexed

theorem Report.printLines_eq (r : Report) (lines : List String) : r.printLines lines =
    { r with printed := r.printed.append (if r.form = .text then .ofLines lines else .nothing) } := by
  rw [printLines]
  split_ifs
  · rw [Printed.foldl_printLine]
  · rw [Printed.append_nothing]

end FactoryLint
