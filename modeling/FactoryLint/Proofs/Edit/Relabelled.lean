import FactoryLint.Edit.Apply
import Mathlib.Data.List.Basic

namespace FactoryLint.Edit

def relabel (message : String) (e : Edit) : Edit := { e with message }

@[simp] theorem relabel_span (message : String) (e : Edit) :
    (e.relabel message).span = e.span := rfl

@[simp] theorem relabel_replacement (message : String) (e : Edit) :
    (e.relabel message).replacement = e.replacement := rfl

variable (message : String) (es : List Edit)

theorem backToFront_map_relabel :
    backToFront (es.map (relabel message)) = (backToFront es).map (relabel message) := by
  rw [backToFront, backToFront]
  exact (List.map_mergeSort (f := relabel message) fun _ _ _ _ => rfl).symm

theorem firstFault_map_relabel (length : Nat) (next : Option Nat) :
    firstFault length next (es.map (relabel message)) = firstFault length next es := by
  induction es generalizing next with
  | nil => rfl
  | cons e es ih =>
    rw [List.map_cons, firstFault, firstFault, ih]
    rfl

theorem spliceAll_map_relabel (cs : List Char) :
    spliceAll cs (es.map (relabel message)) = spliceAll cs es := by
  induction es generalizing cs with
  | nil => rfl
  | cons e es ih =>
    rw [List.map_cons, spliceAll, spliceAll, relabel_span, relabel_replacement]
    cases Text.replace? cs e.span e.replacement.toList with
    | none => rfl
    | some cs' => exact ih cs'

theorem apply_map_relabel (source : String) :
    apply source (es.map (relabel message)) = apply source es := by
  simp only [apply, backToFront_map_relabel, firstFault_map_relabel, spliceAll_map_relabel]

end FactoryLint.Edit
