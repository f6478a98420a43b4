import Mathlib.Data.List.Basic

namespace FactoryLint

variable {α β ε : Type} {l : List α}

section

variable {m : Type → Type} [Monad m] [LawfulMonad m]

theorem mapM_congr {f g : α → m β} (h : ∀ x ∈ l, f x = g x) : l.mapM f = l.mapM g := by
  induction l with
  | nil => rw [List.mapM_nil, List.mapM_nil]
  | cons x l ih =>
    rw [List.mapM_cons, List.mapM_cons, h x List.mem_cons_self,
      ih fun y hy => h y (List.mem_cons_of_mem _ hy)]

theorem mapM_eq_pure {f : α → m β} {g : α → β} (h : ∀ x ∈ l, f x = pure (g x)) :
    l.mapM f = pure (l.map g) :=
  (mapM_congr h).trans List.mapM_pure

end

theorem isSome_mapM_iff {f : α → Option β} : (l.mapM f).isSome ↔ ∀ x ∈ l, (f x).isSome := by
  induction l with
  | nil => simp
  | cons x l ih =>
    rw [List.mapM_cons, List.forall_mem_cons, ← ih]
    cases f x with
    | none => simp
    | some y => cases l.mapM f <;> simp

theorem exists_mapM {f : α → Option (Except ε β)} {g : α → Except ε β}
    (h : ∀ x ∈ l, f x = some (g x)) :
    ∃ found, l.mapM f = some found ∧ found.mapM id = l.mapM g :=
  ⟨l.map g, mapM_eq_pure h, List.mapM_map⟩

theorem exists_of_mapM_eq_ok {f : α → Except ε β} {ys : List β} (h : l.mapM f = .ok ys) :
    ∀ x ∈ l, ∃ y, f x = .ok y := by
  induction l generalizing ys with
  | nil => simp
  | cons x l ih =>
    rw [List.mapM_cons] at h
    cases hx : f x with
    | error e =>
      rw [hx] at h
      cases h
    | ok y =>
      cases hl : l.mapM f with
      | error e =>
        rw [hx, hl] at h
        cases h
      | ok zs => exact List.forall_mem_cons.mpr ⟨⟨y, hx⟩, ih hl⟩

end FactoryLint
