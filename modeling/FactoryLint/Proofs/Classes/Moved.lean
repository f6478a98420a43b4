import FactoryLint.Classes.Scope
import FactoryLint.Proofs.Text.Shift

namespace FactoryLint

def Declaration.moved (place : Span) (length : Nat) (d : Declaration) : Declaration :=
  { d with span := place.moved length d.span }

namespace Scope

variable {h : Hierarchy} {place span : Span} {length : Nat} {ds : List Declaration}

theorem parent?_moved (name : String) :
    (⟨h, ds.map (Declaration.moved place length)⟩ : Scope).parent? name =
      (⟨h, ds⟩ : Scope).parent? name := by
  have hcomp : (fun d : Declaration => decide (ClassName.key d.name = ClassName.key name)) ∘
      Declaration.moved place length =
      fun d => decide (ClassName.key d.name = ClassName.key name) := rfl
  rw [parent?, parent?, List.find?_map, hcomp]
  cases ds.find? fun d => decide (ClassName.key d.name = ClassName.key name) <;> rfl

theorem ancestors_moved (d : Declaration) :
    (⟨h, ds.map (Declaration.moved place length)⟩ : Scope).ancestors (d.moved place length) =
      (⟨h, ds⟩ : Scope).ancestors d := by
  have hparent : (⟨h, ds.map (Declaration.moved place length)⟩ : Scope).parent? =
      (⟨h, ds⟩ : Scope).parent? := funext parent?_moved
  rw [ancestors, ancestors, hparent, List.length_map]
  rfl

theorem foldl_shorter_moved (d : Declaration)
    (hshorter : ∀ x ∈ d :: ds, ∀ y ∈ d :: ds, (x.moved place length).span.length <
      (y.moved place length).span.length ↔ x.span.length < y.span.length) :
    (ds.map (Declaration.moved place length)).foldl shorter (d.moved place length) =
      (ds.foldl shorter d).moved place length := by
  induction ds generalizing d with
  | nil => rfl
  | cons d' ds ih =>
    have hstep : shorter (d.moved place length) (d'.moved place length) =
        (shorter d d').moved place length := by
      rw [shorter, shorter]
      simp only [hshorter d' (by simp) d (by simp)]
      split_ifs <;> rfl
    rw [List.map_cons, List.foldl_cons, hstep, List.foldl_cons]
    have hmem : ∀ x ∈ shorter d d' :: ds, x ∈ d :: d' :: ds := by
      intro x hx
      rcases List.mem_cons.mp hx with rfl | hx
      · unfold shorter
        split_ifs <;> simp
      · simp [hx]
    exact ih _ fun x hx y hy => hshorter x (hmem x hx) y (hmem y hy)

theorem context?_moved (hplace : place.start < place.stop) (hlength : 0 < length)
    (hs : span.start ≤ span.stop) (hsc : place.Clear span)
    (hds : ∀ d ∈ ds, d.span.start ≤ d.span.stop ∧ place.Clear d.span)
    (hnested : ∀ d ∈ ds, ∀ d' ∈ ds, span.Inside d.span → span.Inside d'.span →
      d.span.Inside d'.span ∨ d'.span.Inside d.span) :
    (⟨h, ds.map (Declaration.moved place length)⟩ : Scope).context? (place.moved length span) =
      (⟨h, ds⟩ : Scope).context? span := by
  have hfilter : (ds.map (Declaration.moved place length)).filter
      (fun d => decide ((place.moved length span).Inside d.span)) =
      (ds.filter fun d => decide (span.Inside d.span)).map (Declaration.moved place length) := by
    rw [List.filter_map]
    refine congrArg _ (List.filter_congr fun d hd => decide_eq_decide.mpr ?_)
    exact Span.moved_inside_moved hlength hs hsc (hds d hd).1 (hds d hd).2
  have henclosing : (⟨h, ds.map (Declaration.moved place length)⟩ : Scope).enclosing?
      (place.moved length span) =
      ((⟨h, ds⟩ : Scope).enclosing? span).map (Declaration.moved place length) := by
    rw [enclosing?, enclosing?]
    simp only [hfilter]
    cases hf : ds.filter fun d => decide (span.Inside d.span) with
    | nil => rfl
    | cons d around =>
      have haround : ∀ x ∈ d :: around, x ∈ ds ∧ span.Inside x.span := by
        intro x hx
        rw [← hf, List.mem_filter, decide_eq_true_eq] at hx
        exact hx
      rw [List.map_cons]
      refine congrArg some (foldl_shorter_moved d fun x hx y hy => ?_)
      obtain ⟨hx, hsx⟩ := haround x hx
      obtain ⟨hy, hsy⟩ := haround y hy
      exact Span.length_moved_lt hlength (hds x hx).1 (hds x hx).2 (hds y hy).1 (hds y hy).2 hplace
        (hnested x hx y hy hsx hsy)
  rw [context?, context?, henclosing, Option.map_map]
  refine congrArg (Option.map · _) (funext fun d => ?_)
  exact congrArg (ClassContext.mk d.name) (ancestors_moved d)

end Scope

end FactoryLint
