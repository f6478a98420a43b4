import FactoryLint.Classes.Scope
import Mathlib.Tactic.SplitIfs

namespace FactoryLint

/-- Of two declarations around the span, one lies inside the other. -/
def Declaration.NestedAround (ds : List Declaration) (span : Span) : Prop :=
  ∀ d ∈ ds, ∀ d' ∈ ds, span.Inside d.span → span.Inside d'.span →
    d.span.Inside d'.span ∨ d'.span.Inside d.span

namespace Scope

/-- There is an answer for the span if there is a declaration around it, and then it is the one that
lies inside all of these. -/
structure FindsInnermost (s : Scope) (span : Span) : Prop where
  none_iff : s.enclosing? span = none ↔ ∀ d ∈ s.declarations, ¬span.Inside d.span
  around : ∀ d ∈ s.enclosing? span, d ∈ s.declarations ∧ span.Inside d.span
  innermost : ∀ d ∈ s.enclosing? span, ∀ d' ∈ s.declarations, span.Inside d'.span →
    d.span.Inside d'.span
  measured : ∀ d ∈ s.declarations, span.Inside d.span → d.span.start ≤ d.span.stop

theorem shorter_spec (d d' : Declaration) : (shorter d d' = d ∨ shorter d d' = d') ∧
    (shorter d d').span.length ≤ d.span.length ∧ (shorter d d').span.length ≤ d'.span.length := by
  unfold shorter
  split_ifs with hlt
  · exact ⟨Or.inr rfl, Nat.le_of_lt hlt, Nat.le_refl _⟩
  · exact ⟨Or.inl rfl, Nat.le_refl _, Nat.le_of_not_lt hlt⟩

theorem foldl_shorter (d : Declaration) (ds : List Declaration) :
    ds.foldl shorter d ∈ d :: ds ∧
      ∀ x ∈ d :: ds, (ds.foldl shorter d).span.length ≤ x.span.length := by
  induction ds generalizing d with
  | nil => simp
  | cons d' ds ih =>
    obtain ⟨hmem, hle⟩ := ih (shorter d d')
    obtain ⟨heither, hd, hd'⟩ := shorter_spec d d'
    rw [List.forall_mem_cons] at hle
    rw [List.foldl_cons]
    constructor
    · grind
    · rw [List.forall_mem_cons, List.forall_mem_cons]
      exact ⟨Nat.le_trans hle.1 hd, Nat.le_trans hle.1 hd', hle.2⟩

variable {s : Scope} {span : Span} {d : Declaration}

theorem enclosing?_eq_none_iff :
    s.enclosing? span = none ↔ ∀ d ∈ s.declarations, ¬span.Inside d.span := by
  rw [enclosing?]
  split
  · rename_i hnil
    simpa using List.filter_eq_nil_iff.mp hnil
  · rename_i d ds hcons
    apply iff_of_false (Option.some_ne_none _)
    intro hnone
    have hd : d ∈ s.declarations.filter fun d => span.Inside d.span := by
      rw [hcons]
      exact List.mem_cons_self
    rw [List.mem_filter, decide_eq_true_eq] at hd
    exact hnone d hd.1 hd.2

theorem shortest_of_enclosing? (h : s.enclosing? span = some d) :
    (d ∈ s.declarations ∧ span.Inside d.span) ∧
      ∀ d' ∈ s.declarations, span.Inside d'.span → d.span.length ≤ d'.span.length := by
  rw [enclosing?] at h
  split at h
  · cases h
  · rename_i d₀ ds hcons
    obtain rfl := Option.some.inj h
    have hmem : ∀ x, x ∈ d₀ :: ds ↔ x ∈ s.declarations ∧ span.Inside x.span := by
      intro x
      rw [← hcons, List.mem_filter, decide_eq_true_eq]
    obtain ⟨hin, hle⟩ := foldl_shorter d₀ ds
    exact ⟨(hmem _).mp hin, fun d' hd' hs => hle d' ((hmem d').mpr ⟨hd', hs⟩)⟩

theorem inside_of_enclosing? (hspan : span.start ≤ span.stop)
    (hnested : Declaration.NestedAround s.declarations span) (h : s.enclosing? span = some d) :
    ∀ d' ∈ s.declarations, span.Inside d'.span → d.span.Inside d'.span := by
  intro d' hd' hs'
  obtain ⟨⟨hd, hs⟩, hle⟩ := shortest_of_enclosing? h
  have hlength := hle d' hd' hs'
  have hin := hnested d hd d' hd' hs hs'
  unfold Span.Inside at hs hs' hin ⊢
  unfold Span.length at hlength
  omega

theorem findsInnermost_of_nested (hspan : span.start ≤ span.stop)
    (hnested : Declaration.NestedAround s.declarations span) : s.FindsInnermost span where
  none_iff := enclosing?_eq_none_iff
  around _ hd := (shortest_of_enclosing? hd).1
  innermost _ hd := inside_of_enclosing? hspan hnested hd
  measured _ _ hin := Nat.le_trans hin.1 (Nat.le_trans hspan hin.2)

end Scope

end FactoryLint
