import FactoryLint.Edit.Canonical
import Mathlib.Data.List.Basic

namespace FactoryLint.Edit

variable {a b c e : Edit}

/-- `a` has its place before `b`, and the two do not do the same. -/
def Before (a b : Edit) : Prop := precedes a b ∧ ¬a.Same b

theorem precedes_iff : precedes a b ↔ a.span.start < b.span.start ∨
    a.span.start = b.span.start ∧ (a.span.stop < b.span.stop ∨
      a.span.stop = b.span.stop ∧ a.replacement ≤ b.replacement) := by
  simp [precedes]

theorem precedes_total (a b : Edit) : precedes a b || precedes b a := by
  rw [Bool.or_eq_true, precedes_iff, precedes_iff]
  have htext := String.le_total a.replacement b.replacement
  grind

theorem precedes_trans (a b c : Edit) (hab : precedes a b) (hbc : precedes b c) :
    precedes a c := by
  rw [precedes_iff] at *
  have htext : a.replacement ≤ b.replacement → b.replacement ≤ c.replacement →
      a.replacement ≤ c.replacement := String.le_trans
  grind

theorem span_eq (hstart : a.span.start = b.span.start) (hstop : a.span.stop = b.span.stop) :
    a.span = b.span :=
  calc a.span = ⟨a.span.start, a.span.stop⟩ := rfl
    _ = b.span := by rw [hstart, hstop]

theorem same_of_precedes (hab : precedes a b) (hba : precedes b a) : a.Same b := by
  rw [precedes_iff] at hab hba
  have hstart : a.span.start = b.span.start := by omega
  have hstop : a.span.stop = b.span.stop := by omega
  have htext : a.replacement ≤ b.replacement ∧ b.replacement ≤ a.replacement := by grind
  exact ⟨span_eq hstart hstop, String.le_antisymm htext.1 htext.2⟩

theorem Same.precedes (h : a.Same b) : precedes b a := by
  rw [precedes_iff, h.1, h.2]
  exact Or.inr ⟨rfl, Or.inr ⟨rfl, String.le_refl _⟩⟩

theorem dropRepeated_sublist (last : Option Edit) (es : List Edit) :
    (dropRepeated last es).Sublist es := by
  fun_induction dropRepeated last es with
  | case1 => exact .slnil
  | case2 last e es h ih => exact ih.cons e
  | case3 last e es h ih => exact ih.cons_cons e

theorem exists_same_of_mem_dropRepeated (last : Option Edit) (es : List Edit) (h : e ∈ es) :
    (∃ x ∈ last, x.Same e) ∨ ∃ x ∈ dropRepeated last es, x.Same e := by
  fun_induction dropRepeated last es with
  | case1 => cases h
  | case2 last y es hy ih =>
    rcases List.mem_cons.mp h with rfl | h
    · obtain ⟨x, hx, hs⟩ := (Option.any_eq_true ..).mp hy
      exact Or.inl ⟨x, hx, of_decide_eq_true hs⟩
    · exact ih h
  | case3 last y es hy ih =>
    rcases List.mem_cons.mp h with rfl | h
    · exact Or.inr ⟨e, List.mem_cons_self, rfl, rfl⟩
    · rcases ih h with ⟨x, hx, hs⟩ | ⟨x, hx, hs⟩
      · obtain rfl := Option.some.inj hx
        exact Or.inr ⟨y, List.mem_cons_self, hs⟩
      · exact Or.inr ⟨x, List.mem_cons_of_mem _ hx, hs⟩

theorem pairwise_dropRepeated (last : Option Edit) (es : List Edit)
    (hlast : ∀ x ∈ last, ∀ e ∈ es, precedes x e) (hes : es.Pairwise fun a b => precedes a b) :
    (dropRepeated last es).Pairwise Before ∧
      ∀ x ∈ last, ∀ e ∈ dropRepeated last es, Before x e := by
  fun_induction dropRepeated last es with
  | case1 => exact ⟨.nil, by simp⟩
  | case2 last y es hy ih =>
    exact ih (fun x hx e he => hlast x hx e (List.mem_cons_of_mem _ he)) hes.of_cons
  | case3 last y es hy ih =>
    obtain ⟨hys, hes⟩ := List.pairwise_cons.mp hes
    obtain ⟨hp, hbefore⟩ := ih (fun x hx e he => Option.some.inj hx ▸ hys e he) hes
    refine ⟨hp.cons (hbefore y rfl), fun x hx e he => ?_⟩
    have hxy : Before x y := by
      refine ⟨hlast x hx y List.mem_cons_self, fun hs => hy ?_⟩
      exact (Option.any_eq_true ..).mpr ⟨x, hx, decide_eq_true hs⟩
    rcases List.mem_cons.mp he with rfl | he
    · exact hxy
    · -- If `x` and `e` did the same, so would everything between them.
      have hye := hys e ((dropRepeated_sublist _ es).subset he)
      refine ⟨precedes_trans x y e hxy.1 hye, fun hs => hxy.2 ?_⟩
      exact same_of_precedes hxy.1 (precedes_trans y e x hye hs.precedes)

theorem dropRepeated_of_pairwise (last : Option Edit) (es : List Edit)
    (hlast : ∀ x ∈ last, ∀ e ∈ es, Before x e) (hes : es.Pairwise Before) :
    dropRepeated last es = es := by
  fun_induction dropRepeated last es with
  | case1 => rfl
  | case2 last y es hy ih =>
    obtain ⟨x, hx, hs⟩ := (Option.any_eq_true ..).mp hy
    exact absurd (of_decide_eq_true hs) (hlast x hx y List.mem_cons_self).2
  | case3 last y es hy ih =>
    obtain ⟨hys, hes⟩ := List.pairwise_cons.mp hes
    rw [ih (fun x hx e he => Option.some.inj hx ▸ hys e he) hes]

theorem mem_of_mem_canonical {es : List Edit} (h : e ∈ canonical es) : e ∈ es :=
  List.mem_mergeSort.mp ((dropRepeated_sublist none _).subset h)

theorem exists_same_of_mem {es : List Edit} (h : e ∈ es) : ∃ x ∈ canonical es, x.Same e := by
  have hdrop := exists_same_of_mem_dropRepeated none (es.mergeSort precedes)
    (List.mem_mergeSort.mpr h)
  exact hdrop.resolve_left (by simp)

theorem pairwise_canonical (es : List Edit) : (canonical es).Pairwise Before :=
  (pairwise_dropRepeated none _ (by simp)
    (List.pairwise_mergeSort precedes_trans precedes_total es)).1

theorem canonical_of_pairwise {es : List Edit} (h : es.Pairwise Before) : canonical es = es := by
  rw [canonical, List.mergeSort_of_pairwise (h.imp fun hab => hab.1),
    dropRepeated_of_pairwise none es (by simp) h]

end FactoryLint.Edit
