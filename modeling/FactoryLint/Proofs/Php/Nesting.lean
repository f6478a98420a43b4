import FactoryLint.Proofs.Php.Stops

namespace FactoryLint.Php

/-- The parts of a stop lie in its span, one after another. -/
structure Visited.IsNested (v : Visited) : Prop where
  inside : ∀ p ∈ v.parts, p.span.Inside v.span
  ordered : v.parts.Pairwise fun p q => p.span.stop ≤ q.span.start

def Visited.IsWritten : Visited → Prop
  | .expr (.variable span _) => span.start < span.stop
  | _ => True

/-- The spans of a program are those of a text: parts lie in the whole and siblings one after
another. -/
structure Program.WellNested (program : Program) : Prop where
  ordered : program.Pairwise fun s t => s.span.stop ≤ t.span.start
  nested : ∀ v ∈ program.stops, v.IsNested
  written : ∀ v ∈ program.stops, v.IsWritten

instance (v : Visited) : Decidable v.IsNested :=
  decidable_of_iff ((∀ p ∈ v.parts, p.span.Inside v.span) ∧
    v.parts.Pairwise fun p q => p.span.stop ≤ q.span.start)
    ⟨fun h => ⟨h.1, h.2⟩, fun h => ⟨h.inside, h.ordered⟩⟩

instance : (v : Visited) → Decidable v.IsWritten
  | .expr (.variable span _) => inferInstanceAs (Decidable (span.start < span.stop))
  | .stmt _ | .expr (.array ..) | .expr (.call ..) | .expr (.methodCall ..)
  | .expr (.property ..) | .expr (.operation ..) | .expr (.closure ..)
  | .expr (.parenthesized ..) | .expr (.literal ..) | .expr (.name ..)
  | .expr (.template ..) | .expr (.other ..) => inferInstanceAs (Decidable True)

instance (program : Program) : Decidable program.WellNested :=
  decidable_of_iff ((program.Pairwise fun s t => s.span.stop ≤ t.span.start) ∧
    (∀ v ∈ program.stops, v.IsNested) ∧ ∀ v ∈ program.stops, v.IsWritten)
    ⟨fun h => ⟨h.1, h.2.1, h.2.2⟩, fun h => ⟨h.ordered, h.nested, h.written⟩⟩

/-- A stop and all that lies inside it are nested. -/
def Visited.AllNested (v : Visited) : Prop := ∀ w ∈ v :: v.below, w.IsNested

/-- `w` lies inside `v` or comes after it. -/
def Visited.Leads (v w : Visited) : Prop := w ∈ v.below ∨ v.span.stop ≤ w.span.start

theorem eq_or_of_pairwise {α : Type} {R : α → α → Prop} {l : List α} (h : l.Pairwise R) {a b : α}
    (ha : a ∈ l) (hb : b ∈ l) : a = b ∨ R a b ∨ R b a :=
  List.Pairwise.forall_of_forall_of_flip (R := fun a b => a = b ∨ R a b ∨ R b a)
    (fun _ _ => Or.inl rfl) (h.imp fun hab => Or.inr (Or.inl hab))
    (h.imp fun hab => Or.inr (Or.inr hab)) ha hb

namespace Visited.AllNested

variable {v : Visited}

theorem isNested (h : v.AllNested) : v.IsNested := h v List.mem_cons_self

theorem part (h : v.AllNested) {p : Visited} (hp : p ∈ v.parts) : p.AllNested := fun w hw =>
  h w (List.mem_cons_of_mem _ (mem_below.mpr ⟨p, hp, List.mem_cons.mp hw⟩))

theorem span_inside (h : v.AllNested) : ∀ w ∈ v :: v.below, w.span.Inside v.span := by
  induction v using Visited.induct with
  | step v ih =>
    intro w hw
    rcases List.mem_cons.mp hw with rfl | hw
    · exact Span.Inside.refl _
    · obtain ⟨p, hp, hw⟩ := mem_below.mp hw
      have hwp := ih p hp (h.part hp) w (List.mem_cons.mpr hw)
      exact hwp.trans (h.isNested.inside p hp)

end Visited.AllNested

theorem pairwise_leads_flatMap {vs : List Visited} (hn : ∀ v ∈ vs, v.AllNested)
    (ho : vs.Pairwise fun p q => p.span.stop ≤ q.span.start)
    (ih : ∀ v ∈ vs, (v :: v.below).Pairwise Visited.Leads) :
    (vs.flatMap fun v => v :: v.below).Pairwise Visited.Leads := by
  refine List.pairwise_flatMap.mpr ⟨ih, ho.imp_of_mem fun {p q} hp hq hpq x hx y hy => Or.inr ?_⟩
  calc x.span.stop ≤ p.span.stop := ((hn p hp).span_inside x hx).2
    _ ≤ q.span.start := hpq
    _ ≤ y.span.start := ((hn q hq).span_inside y hy).1

theorem Visited.AllNested.pairwise_leads {v : Visited} (h : v.AllNested) :
    (v :: v.below).Pairwise Visited.Leads := by
  induction v using Visited.induct with
  | step v ih =>
    refine List.pairwise_cons.mpr ⟨fun w hw => Or.inl hw, ?_⟩
    rw [below_eq]
    exact pairwise_leads_flatMap (fun p hp => h.part hp) h.isNested.ordered fun p hp =>
      ih p hp (h.part hp)

namespace Program.WellNested

variable {program : Program}

theorem allNested (h : program.WellNested) {v : Visited} (hv : v ∈ program.stops) :
    v.AllNested := by
  intro w hw
  rcases List.mem_cons.mp hw with rfl | hw
  · exact h.nested w hv
  · exact h.nested w (mem_stops_of_mem_below hv hw)

theorem allNested_stmt (h : program.WellNested) : ∀ v ∈ program.map Visited.stmt, v.AllNested := by
  intro v hv
  obtain ⟨s, hs, rfl⟩ := List.mem_map.mp hv
  exact h.allNested (mem_stops.mpr ⟨s, hs, Or.inl rfl⟩)

theorem span_inside (h : program.WellNested) {v w : Visited} (hv : v ∈ program.stops)
    (hw : w ∈ v.below) : w.span.Inside v.span :=
  (h.allNested hv).span_inside w (List.mem_cons_of_mem _ hw)

theorem pairwise_leads (h : program.WellNested) : program.stops.Pairwise Visited.Leads := by
  rw [stops_eq]
  exact pairwise_leads_flatMap h.allNested_stmt (List.pairwise_map.mpr h.ordered) fun v hv =>
    (h.allNested_stmt v hv).pairwise_leads

theorem leads (h : program.WellNested) {v w : Visited} (hv : v ∈ program.stops)
    (hw : w ∈ program.stops) : v = w ∨ v.Leads w ∨ w.Leads v :=
  eq_or_of_pairwise h.pairwise_leads hv hw

end Program.WellNested

theorem mem_below_of_bare_eq_variable {e : Expr} {span : Span} {name : String}
    (h : e.bare = .variable span name) {w : Visited} (hw : w ∈ (Visited.expr e).below) :
    ∃ e', w = .expr e' ∧ e'.bare = .variable span name := by
  fun_induction Expr.bare e with
  | case1 outer inner ih =>
    obtain ⟨p, hp, hw⟩ := mem_below.mp hw
    obtain rfl := List.mem_singleton.mp hp
    rcases hw with rfl | hw
    · exact ⟨inner, rfl, h⟩
    · exact ih h hw
  | case2 e he =>
    obtain rfl := h
    obtain ⟨p, hp, -⟩ := mem_below.mp hw
    cases hp

theorem Program.WellNested.start_lt_stop_of_bare {program : Program} (hn : program.WellNested)
    {span inner : Span} {object : Expr} {name : Option String} {variableName : String}
    (hc : .expr (.property span object name) ∈ program.stops)
    (hb : object.bare = .variable inner variableName) : span.start < span.stop := by
  have hobject : .expr object ∈ (Visited.expr (.property span object name)).below :=
    mem_below_of_mem_expr_parts List.mem_cons_self
  have hvar : .expr object.bare ∈ (Visited.expr (.property span object name)).below := by
    rcases eq_or_mem_below_bare object with he | he
    · rwa [he]
    · exact mem_below_trans hobject he
  have hin : object.bare.span.Inside span := hn.span_inside hc hvar
  have hlt : inner.start < inner.stop :=
    hn.written (.expr (.variable inner variableName)) (hb ▸ mem_stops_of_mem_below hc hvar)
  rw [hb] at hin
  exact Nat.lt_of_le_of_lt hin.1 (Nat.lt_of_lt_of_le hlt hin.2)

namespace Expr.IsContainer

variable {s : Settings} {c : Expr}

theorem exists_eq (h : c.IsContainer s) : ∃ span object name inner, c = .property span object name ∧
    object.bare = .variable inner s.selfReference := by
  unfold IsContainer at h
  split at h
  · rename_i span object name
    obtain ⟨-, inner, hb⟩ := h
    exact ⟨span, object, some name, inner, rfl, hb⟩
  · cases h

theorem not_mem_below (h : c.IsContainer s) {c' : Expr} (h' : c'.IsContainer s) :
    .expr c' ∉ (Visited.expr c).below := by
  intro hmem
  obtain ⟨span, object, name, inner, rfl, hb⟩ := h.exists_eq
  obtain ⟨span', object', name', inner', rfl, -⟩ := h'.exists_eq
  obtain ⟨p, hp, hw⟩ := mem_below.mp hmem
  obtain rfl := List.mem_singleton.mp hp
  rcases hw with he | hw
  · obtain rfl := Visited.expr.inj he
    cases hb
  · obtain ⟨e, he, hb'⟩ := mem_below_of_bare_eq_variable hb hw
    obtain rfl := Visited.expr.inj he
    cases hb'

theorem start_lt_stop (h : c.IsContainer s) {program : Program} (hn : program.WellNested)
    (hc : .expr c ∈ program.stops) : c.span.start < c.span.stop := by
  obtain ⟨span, object, name, inner, rfl, hb⟩ := h.exists_eq
  exact hn.start_lt_stop_of_bare hc hb

theorem eq_or_disjoint (h : c.IsContainer s) {c' : Expr} (h' : c'.IsContainer s)
    {program : Program} (hn : program.WellNested) (hc : .expr c ∈ program.stops)
    (hc' : .expr c' ∈ program.stops) :
    c = c' ∨ c.span.stop ≤ c'.span.start ∨ c'.span.stop ≤ c.span.start := by
  rcases hn.leads hc hc' with he | (hb | ho) | (hb | ho)
  · exact Or.inl (Visited.expr.inj he)
  · exact absurd hb (h.not_mem_below h')
  · exact Or.inr (Or.inl ho)
  · exact absurd hb (h'.not_mem_below h)
  · exact Or.inr (Or.inr ho)

end Expr.IsContainer

end FactoryLint.Php
