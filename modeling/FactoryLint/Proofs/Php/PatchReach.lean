import FactoryLint.Proofs.Php.Renamed

namespace FactoryLint.Php

variable {s : Settings} {place : Span} {function : String} {program : Program}

theorem patch_ne_parenthesized {e : Expr} (h : ∀ span inner, e ≠ .parenthesized span inner)
    (span : Span) (inner : Expr) : e.patch place function ≠ .parenthesized span inner := by
  cases e with
  | parenthesized span inner => exact absurd rfl (h span inner)
  | property span object name =>
    rw [Expr.patch]
    split_ifs <;> intro he <;> cases he
  | _ =>
    rw [Expr.patch]
    intro he
    cases he

theorem bare_of_ne {e : Expr} (h : ∀ span inner, e ≠ .parenthesized span inner) : e.bare = e := by
  unfold Expr.bare
  split
  · exact absurd rfl (h _ _)
  · rfl

theorem bare_patch (e : Expr) : (e.patch place function).bare = e.bare.patch place function := by
  fun_induction Expr.bare e with
  | case1 span inner ih => rw [Expr.patch, Expr.bare, ih]
  | case2 e h => exact bare_of_ne (patch_ne_parenthesized h)

theorem eq_variable_of_patch {e : Expr} {span : Span} {name : String}
    (h : e.patch place function = .variable span name) : ∃ inner, e = .variable inner name := by
  cases e with
  | «variable» inner name' =>
    rw [Expr.patch] at h
    cases h
    exact ⟨inner, rfl⟩
  | property span object name =>
    rw [Expr.patch] at h
    split_ifs at h
    cases h
  | _ =>
    rw [Expr.patch] at h
    cases h

theorem isContainer_of_patch {e : Expr} (h : (e.patch place function).IsContainer s) :
    e.IsContainer s ∧ e.isAt place = false := by
  cases e with
  | property span object name =>
    by_cases hat : (Expr.property span object name).isAt place
    · rw [patch_of_isAt hat] at h
      cases h
    · rw [patch_property (Bool.eq_false_iff.mpr hat)] at h
      cases name with
      | none => cases h
      | some name =>
        obtain ⟨hname, inner, hb⟩ := h
        rw [bare_patch] at hb
        exact ⟨⟨hname, eq_variable_of_patch hb⟩, Bool.eq_false_iff.mpr hat⟩
  | _ =>
    rw [Expr.patch] at h
    cases h

theorem reaches_of_patch {v outer' : Expr} (h : Reaches (v.patch place function) outer') :
    (∃ outer, Reaches v outer ∧ outer' = outer.patch place function) ∨
      outer' = calleeAt place function := by
  induction h with
  | refl => exact Or.inl ⟨v, .refl, rfl⟩
  | tail _ hp ih =>
    rcases ih with ⟨outer, hr, rfl⟩ | rfl
    · by_cases hat : outer.isAt place
      · rw [patch_of_isAt hat] at hp
        exact Or.inr (List.mem_singleton.mp hp)
      · rw [parts_patch (Bool.eq_false_iff.mpr hat)] at hp
        obtain ⟨p, hp', rfl⟩ := List.mem_map.mp hp
        exact Or.inl ⟨p, hr.tail hp', rfl⟩
    · cases hp

theorem uses_of_patch {outer c' : Expr} (h : Uses s (outer.patch place function) c') :
    ∃ c, Uses s outer c ∧ c' = c.patch place function ∧ c.isAt place = false := by
  have hobject : ∀ object : Expr, (object.patch place function).bare.IsContainer s →
      object.bare.IsContainer s ∧ object.bare.isAt place = false := by
    intro object hc
    rw [bare_patch] at hc
    exact isContainer_of_patch hc
  cases outer with
  | property span object name =>
    by_cases hat : (Expr.property span object name).isAt place
    · rw [patch_of_isAt hat] at h
      cases h
    · rw [patch_property (Bool.eq_false_iff.mpr hat)] at h
      cases h with
      | property _ _ _ hc =>
        obtain ⟨hc, hat⟩ := hobject object hc
        exact ⟨object.bare, .property span object name hc, bare_patch object, hat⟩
  | methodCall span object name arguments =>
    rw [Expr.patch] at h
    cases h with
    | methodCall _ _ _ _ hn hc =>
      obtain ⟨hc, hat⟩ := hobject object hc
      exact ⟨object.bare, .methodCall span object name arguments hn hc, bare_patch object, hat⟩
  | _ =>
    rw [Expr.patch] at h
    cases h

theorem not_uses_calleeAt (c : Expr) : ¬Uses s (calleeAt place function) c := by
  intro h
  cases h

def Expr.object? : Expr → Option Expr
  | .property _ object _ => some object
  | .methodCall _ object _ _ => some object
  | _ => none

/-- A property of a variable covers `place`, and is itself the object of something. -/
def Program.HasObjectAt (program : Program) (place : Span) : Prop :=
  ∃ outer object, .expr outer ∈ program.stops ∧ outer.object? = some object ∧
    object.bare.isAt place

theorem Expr.IsContainer.isAt {c : Expr} (h : c.IsContainer s) : c.isAt c.span := by
  obtain ⟨span, object, name, inner, rfl, hb⟩ := h.exists_eq
  simp [Expr.isAt, Expr.isVariable, hb, Expr.span]

theorem Uses.hasObjectAt {outer c : Expr} (h : Uses s outer c)
    (ho : .expr outer ∈ program.stops) : program.HasObjectAt c.span := by
  refine ⟨outer, ?_⟩
  cases h with
  | property span object name hc => exact ⟨object, ho, rfl, hc.isAt⟩
  | methodCall span object name arguments hn hc => exact ⟨object, ho, rfl, hc.isAt⟩

theorem Program.HasObjectAt.exists_stop (h : program.HasObjectAt place) :
    ∃ x ∈ program.stops, x.isAt place := by
  obtain ⟨outer, object, ho, he, hat⟩ := h
  refine ⟨.expr object.bare, mem_stops_of_mem_below ho ?_, hat⟩
  have hpart : object ∈ outer.parts := by
    unfold Expr.object? at he
    split at he <;> cases he <;> exact List.mem_cons_self
  rcases eq_or_mem_below_bare object with hb | hb
  · exact hb.symm ▸ mem_below_of_mem_expr_parts hpart
  · exact mem_below_trans (mem_below_of_mem_expr_parts hpart) hb

theorem Program.WellNested.start_lt_stop_of_isAt (hn : program.WellNested) {x : Visited}
    (hx : x ∈ program.stops) (hat : x.isAt place) : place.start < place.stop := by
  cases x with
  | expr e =>
    obtain ⟨object, name, inner, variableName, rfl, hb⟩ := Expr.eq_of_isAt hat
    exact hn.start_lt_stop_of_bare hx hb
  | stmt s => cases hat

theorem isVariable_patch {e : Expr} (h : e.isVariable) : (e.patch place function).isVariable := by
  unfold Expr.isVariable at h ⊢
  rw [bare_patch]
  split at h
  · rename_i he
    rw [he, Expr.patch]
  · cases h

/-- Only variables, in parentheses perhaps, go when the call takes its place. -/
theorem patch_mem_below {v : Visited} {e : Expr} (h : .expr e ∈ v.below)
    (he : e.isVariable = false) :
    .expr (e.patch place function) ∈ (v.patch place function).below := by
  induction v using Visited.induct with
  | step v ih =>
    have hv : v.isAt place = false := by
      rw [Bool.eq_false_iff]
      intro hat
      cases v with
      | stmt s => cases hat
      | expr e' =>
        obtain ⟨object, name, inner, variableName, rfl, hb⟩ := Expr.eq_of_isAt hat
        obtain ⟨p, hp, hw⟩ := mem_below.mp h
        obtain rfl := List.mem_singleton.mp hp
        have hvariable : e.bare = .variable inner variableName := by
          rcases hw with hw | hw
          · rw [Visited.expr.inj hw, hb]
          · obtain ⟨_, heq, hb'⟩ := mem_below_of_bare_eq_variable hb hw
            rw [Visited.expr.inj heq, hb']
        rw [Expr.isVariable, hvariable] at he
        cases he
    obtain ⟨p, hp, hw⟩ := mem_below.mp h
    rw [mem_below, stops_patch hv]
    refine ⟨p.patch place function, List.mem_map_of_mem hp, ?_⟩
    rcases hw with rfl | hw
    · exact Or.inl rfl
    · exact Or.inr (ih p hp hw)

theorem patch_mem_stops {e : Expr} (h : .expr e ∈ program.stops) (he : e.isVariable = false) :
    .expr (e.patch place function) ∈ (program.patch place function).stops := by
  obtain ⟨s, hs, hw | hw⟩ := mem_stops.mp h
  · cases hw
  · refine mem_stops.mpr ⟨s.patch place function, ?_, Or.inr (patch_mem_below hw he)⟩
    rw [Program.patch, patchStmts_eq]
    exact List.mem_map_of_mem hs

theorem Program.HasObjectAt.patch {other : Span} (h : program.HasObjectAt other)
    (hne : other ≠ place) (hmoved : place.moved (callLength function) other = other) :
    (program.patch place function).HasObjectAt other := by
  obtain ⟨outer, object, ho, he, hat⟩ := h
  obtain ⟨o, name, inner, variableName, hb, hv⟩ := Expr.eq_of_isAt hat
  have hpatched : (object.patch place function).bare.isAt other := by
    have hnot : (Expr.property other o name).isAt place = false := by
      simp [Expr.isAt, hne]
    have hvariable : o.isVariable := by
      rw [Expr.isVariable, hv]
    rw [bare_patch, hb, patch_property hnot, hmoved]
    simp [Expr.isAt, isVariable_patch hvariable]
  have hobject : object.isVariable = false := by
    rw [Expr.isVariable, hb]
  cases outer with
  | property span object' name' =>
    obtain rfl := Option.some.inj he
    have hnot : (Expr.property span object' name').isAt place = false := by
      simp [Expr.isAt, hobject]
    refine ⟨_, object'.patch place function, patch_mem_stops ho rfl, ?_, hpatched⟩
    rw [patch_property hnot]
    rfl
  | methodCall span object' name' arguments =>
    obtain rfl := Option.some.inj he
    refine ⟨_, object'.patch place function, patch_mem_stops ho rfl, ?_, hpatched⟩
    rw [Expr.patch]
    rfl
  | _ => cases he

end FactoryLint.Php
