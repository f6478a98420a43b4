import FactoryLint.Proofs.Classes.Moved
import FactoryLint.Proofs.Php.Declared
import FactoryLint.Proofs.Php.Patch

namespace FactoryLint.Php

open Rewrite

variable {place : Span} {function : String} {program : Program}

/-- From one text to the other, a statement stays the same in what names are read off. -/
def KeepsNames (place : Span) (length : Nat) (text text' : List Char) : Visited → Prop
  | .stmt (.namespaceDecl span _) =>
    Naming.enterSpace (textOf text' (place.moved length span)) =
      Naming.enterSpace (textOf text span)
  | .stmt (.useDecl span) => textOf text' (place.moved length span) = textOf text span
  | _ => True

theorem preorder_patch (v : Visited) : (v.patch place function).preorder entersStatements =
    (v.preorder entersStatements).map (Visited.patch place function) := by
  induction v using Visited.induct with
  | step v ih =>
    cases v with
    | expr e => rfl
    | stmt s =>
      have hinside : ((Visited.stmt s).patch place function).inside entersStatements =
          ((Visited.stmt s).inside entersStatements).map (Visited.patch place function) := by
        rw [inside_eq, stops_patch rfl, inside_eq, List.flatMap_map, List.map_flatMap]
        exact List.flatMap_congr ih
      exact congrArg ((Visited.stmt s).patch place function :: ·) hinside

theorem visits_patch : (program.patch place function).visits entersStatements =
    (program.visits entersStatements).map (Visited.patch place function) := by
  rw [visits_eq, map_stmt_patch_program, visits_eq, List.flatMap_map, List.map_flatMap]
  exact List.flatMap_congr fun v _ => preorder_patch v

namespace Naming

variable {text text' : List Char} (n : Naming) {v : Visited}

theorem next?_patch (h : KeepsNames place (callLength function) text text' v) :
    n.next? text' (v.patch place function) = n.next? text v := by
  cases v with
  | expr e => rfl
  | stmt s =>
    cases s with
    | ret span value => cases value <;> rw [Visited.patch, Stmt.patch] <;> rfl
    | namespaceDecl span body =>
      have hname : enterSpace (textOf text' (place.moved (callLength function) span)) =
          enterSpace (textOf text span) := h
      rw [Visited.patch, Stmt.patch, next?, next?, hname]
    | useDecl span =>
      have himports : textOf text' (place.moved (callLength function) span) = textOf text span := h
      rw [Visited.patch, Stmt.patch, next?, next?, himports]
    | _ => rw [Visited.patch, Stmt.patch]; rfl

theorem declared?_patch (v : Visited) : n.declared? (v.patch place function) =
    (n.declared? v).map (Declaration.moved place (callLength function)) := by
  cases v with
  | expr e => rfl
  | stmt s =>
    cases s with
    | ret span value => cases value <;> rw [Visited.patch, Stmt.patch] <;> rfl
    | _ => rw [Visited.patch, Stmt.patch]; rfl

theorem collect?_patch {vs : List Visited}
    (h : ∀ v ∈ vs, KeepsNames place (callLength function) text text' v) :
    n.collect? text' (vs.map (Visited.patch place function)) =
      (n.collect? text vs).map (List.map (Declaration.moved place (callLength function))) := by
  induction vs generalizing n with
  | nil => rfl
  | cons v vs ih =>
    obtain ⟨hv, hvs⟩ := List.forall_mem_cons.mp h
    rw [List.map_cons, collect?, collect?, next?_patch n hv, declared?_patch]
    cases n.next? text v with
    | none => rfl
    | some m =>
      rw [Option.bind_some, Option.bind_some, ih m hvs, Option.map_map, Option.map_map]
      refine Option.map_congr fun rest _ => ?_
      cases n.declared? v <;> rfl

end Naming

theorem declarations?_patch {source source' : String}
    (h : ∀ v ∈ program.visits entersStatements,
      KeepsNames place (callLength function) source.toList source'.toList v) :
    (program.patch place function).declarations? source' =
      (program.declarations? source).map
        (List.map (Declaration.moved place (callLength function))) := by
  rw [declarations?_eq, visits_patch, declarations?_eq]
  exact Naming.initial.collect?_patch h

/-- Around the place, every namespace has its brace or semicolon before it. -/
def Program.HeadsEnd (program : Program) (source : String) (place : Span) : Prop :=
  ∀ span body, .stmt (.namespaceDecl span body) ∈ program.visits entersStatements →
    place.Inside span →
      ∃ mark ∈ textOf source.toList ⟨span.start, place.start⟩, mark = '\x7b' ∨ mark = ';'

theorem stmt_not_mem_below_of_isAt {x : Visited} (hat : x.isAt place) (s : Stmt) :
    .stmt s ∉ x.below := by
  intro hmem
  cases x with
  | stmt s => cases hat
  | expr e =>
    obtain ⟨object, name, inner, variableName, rfl, hb⟩ := Expr.eq_of_isAt hat
    obtain ⟨p, hp, hw⟩ := mem_below.mp hmem
    obtain rfl := List.mem_singleton.mp hp
    rcases hw with he | hw
    · cases he
    · obtain ⟨e, he, -⟩ := mem_below_of_bare_eq_variable hb hw
      cases he

theorem mem_below_or_apart (hn : program.WellNested) {x : Visited} (hx : x ∈ program.stops)
    (hat : x.isAt place) {s : Stmt} (hs : .stmt s ∈ program.stops) :
    x ∈ (Visited.stmt s).below ∨ s.span.stop ≤ place.start ∨ place.stop ≤ s.span.start := by
  have hspan := Visited.span_of_isAt hat
  rcases hn.leads hs hx with rfl | (hb | ho) | (hb | ho)
  · cases hat
  · exact Or.inl hb
  · exact Or.inr (Or.inl (hspan ▸ ho))
  · exact absurd hb (stmt_not_mem_below_of_isAt hat s)
  · exact Or.inr (Or.inr (hspan ▸ ho))

theorem clear_of_stmt (hn : program.WellNested) {x : Visited} (hx : x ∈ program.stops)
    (hat : x.isAt place) {s : Stmt} (hs : .stmt s ∈ program.stops) : place.Clear s.span := by
  rcases mem_below_or_apart hn hx hat hs with hb | ho | ho
  · exact Or.inr (Or.inr (Visited.span_of_isAt hat ▸ hn.span_inside hs hb))
  · exact Or.inl ho
  · exact Or.inr (Or.inl ho)

theorem textOf_replace {text out : List Char}
    (hout : Text.replace? text place (callText function).toList = some out) {span : Span}
    (hplace : place.start < place.stop) (hspan : span.start ≤ span.stop)
    (h : span.stop ≤ place.start ∨ place.stop ≤ span.start) :
    textOf out (place.moved (callLength function) span) = textOf text span := by
  obtain ⟨before, covered, rest, htext, rfl, hbefore, hcovered⟩ := Text.replace?_eq_some hout
  rw [textOf, textOf, htext]
  exact congrArg (Option.getD · [])
    (Text.slice?_moved _ rest hplace hbefore hcovered hspan h)

theorem keepsNames_of_replace (hn : program.WellNested) (hf : program.Forward)
    (hplace : place.start < place.stop) {x : Visited} (hx : x ∈ program.stops)
    (hat : x.isAt place) {source : String} (hheads : program.HeadsEnd source place)
    {out : List Char}
    (hout : Text.replace? source.toList place (callText function).toList = some out) :
    ∀ v ∈ program.visits entersStatements,
      KeepsNames place (callLength function) source.toList out v := by
  intro v hvisit
  have hv := mem_stops_of_mem_visits hvisit
  cases v with
  | expr e => exact trivial
  | stmt s =>
    cases s with
    | useDecl span =>
      refine textOf_replace hout hplace (hf _ hv)
        ((mem_below_or_apart hn hx hat hv).resolve_left fun hb => ?_)
      obtain ⟨p, hp, -⟩ := mem_below.mp hb
      cases hp
    | namespaceDecl span body =>
      rcases mem_below_or_apart hn hx hat hv with hb | ho
      · have hinside : place.Inside span := Visited.span_of_isAt hat ▸ hn.span_inside hv hb
        obtain ⟨before, covered, rest, htext, rfl, hbefore, hcovered⟩ := Text.replace?_eq_some hout
        obtain ⟨mark, hmark, hend⟩ := hheads span body hvisit hinside
        rw [textOf, htext] at hmark
        rw [KeepsNames, textOf, textOf, htext, callLength]
        rcases Text.slice?_moved_around (callText function).toList rest hplace hbefore hcovered
          hinside with ⟨hnone, hnone'⟩ | ⟨head, tail, hhead, hold, hnew⟩
        · rw [hnone, hnone']
        · rw [hhead, Option.getD_some] at hmark
          rw [hold, hnew, Option.getD_some, Option.getD_some, List.append_assoc, List.append_assoc,
            Naming.enterSpace_append hmark hend, Naming.enterSpace_append hmark hend]
      · exact congrArg Naming.enterSpace (textOf_replace hout hplace (hf _ hv) ho)
    | _ => exact trivial

/-- Where the brace or semicolon comes later, the namespace gets another name. -/
theorem not_keepsNames_of_replace (hplace : place.start < place.stop) {source : String}
    {out : List Char}
    (hout : Text.replace? source.toList place (callText function).toList = some out) {span : Span}
    {body : List Stmt} (hinside : place.Inside span)
    (hfits : (Text.slice? source.toList span).isSome)
    (hhead : ∀ c ∈ textOf source.toList ⟨span.start, place.start⟩, c ≠ '\x7b' ∧ c ≠ ';')
    (hplaced : ∀ c ∈ textOf source.toList place, c ≠ '\x7b' ∧ c ≠ ';')
    (hsign : '$' ∈ textOf source.toList place)
    (hcall : ∀ c ∈ (callText function).toList, c ≠ '\x7b' ∧ c ≠ ';' ∧ c ≠ '$') :
    ¬KeepsNames place (callLength function) source.toList out
      (.stmt (.namespaceDecl span body)) := by
  obtain ⟨before, covered, rest, htext, rfl, hbefore, hcovered⟩ := Text.replace?_eq_some hout
  rw [htext] at hfits hhead hplaced hsign
  rw [KeepsNames, textOf, textOf, htext, callLength]
  rcases Text.slice?_moved_around (callText function).toList rest hplace hbefore hcovered
    hinside with ⟨hnone, -⟩ | ⟨head, tail, hslice, hold, hnew⟩
  · rw [hnone] at hfits
    cases hfits
  · have hcover : textOf (before ++ covered ++ rest) place = covered := by
      rw [textOf, Text.slice?_length hbefore hcovered, Option.getD_some]
    rw [hcover] at hplaced hsign
    rw [textOf, hslice, Option.getD_some] at hhead
    rw [hold, hnew, Option.getD_some, Option.getD_some]
    refine Naming.enterSpace_ne hhead hplaced (fun c hc => ?_) hsign (fun hmem => ?_) tail
    · exact ⟨(hcall c hc).1, (hcall c hc).2.1⟩
    · exact (hcall '$' hmem).2.2 rfl

theorem Program.HeadsEnd.patch (hn : program.WellNested) (hf : program.Forward)
    (hplace : place.start < place.stop) {x : Visited} (hx : x ∈ program.stops)
    (hat : x.isAt place) {source source' : String}
    (hout : Text.replace? source.toList place (callText function).toList = some source'.toList)
    {other : Span} (hother : other.start ≤ other.stop) (hbefore : other.stop ≤ place.start)
    (h : program.HeadsEnd source other) :
    (program.patch place function).HeadsEnd source' other := by
  intro span' body' hvisit hinside
  rw [visits_patch] at hvisit
  obtain ⟨v, hv, he⟩ := List.mem_map.mp hvisit
  obtain ⟨span, body, rfl, rfl⟩ : ∃ span body, v = .stmt (.namespaceDecl span body) ∧
      span' = place.moved (callLength function) span := by
    cases v with
    | expr e => cases he
    | stmt s =>
      cases s with
      | namespaceDecl span body =>
        rw [Visited.patch, Stmt.patch] at he
        cases he
        exact ⟨span, body, rfl, rfl⟩
      | ret span value =>
        cases value <;> rw [Visited.patch, Stmt.patch] at he <;> cases he
      | _ =>
        rw [Visited.patch, Stmt.patch] at he
        cases he
  have hv' := mem_stops_of_mem_visits hv
  have hself : place.moved (callLength function) other = other := Span.moved_of_le hother hbefore
  have hinside' : other.Inside span := by
    rw [← hself] at hinside
    exact (Span.moved_inside_moved (callLength_pos function) hother (Or.inl hbefore) (hf _ hv')
      (clear_of_stmt hn hx hat hv')).mp hinside
  have hstop : other.start ≤ place.start := Nat.le_trans hother hbefore
  have hstart : span.start ≤ place.start := Nat.le_trans hinside'.1 hstop
  have hhead : textOf source'.toList (place.moved (callLength function) ⟨span.start, other.start⟩) =
      textOf source.toList ⟨span.start, other.start⟩ :=
    textOf_replace hout hplace hinside'.1 (Or.inl hstop)
  rw [Span.moved_of_le hinside'.1 hstop] at hhead
  change ∃ mark ∈ textOf source'.toList ⟨place.shift _ span.start, other.start⟩, _
  rw [Span.shift_of_le hstart, hhead]
  exact h span body hv hinside'

end FactoryLint.Php
