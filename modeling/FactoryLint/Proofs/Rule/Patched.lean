import FactoryLint.Proofs.Php.Declared
import FactoryLint.Proofs.Php.PatchReach
import FactoryLint.Proofs.Rule.Containers

namespace FactoryLint.Rule.HelperCall

open Php

variable {s : Settings} {h : Hierarchy} {source : String} {program : Program} {place : Span}
  {function : String} {ds : List Declaration}

theorem Rewritable.hasObjectAt {scope : Scope} {c : Expr} (hc : Rewritable s scope program c) :
    program.HasObjectAt c.span := by
  obtain ⟨span, elements, ha, -, v, hv, outer, hr, hu⟩ := hc
  exact hu.hasObjectAt (mem_stops_of_mem_below ha (hr.mem_below_array hv span))

theorem exists_eq_array_of_patch {u : Visited} {span' : Span} {elements' : List Element}
    (he : .expr (.array span' elements') = u.patch place function) :
    ∃ span elements, u = .expr (.array span elements) ∧
      span' = place.moved (callLength function) span ∧
      elements' = patchElements place function elements := by
  cases u with
  | stmt s => cases he
  | expr e =>
    have he := Visited.expr.inj he
    cases e with
    | array span elements =>
      rw [Expr.patch] at he
      cases he
      exact ⟨span, elements, rfl, rfl, rfl⟩
    | property span object name =>
      rw [Expr.patch] at he
      split_ifs at he
      cases he
    | _ =>
      rw [Expr.patch] at he
      cases he

theorem Rewritable.of_patch (hn : program.WellNested) (hf : program.Forward)
    (hplace : place.start < place.stop) {x : Visited} (hx : x ∈ program.stops)
    (hat : x.isAt place) (hds : program.declarations? source = some ds) {c' : Expr}
    (hc' : Rewritable s ⟨h, ds.map (Declaration.moved place (callLength function))⟩
      (program.patch place function) c') :
    ∃ c, Rewritable s ⟨h, ds⟩ program c ∧ c.isAt place = false ∧
      c'.span = place.moved (callLength function) c.span := by
  obtain ⟨span', elements', ha', hel, v', hv', outer', hr', hu'⟩ := hc'
  obtain ⟨u, hu, he, hclear⟩ := (mem_stops_patch hn hplace hx hat ha').resolve_right nofun
  obtain ⟨span, elements, rfl, rfl, rfl⟩ := exists_eq_array_of_patch he
  rw [flatMap_values_patchElements] at hv'
  obtain ⟨v, hv, rfl⟩ := List.mem_map.mp hv'
  obtain ⟨outer, hr, rfl⟩ := (reaches_of_patch hr').resolve_right fun he =>
    not_uses_calleeAt c' (he ▸ hu')
  obtain ⟨c, huse, rfl, hcat⟩ := uses_of_patch hu'
  refine ⟨c, ⟨span, elements, hu, ?_, v, hv, outer, hr, huse⟩, hcat, ?_⟩
  · have hbelow := mem_below_trans (hr.mem_below_array hv span) huse.mem_below
    have hinside := hn.span_inside hu hbelow
    have hpos := huse.isContainer.start_lt_stop hn (mem_stops_of_mem_below hu hbelow)
    have hcontext : (⟨h, ds.map (Declaration.moved place (callLength function))⟩ : Scope).context?
        (place.moved (callLength function) span) = (⟨h, ds⟩ : Scope).context? span := by
      refine Scope.context?_moved hplace (callLength_pos function) (hf _ hu) hclear
        (fun d hd => ?_) fun d hd d' hd' hs hs' => nested_of_inside hn hds ?_ hd hd' hs hs'
      · obtain ⟨name, parent, body, hdecl⟩ := exists_of_mem_declarations hds hd
        exact ⟨hf _ hdecl, clear_of_stmt hn hx hat hdecl⟩
      · exact Nat.lt_of_le_of_lt hinside.1 (Nat.lt_of_lt_of_le hpos hinside.2)
    rwa [hcontext] at hel
  · exact span_patch hplace (.expr c)

end FactoryLint.Rule.HelperCall
