import FactoryLint.Proofs.Edit.Splice
import FactoryLint.Proofs.Rule.Patched

namespace FactoryLint

def Declaration.link (d : Declaration) : String × Option String := (d.name, d.parent)

namespace Php

open Rewrite

/-- One text has a call where the other has the object of a property or a method. -/
def Replaces (parse : String → Option Program) (function text text' : String) : Prop :=
  ∃ program place, parse text = some program ∧ program.HasObjectAt place ∧
    Text.replace? text.toList place (callText function).toList = some text'.toList

/-- Whenever calls have taken the places of some objects of the text and another one does, the
parser reads it as a call and all the rest as before. -/
def ReadsCalls (parse : String → Option Program) (function text : String) : Prop :=
  ∀ text', Relation.ReflTransGen (Replaces parse function) text text' →
    ∀ program place text'', parse text' = some program → program.HasObjectAt place →
      Text.replace? text'.toList place (callText function).toList = some text''.toList →
      parse text'' = some (program.patch place function)

theorem ReadsCalls.of_closed {parse : String → Option Program} {function text : String}
    {p : String → Prop} (htext : p text)
    (hp : ∀ t, p t → ∀ program place t', parse t = some program → program.HasObjectAt place →
      Text.replace? t.toList place (callText function).toList = some t'.toList →
      p t' ∧ parse t' = some (program.patch place function)) : ReadsCalls parse function text := by
  intro text' hsteps
  have htext' : p text' := by
    induction hsteps with
    | refl => exact htext
    | tail _ hstep ih =>
      obtain ⟨program, place, hparse, hobject, hreplace⟩ := hstep
      exact (hp _ ih program place _ hparse hobject hreplace).1
  intro program place text'' hparse hobject hreplace
  exact (hp text' htext' program place text'' hparse hobject hreplace).2

end Php

namespace Rule.HelperCall

open Php Rewrite

/-- The spans are all that is left to be rewritten, and there the call can take its place. -/
structure Pending (parse : String → Option Program) (s : Settings) (h : Hierarchy)
    (ds : List Declaration) (spans : List Span) (text : String) (program : Program) : Prop where
  parsed : parse text = some program
  classes : program.declarations? text = some ds
  calls : ReadsCalls parse s.helperFunction text
  nested : program.WellNested
  forward : program.Forward
  objects : ∀ span ∈ spans, program.HasObjectAt span
  heads : ∀ span ∈ spans, program.HeadsEnd text span
  complete : ∀ c, Rewritable s ⟨h, ds⟩ program c → c.span ∈ spans

namespace Pending

variable {parse : String → Option Program} {s : Settings} {h : Hierarchy} {place : Span}
  {ds : List Declaration} {spans : List Span} {text text' : String} {program : Program}

theorem of_edits (hparsed : parse text = some program)
    (hds : program.declarations? text = some ds)
    (hcalls : ReadsCalls parse s.helperFunction text) (hn : program.WellNested)
    (hf : program.Forward) {edits : List Edit}
    (hmem : ∀ e, e ∈ edits ↔ ∃ c, Rewritable s ⟨h, ds⟩ program c ∧ e = edit s c.span)
    (hheads : ∀ c, Rewritable s ⟨h, ds⟩ program c → program.HeadsEnd text c.span) :
    Pending parse s h ds (edits.reverse.map Edit.span) text program := by
  have hspans : ∀ span ∈ edits.reverse.map Edit.span, ∃ c, Rewritable s ⟨h, ds⟩ program c ∧
      span = c.span := by
    intro span hspan
    obtain ⟨e, he, rfl⟩ := List.mem_map.mp hspan
    obtain ⟨c, hc, rfl⟩ := (hmem e).mp (List.mem_reverse.mp he)
    exact ⟨c, hc, rfl⟩
  refine ⟨hparsed, hds, hcalls, hn, hf, ?_, ?_, ?_⟩
  · intro span hspan
    obtain ⟨c, hc, rfl⟩ := hspans span hspan
    exact hc.hasObjectAt
  · intro span hspan
    obtain ⟨c, hc, rfl⟩ := hspans span hspan
    exact hheads c hc
  · intro c hc
    have he := (hmem (edit s c.span)).mpr ⟨c, hc, rfl⟩
    exact List.mem_map_of_mem (List.mem_reverse.mpr he)

theorem step (hp : Pending parse s h ds (place :: spans) text program)
    (hlast : ∀ span ∈ spans, span.stop ≤ place.start)
    (hout : Text.replace? text.toList place (callText s.helperFunction).toList =
      some text'.toList) :
    Pending parse s h (ds.map (Declaration.moved place (callLength s.helperFunction))) spans text'
      (program.patch place s.helperFunction) := by
  have hobject := hp.objects place List.mem_cons_self
  obtain ⟨x, hx, hat⟩ := hobject.exists_stop
  have hplace := hp.nested.start_lt_stop_of_isAt hx hat
  have hheads := hp.heads place List.mem_cons_self
  have hforward : ∀ span ∈ spans, span.start ≤ span.stop := by
    intro span hspan
    obtain ⟨y, hy, hat'⟩ := (hp.objects span (List.mem_cons_of_mem _ hspan)).exists_stop
    exact Nat.le_of_lt (hp.nested.start_lt_stop_of_isAt hy hat')
  -- The places still to come lie before this one, so they do not move.
  have hself : ∀ span ∈ spans, place.moved (callLength s.helperFunction) span = span :=
    fun span hspan => Span.moved_of_le (hforward span hspan) (hlast span hspan)
  have hne : ∀ span ∈ spans, span ≠ place := by
    rintro span hspan rfl
    exact Nat.not_le.mpr hplace (hlast span hspan)
  have hnames := keepsNames_of_replace hp.nested hp.forward hplace hx hat hheads hout
  have hclasses := declarations?_patch hnames
  rw [hp.classes, Option.map_some] at hclasses
  refine ⟨hp.calls text .refl program place text' hp.parsed hobject hout, hclasses, ?_,
    hp.nested.patch hplace hx hat, hp.forward.patch hp.nested hplace hx hat, ?_, ?_, ?_⟩
  · intro text₁ hsteps
    exact hp.calls text₁ (.head ⟨program, place, hp.parsed, hobject, hout⟩ hsteps)
  · intro span hspan
    exact (hp.objects span (List.mem_cons_of_mem _ hspan)).patch (hne span hspan)
      (hself span hspan)
  · intro span hspan
    exact (hp.heads span (List.mem_cons_of_mem _ hspan)).patch hp.nested hp.forward hplace hx hat
      hout (hforward span hspan) (hlast span hspan)
  · intro c' hc'
    obtain ⟨c, hc, hcat, hspan⟩ := hc'.of_patch hp.nested hp.forward hplace hx hat hp.classes
    have hmem : c.span ∈ spans := by
      refine (List.mem_cons.mp (hp.complete c hc)).resolve_left ?_
      rintro rfl
      rw [hc.isContainer.isAt] at hcat
      cases hcat
    rwa [hspan, hself c.span hmem]

/-- The calls take all places, from the last one to the first. -/
theorem run (hp : Pending parse s h ds spans text program)
    (hspans : spans.Pairwise fun a b => b.stop ≤ a.start)
    (hout : Edit.spliceAll text.toList (spans.map (edit s)) = .ok text'.toList) :
    ∃ ds' program', Pending parse s h ds' [] text' program' ∧
      ds'.map Declaration.link = ds.map Declaration.link := by
  induction spans generalizing text program ds with
  | nil =>
    obtain rfl : text = text' := String.toList_inj.mp (Except.ok.inj hout)
    exact ⟨ds, program, hp, rfl⟩
  | cons place spans ih =>
    obtain ⟨hlast, hspans⟩ := List.pairwise_cons.mp hspans
    rw [List.map_cons, Edit.spliceAll] at hout
    split at hout
    · rename_i out hreplace
      have hreplace' : Text.replace? text.toList place (callText s.helperFunction).toList =
          some (String.ofList out).toList := by
        rw [String.toList_ofList]
        exact hreplace
      have hout' : Edit.spliceAll (String.ofList out).toList (spans.map (edit s)) =
          .ok text'.toList := by
        rw [String.toList_ofList]
        exact hout
      obtain ⟨ds', program', hp', hlinks⟩ := ih (hp.step hlast hreplace') hspans hout'
      refine ⟨ds', program', hp', hlinks.trans ?_⟩
      rw [List.map_map]
      rfl
    · cases hout

theorem check_eq_nil (hp : Pending parse s h ds [] text program) :
    check s h text program = .ok [] := by
  obtain ⟨edits, hcheck, -, hmem⟩ := exists_check_eq s h hp.classes
  have hnil : edits = [] := by
    refine List.eq_nil_iff_forall_not_mem.mpr fun e he => ?_
    obtain ⟨c, hc, -⟩ := (hmem e).mp he
    exact List.not_mem_nil (hp.complete c hc)
  rw [hcheck, hnil]

end Pending

end Rule.HelperCall

end FactoryLint
