import FactoryLint.Proofs.Edit.Splice
import FactoryLint.Proofs.Rule.Containers

namespace FactoryLint.Php

/-- The span of every stop is one of the source: in order, within it, on character boundaries. -/
def Program.Fits (program : Program) (source : String) : Prop :=
  ∀ v ∈ program.stops, (Text.slice? source.toList v.span).isSome

instance (program : Program) (source : String) : Decidable (program.Fits source) :=
  inferInstanceAs (Decidable (∀ v ∈ program.stops, _))

end FactoryLint.Php

namespace FactoryLint.Rule.HelperCall

open Php

variable {s : Settings} {scope : Scope} {h : Hierarchy} {source : String} {program : Program}
  {edits : List Edit}

theorem pairwise_endsBefore (hn : program.WellNested) (hbefore : edits.Pairwise Edit.Before)
    (hmem : ∀ e ∈ edits, ∃ c, Rewritable s scope program c ∧ e = edit s c.span) :
    edits.Pairwise Edit.EndsBefore := by
  refine hbefore.imp_of_mem fun he he' hlt => ?_
  obtain ⟨c, hc, rfl⟩ := hmem _ he
  obtain ⟨c', hc', rfl⟩ := hmem _ he'
  exact stop_le_start_of_before hn hc hc' hlt

theorem start_lt_stop_of_edit (hn : program.WellNested)
    (hmem : ∀ e ∈ edits, ∃ c, Rewritable s scope program c ∧ e = edit s c.span) :
    ∀ e ∈ edits, e.span.start < e.span.stop := by
  intro e he
  obtain ⟨c, hc, rfl⟩ := hmem e he
  exact hc.start_lt_stop hn

theorem nodup_start (hn : program.WellNested) (hbefore : edits.Pairwise Edit.Before)
    (hmem : ∀ e ∈ edits, ∃ c, Rewritable s scope program c ∧ e = edit s c.span) :
    (edits.map (·.span.start)).Nodup := by
  have hpos := start_lt_stop_of_edit hn hmem
  refine List.pairwise_map.mpr ((pairwise_endsBefore hn hbefore hmem).imp_of_mem ?_)
  intro e e' he _ hends
  exact Nat.ne_of_lt (Nat.lt_of_lt_of_le (hpos e he) hends)

theorem isBoundary_start (hf : program.Fits source)
    (hmem : ∀ e ∈ edits, ∃ c, Rewritable s scope program c ∧ e = edit s c.span) :
    ∀ e ∈ edits, Text.IsBoundary source.toList e.span.start := by
  intro e he
  obtain ⟨c, hc, rfl⟩ := hmem e he
  exact (Text.isSome_slice?_iff.mp (hf _ hc.mem_stops)).2.1

theorem exists_apply_of_check (hn : program.WellNested) (hf : program.Fits source)
    (hbefore : edits.Pairwise Edit.Before)
    (hmem : ∀ e ∈ edits, ∃ c, Rewritable s scope program c ∧ e = edit s c.span) :
    ∃ text, Edit.apply source edits = .ok text ∧
      Edit.Spliced 0 source.toList edits text.toList := by
  refine Edit.exists_apply_eq (pairwise_endsBefore hn hbefore hmem)
    (start_lt_stop_of_edit hn hmem) fun e he => ?_
  obtain ⟨c, hc, rfl⟩ := hmem e he
  exact hf _ hc.mem_stops

/-- No two edits that the rule returns touch each other. Making them all gives the source with the
containers that are to be rewritten replaced, and nothing else. -/
theorem exists_check_apply (s : Settings) (h : Hierarchy) (source : String) (program : Program)
    (hn : program.WellNested) (hf : program.Fits source) (edits : List Edit)
    (hcheck : check s h source program = .ok edits) :
    ∃ ds text, program.declarations? source = some ds ∧
      (∀ e ∈ edits, ∀ e' ∈ edits, e ≠ e' →
        e.span.stop ≤ e'.span.start ∨ e'.span.stop ≤ e.span.start) ∧
      (∀ e, e ∈ edits ↔ ∃ c, Rewritable s ⟨h, ds⟩ program c ∧ e = edit s c.span) ∧
      Edit.apply source edits = .ok text ∧ Edit.Spliced 0 source.toList edits text.toList := by
  obtain ⟨ds, hds⟩ := exists_declarations hcheck
  obtain ⟨found, hfound, hbefore, hmem⟩ := exists_check_eq s h hds
  obtain rfl := Except.ok.inj (hfound.symm.trans hcheck)
  have hmem' : ∀ e ∈ found, ∃ c, Rewritable s ⟨h, ds⟩ program c ∧ e = edit s c.span :=
    fun e he => (hmem e).mp he
  obtain ⟨text, htext, hspliced⟩ := exists_apply_of_check hn hf hbefore hmem'
  refine ⟨ds, text, hds, fun e he e' he' hne => ?_, hmem, htext, hspliced⟩
  have hends := pairwise_endsBefore hn hbefore hmem'
  exact (eq_or_of_pairwise hends he he').resolve_left hne

theorem exists_check_apply_words : ∃ edits text,
    check wordsSettings .empty wordsSource wordsProgram = .ok edits ∧
      edit wordsSettings ⟨48, 60⟩ ∈ edits ∧ Edit.apply wordsSource edits = .ok text ∧
      Edit.Spliced 0 wordsSource.toList edits text.toList := by
  obtain ⟨edits, hcheck, -⟩ := exists_check_eq wordsSettings .empty declarations?_words
  obtain ⟨ds, text, hds, -, hmem, htext, hspliced⟩ := exists_check_apply wordsSettings .empty
    wordsSource wordsProgram (by decide +kernel) (by decide +kernel) edits hcheck
  obtain rfl := Option.some.inj (declarations?_words.symm.trans hds)
  exact ⟨edits, text, hcheck, (hmem _).mpr ⟨_, rewritable_words, rfl⟩, htext, hspliced⟩

end FactoryLint.Rule.HelperCall
