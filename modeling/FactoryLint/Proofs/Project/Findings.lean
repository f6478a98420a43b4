import FactoryLint.Project.Check
import FactoryLint.Proofs.Rule.Applied
import FactoryLint.Proofs.Text.Position

namespace FactoryLint

open Rule
open Text (Position IsBoundary byteLength)

def Finding.position (f : Finding) : Position := ⟨f.line, f.column⟩

theorem Rule.eq_of_registry {s : Settings} {rules : List Rule} (h : registry s = .ok rules) :
    rules = [helperCall s] := by
  cases hvalid : s.validate with
  | error e =>
    rw [registry, hvalid] at h
    cases h
  | ok u =>
    rw [registry, hvalid] at h
    exact (Except.ok.inj h).symm

theorem Rule.length_registry {s : Settings} {rules : List Rule} (h : registry s = .ok rules) :
    rules.length = 1 := by
  rw [eq_of_registry h, List.length_singleton]

namespace Source

variable {rules : List Rule} {h : Hierarchy} {x : Source} {found : List (String × Edit)}

theorem edits_singleton (rule : Rule) {es : List Edit}
    (hcheck : rule.check h x.text x.program = .ok es) :
    x.edits [rule] h = .ok ((Edit.canonical es).map fun e => (rule.name, e)) := by
  rw [edits, List.foldlM_cons, hcheck]
  rfl

theorem pairwise_edits (hrules : rules.length ≤ 1) (hfound : x.edits rules h = .ok found) :
    found.Pairwise fun a b => a.2.Before b.2 := by
  match rules, hrules with
  | [], _ =>
    obtain rfl := Except.ok.inj hfound
    exact .nil
  | [rule], _ =>
    cases hcheck : rule.check h x.text x.program with
    | error e =>
      simp [edits, hcheck, bind, Except.bind] at hfound
    | ok es =>
      obtain rfl := Except.ok.inj ((edits_singleton rule hcheck).symm.trans hfound)
      exact List.pairwise_map.mpr (Edit.pairwise_canonical es)

theorem findings_eq {findings : List Finding} {old new : String}
    (hfound : x.edits rules h = .ok found)
    (hcheck : x.check rules h = .ok (.changed old new findings)) :
    findings = found.map (findingOf x.text) := by
  rw [check, hfound] at hcheck
  cases found with
  | nil => cases hcheck
  | cons first more =>
    dsimp only at hcheck
    split at hcheck
    · cases hcheck
      rfl
    · cases hcheck
    · cases hcheck

/-- The edits of one rule with starts of their own are found at positions that ascend. -/
theorem pairwise_position (hrules : rules.length ≤ 1) (hfound : x.edits rules h = .ok found)
    (hdistinct : (found.map (·.2.span.start)).Nodup)
    (hboundary : ∀ e ∈ found, IsBoundary x.text.toList e.2.span.start) :
    (found.map (findingOf x.text)).Pairwise fun f g => f.position.Before g.position := by
  have hne := List.pairwise_map.mp hdistinct
  refine List.pairwise_map.mpr (((pairwise_edits hrules hfound).and hne).imp_of_mem ?_)
  rintro a b ha hb ⟨hbefore, hstart⟩
  have hlt : a.2.span.start < b.2.span.start := by
    have horder := Edit.precedes_iff.mp hbefore.1
    omega
  exact Position.ofOffset_before (hboundary a ha) (hboundary b hb) hlt

/-- In a well nested program that fits its text, each edit of the rule starts between two characters
and at an offset of its own, and what there is to find is reported. -/
theorem exists_findings (s : Settings) (h : Hierarchy) {ds : List Declaration}
    (hds : x.program.declarations? x.text = some ds) (hn : x.program.WellNested)
    (hf : x.program.Fits x.text) : ∃ found, x.edits [.helperCall s] h = .ok found ∧
      (∀ e, e ∈ found ↔ ∃ c, HelperCall.Rewritable s ⟨h, ds⟩ x.program c ∧
        e = ("faker_helper", HelperCall.edit s c.span)) ∧
      (found.map (·.2.span.start)).Nodup ∧
      (∀ e ∈ found, IsBoundary x.text.toList e.2.span.start) ∧
      (found ≠ [] → ∃ new, x.check [.helperCall s] h =
        .ok (.changed x.text new (found.map (findingOf x.text)))) := by
  obtain ⟨es, hcheck, hbefore, hmem⟩ := HelperCall.exists_check_eq s h hds
  have hmem' : ∀ e ∈ es, ∃ c, HelperCall.Rewritable s ⟨h, ds⟩ x.program c ∧
      e = HelperCall.edit s c.span := fun e he => (hmem e).mp he
  have hedits : x.edits [.helperCall s] h = .ok (es.map fun e => ("faker_helper", e)) := by
    have hedits := edits_singleton (.helperCall s) hcheck
    rwa [Edit.canonical_of_pairwise hbefore] at hedits
  have hsnd : (es.map fun e => ("faker_helper", e)).map (·.2) = es := by
    rw [List.map_map]
    exact List.map_id es
  refine ⟨_, hedits, ?_, ?_, ?_, fun hne => ?_⟩
  · rintro ⟨name, e⟩
    simp only [List.mem_map, hmem, Prod.mk.injEq]
    constructor
    · rintro ⟨_, ⟨c, hc, rfl⟩, rfl, rfl⟩
      exact ⟨c, hc, rfl, rfl⟩
    · rintro ⟨c, hc, rfl, rfl⟩
      exact ⟨_, ⟨c, hc, rfl⟩, rfl, rfl⟩
  · rw [List.map_map]
    exact HelperCall.nodup_start hn hbefore hmem'
  · exact List.forall_mem_map.mpr (HelperCall.isBoundary_start hf hmem')
  · obtain ⟨new, hnew, -⟩ := HelperCall.exists_apply_of_check hn hf hbefore hmem'
    obtain ⟨first, more, hcons⟩ := List.exists_cons_of_ne_nil hne
    refine ⟨new, ?_⟩
    rw [check, hedits, hcons]
    dsimp only
    rw [← hcons, hsnd, hnew]

/-- The position of an offset between two characters counts the lines and the characters of the last
line before it, and reading up to the position leads back to the offset. Later offsets have later
positions, so the findings in a file ascend if its edits start at different offsets. -/
theorem positions_identify (text : String) :
    (∀ before rest, text.toList = before ++ rest →
      Position.ofOffset text (byteLength before) =
        ⟨1 + before.count '\n', 1 + (before.rtakeWhile (· ≠ '\n')).length⟩ ∧
      (Position.ofOffset text (byteLength before)).offset? text = some (byteLength before)) ∧
    (∀ a b, IsBoundary text.toList a → IsBoundary text.toList b → a < b →
      (Position.ofOffset text a).Before (Position.ofOffset text b)) ∧
    ∀ settings rules enabled h program found old new findings, Rule.registry settings = .ok rules →
      enabled.Sublist rules → edits enabled h ⟨text, program⟩ = .ok found →
      (found.map (·.2.span.start)).Nodup →
      (∀ e ∈ found, IsBoundary text.toList e.2.span.start) →
      check enabled h ⟨text, program⟩ = .ok (.changed old new findings) →
        findings.Pairwise fun f g => f.position.Before g.position := by
  refine ⟨fun before rest htext => ⟨?_, Position.offset?_ofOffset htext⟩,
    fun a b ha hb hab => Position.ofOffset_before ha hb hab, ?_⟩
  · rw [Position.ofOffset_length htext, Nat.add_comm, Nat.add_comm _ 1]
  · intro settings rules enabled h program found old new findings hrules henabled hfound hdistinct
      hboundary hcheck
    have hlength : enabled.length ≤ 1 := Rule.length_registry hrules ▸ henabled.length_le
    rw [findings_eq hfound hcheck]
    exact pairwise_position hlength hfound hdistinct hboundary

theorem positions_identify_words :
    Position.ofOffset "é\nü$" 5 = ⟨2, 2⟩ ∧ (⟨2, 2⟩ : Position).offset? "é\nü$" = some 5 ∧
    ∃ findings new, check [.helperCall HelperCall.wordsSettings] .empty
        ⟨HelperCall.wordsSource, HelperCall.wordsProgram⟩ =
          .ok (.changed HelperCall.wordsSource new findings) ∧
      ⟨"faker_helper", 1, 49, HelperCall.message HelperCall.wordsSettings⟩ ∈ findings ∧
      findings.Pairwise fun f g => f.position.Before g.position := by
  obtain ⟨hposition, hoffset⟩ :=
    (positions_identify "é\nü$").1 ['é', '\n', 'ü'] ['$'] (by decide +kernel)
  have hlength : byteLength ['é', '\n', 'ü'] = 5 := by decide +kernel
  have hvalue : (⟨1 + ['é', '\n', 'ü'].count '\n',
      1 + (['é', '\n', 'ü'].rtakeWhile (· ≠ '\n')).length⟩ : Position) = ⟨2, 2⟩ := by decide +kernel
  rw [hlength, hvalue] at hposition
  rw [hlength, hposition] at hoffset
  obtain ⟨found, hfound, hmem, hdistinct, hboundary, hcheck⟩ := exists_findings
    (x := ⟨HelperCall.wordsSource, HelperCall.wordsProgram⟩) HelperCall.wordsSettings .empty
    HelperCall.declarations?_words (by decide +kernel) (by decide +kernel)
  have hfirst := (hmem _).mpr ⟨_, HelperCall.rewritable_words, rfl⟩
  obtain ⟨new, hnew⟩ := hcheck (List.ne_nil_of_mem hfirst)
  refine ⟨hposition, hoffset, _, new, hnew, List.mem_map.mpr ⟨_, hfirst, ?_⟩, ?_⟩
  · decide +kernel
  · exact (positions_identify HelperCall.wordsSource).2.2 HelperCall.wordsSettings _ _ .empty
      HelperCall.wordsProgram found _ new _ rfl (List.Sublist.refl _) hfound hdistinct hboundary hnew

end Source

end FactoryLint
