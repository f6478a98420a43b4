import FactoryLint.Proofs.Classes.Indexed
import FactoryLint.Proofs.Classes.Sharing
import FactoryLint.Proofs.Rule.Applied
import FactoryLint.Proofs.Rule.Pending

namespace FactoryLint

open Php Rule

theorem Hierarchy.extend_congr {ds ds' : List Declaration}
    (h : ds.map Declaration.link = ds'.map Declaration.link) (H : Hierarchy) :
    H.extend ds = H.extend ds' := by
  have hfold : ∀ ds : List Declaration, H.extend ds = (ds.map Declaration.link).foldl
      (fun H link => ⟨H.parents.insert (ClassName.key link.1) link.2⟩) H := by
    intro ds
    rw [List.foldl_map]
    rfl
  rw [hfold, hfold, h]

namespace Source

/-- Both sources declare the same classes, in the same order. -/
def SameClasses (x y : Source) : Prop :=
  (y.program.declarations? y.text).map (List.map Declaration.link) =
    (x.program.declarations? x.text).map (List.map Declaration.link)

theorem SameClasses.map_extend_eq {x y : Source} (h : SameClasses x y) (H : Hierarchy) :
    (y.program.declarations? y.text).map H.extend =
      (x.program.declarations? x.text).map H.extend := by
  unfold SameClasses at h
  cases hx : x.program.declarations? x.text with
  | none =>
    rw [hx] at h
    rw [Option.map_eq_none_iff.mp h]
  | some ds =>
    rw [hx] at h
    obtain ⟨ds', hds', hlinks⟩ := Option.map_eq_some_iff.mp h
    rw [hds', Option.map_some, Option.map_some, Hierarchy.extend_congr hlinks]

theorem index?_ok (sources : List Source) : index? (sources.map .ok) =
    sources.foldlM (fun h x => (x.program.declarations? x.text).map h.extend) .empty := by
  rw [index?, List.foldlM_map]
  rfl

theorem index?_congr {sources fixed : List Source} (h : List.Forall₂ SameClasses sources fixed) :
    index? (fixed.map .ok) = index? (sources.map .ok) := by
  have hfold : ∀ H : Hierarchy,
      fixed.foldlM (fun h x => (x.program.declarations? x.text).map h.extend) H =
        sources.foldlM (fun h x => (x.program.declarations? x.text).map h.extend) H := by
    induction h with
    | nil => exact fun _ => rfl
    | cons hxy _ ih =>
      intro H
      rw [List.foldlM_cons, List.foldlM_cons, hxy.map_extend_eq]
      exact Option.bind_congr fun H' _ => ih H'
  rw [index?_ok, index?_ok]
  exact hfold .empty

/-- What the parser is relied on for in a source. -/
structure Parsed (parse : String → Option Program) (function : String) (x : Source) : Prop where
  parsed : parse x.text = some x.program
  calls : ReadsCalls parse function x.text
  nested : x.program.WellNested
  fits : x.program.Fits x.text

/-- The edits of the rule for `x` can be made, and `y` is what comes out. -/
def Fixes (parse : String → Option Program) (s : Settings) (h : Hierarchy) (x y : Source) : Prop :=
  parse y.text = some y.program ∧ ∃ edits, HelperCall.check s h x.text x.program = .ok edits ∧
    Edit.apply x.text edits = .ok y.text

variable {parse : String → Option Program} {s : Settings} {h : Hierarchy} {x : Source}

theorem Parsed.forward {function : String} (hx : x.Parsed parse function) :
    x.program.Forward := by
  intro v hv
  obtain ⟨covered, hcovered⟩ := Option.isSome_iff_exists.mp (hx.fits v hv)
  obtain ⟨_, _, -, -, hstop⟩ := Text.slice?_eq_some hcovered
  omega

theorem exists_fixes (hx : x.Parsed parse s.helperFunction) {ds : List Declaration}
    (hds : x.program.declarations? x.text = some ds)
    (hheads : ∀ c, HelperCall.Rewritable s ⟨h, ds⟩ x.program c →
      x.program.HeadsEnd x.text c.span) :
    ∃ y, Fixes parse s h x y ∧ SameClasses x y ∧
      HelperCall.check s h y.text y.program = .ok [] := by
  obtain ⟨edits, hcheck, hbefore, hmem⟩ := HelperCall.exists_check_eq s h hds
  have hmem' : ∀ e ∈ edits, ∃ c, HelperCall.Rewritable s ⟨h, ds⟩ x.program c ∧
      e = HelperCall.edit s c.span := fun e he => (hmem e).mp he
  obtain ⟨text, htext, -⟩ := HelperCall.exists_apply_of_check hx.nested hx.fits hbefore hmem'
  have hends := HelperCall.pairwise_endsBefore hx.nested hbefore hmem'
  have hpos := HelperCall.start_lt_stop_of_edit hx.nested hmem'
  -- Edits are made from the back, so that is the order in which the calls take their places.
  have hedits : (edits.reverse.map Edit.span).map (HelperCall.edit s) = edits.reverse := by
    rw [List.map_map]
    refine (List.map_congr_left fun e he => ?_).trans (List.map_id _)
    obtain ⟨c, -, rfl⟩ := hmem' e (List.mem_reverse.mp he)
    rfl
  have hout : Edit.spliceAll x.text.toList
      ((edits.reverse.map Edit.span).map (HelperCall.edit s)) = .ok text.toList := by
    rw [hedits, ← Edit.backToFront_eq_reverse hends hpos]
    exact (Edit.of_apply_eq_ok htext).2
  have horder : (edits.reverse.map Edit.span).Pairwise fun a b => b.stop ≤ a.start :=
    List.pairwise_map.mpr (List.pairwise_reverse.mpr hends)
  have hpending := HelperCall.Pending.of_edits hx.parsed hds hx.calls hx.nested hx.forward hmem hheads
  obtain ⟨ds', program, hdone, hlinks⟩ := hpending.run horder hout
  refine ⟨⟨text, program⟩, ⟨hdone.parsed, _, hcheck, htext⟩, ?_, hdone.check_eq_nil⟩
  rw [SameClasses, hds, hdone.classes, Option.map_some, Option.map_some, hlinks]

/-- If no container that is to be rewritten stands in what the name of a namespace is read off,
then one pass over a project that has an index does it: it has the same classes as before, and the
rule finds nothing more in it. -/
theorem exists_fixes_index (parse : String → Option Program) (s : Settings)
    (sources : List Source) (hsources : ∀ x ∈ sources, x.Parsed parse s.helperFunction)
    (h : Hierarchy) (hindex : index? (sources.map .ok) = some h)
    (hheads : ∀ x ∈ sources, ∀ ds, x.program.declarations? x.text = some ds →
      ∀ c, HelperCall.Rewritable s ⟨h, ds⟩ x.program c → x.program.HeadsEnd x.text c.span) :
    ∃ fixed, List.Forall₂ (Fixes parse s h) sources fixed ∧
      index? (fixed.map .ok) = some h ∧
      ∀ y ∈ fixed, HelperCall.check s h y.text y.program = .ok [] := by
  have hall : ∀ xs : List Source, (∀ x ∈ xs, x ∈ sources) → ∃ fixed,
      List.Forall₂ (Fixes parse s h) xs fixed ∧ List.Forall₂ SameClasses xs fixed ∧
      ∀ y ∈ fixed, HelperCall.check s h y.text y.program = .ok [] := by
    intro xs
    induction xs with
    | nil => exact fun _ => ⟨[], .nil, .nil, by simp⟩
    | cons x xs ih =>
      intro hxs
      have hx := hxs x List.mem_cons_self
      have hlegible := Hierarchy.isSome_index?_iff.mp (Option.isSome_of_eq_some hindex) x
        (List.mem_map_of_mem hx)
      obtain ⟨ds, hds⟩ := Option.isSome_iff_exists.mp (isSome_declarations?_iff.mpr hlegible)
      obtain ⟨y, hfix, hsame, hcheck⟩ := exists_fixes (hsources x hx) hds (hheads x hx ds hds)
      obtain ⟨ys, hfixes, hsames, hchecks⟩ := ih fun z hz => hxs z (List.mem_cons_of_mem _ hz)
      exact ⟨y :: ys, .cons hfix hfixes, .cons hsame hsames,
        List.forall_mem_cons.mpr ⟨hcheck, hchecks⟩⟩
  obtain ⟨fixed, hfixes, hsames, hchecks⟩ := hall sources fun _ hx => hx
  exact ⟨fixed, hfixes, (index?_congr hsames).trans hindex, hchecks⟩

/-- A class, and in another file of its namespace a descendant with a container. -/
def baseText : String := "<?php namespace N;class B extends \\F\x7b\x7d"

def wordText : String :=
  "<?php namespace N;class A extends B\x7bfunction f()\x7breturn[$this->faker->word];\x7d\x7d"

def calledText : String :=
  "<?php namespace N;class A extends B\x7bfunction f()\x7breturn[fake()->word];\x7d\x7d"

def baseProgram : Program :=
  [.other ⟨0, 5⟩, .namespaceDecl ⟨6, 38⟩ [.classDecl ⟨18, 38⟩ "B" (some "\\F") []]]

def wordContainer : Expr := .property ⟨56, 68⟩ (.variable ⟨56, 61⟩ "this") (some "faker")

def wordProgram : Program :=
  [.other ⟨0, 5⟩, .namespaceDecl ⟨6, 78⟩ [.classDecl ⟨18, 78⟩ "A" (some "B")
    [.method [.ret ⟨49, 76⟩ (some (.array ⟨55, 75⟩
      [.item (.property ⟨56, 74⟩ wordContainer (some "word"))]))]]]]

def calledProgram : Program :=
  [.other ⟨0, 5⟩, .namespaceDecl ⟨6, 72⟩ [.classDecl ⟨18, 72⟩ "A" (some "B")
    [.method [.ret ⟨49, 70⟩ (some (.array ⟨55, 69⟩ [.item (.property ⟨56, 68⟩
      (.call ⟨56, 62⟩ (.name ⟨56, 60⟩ "fake") []) (some "word"))]))]]]]

def readWords (text : String) : Option Program :=
  if text = baseText then some baseProgram
  else if text = wordText then some wordProgram
  else if text = calledText then some calledProgram
  else none

theorem patch_wordProgram : wordProgram.patch ⟨56, 68⟩ "fake" = calledProgram := by
  have hname : Text.byteLength ['f', 'a', 'k', 'e'] = 4 := by decide
  have hlength : callLength "fake" = 6 := by decide
  simp [wordProgram, wordContainer, calledProgram, Program.patch, Span.moved, Span.shift, hname,
    hlength, Expr.isAt, Expr.isVariable, Expr.bare, callAt, calleeAt]

theorem eq_of_hasObjectAt {place : Span} (h : wordProgram.HasObjectAt place) :
    place = ⟨56, 68⟩ := by
  obtain ⟨outer, object, ho, he, hat⟩ := h
  have houter : outer = .property ⟨56, 74⟩ wordContainer (some "word") ∨
      outer = wordContainer ∨ ∀ object, outer.object? ≠ some object := by
    simp [Program.stops, wordProgram, Program.visits, stmtVisits, Stmt.inside, memberVisits,
      Expr.inside, elementVisits, Visited.lead, wordContainer] at ho
    rcases ho with rfl | rfl | rfl | rfl <;> simp [Expr.object?, wordContainer]
  rcases houter with rfl | rfl | hnone
  · cases he
    simpa [wordContainer, Expr.bare, Expr.isAt, Expr.isVariable, eq_comm] using hat
  · cases he
    cases hat
  · exact absurd he (hnone object)

theorem not_hasObjectAt_base {place : Span} : ¬baseProgram.HasObjectAt place := by
  rintro ⟨outer, object, ho, -, -⟩
  simp [Program.stops, baseProgram, Program.visits, stmtVisits, Stmt.inside, memberVisits,
      Visited.lead] at ho

theorem not_hasObjectAt_called {place : Span} : ¬calledProgram.HasObjectAt place := by
  rintro ⟨outer, object, ho, he, hat⟩
  simp [Program.stops, calledProgram, Program.visits, stmtVisits, Stmt.inside, memberVisits,
    Expr.inside, elementVisits, exprVisits, Visited.lead] at ho
  rcases ho with rfl | rfl | rfl | rfl <;> cases he
  cases hat

theorem parsed_base : Parsed readWords "fake" ⟨baseText, baseProgram⟩ where
  parsed := by rw [readWords, if_pos rfl]
  calls := by
    refine ReadsCalls.of_closed (p := (· = baseText)) rfl ?_
    rintro t rfl program place t' hparse hobject -
    rw [readWords, if_pos rfl] at hparse
    cases hparse
    exact absurd hobject not_hasObjectAt_base
  nested := by decide +kernel
  fits := by decide +kernel

theorem parsed_word : Parsed readWords "fake" ⟨wordText, wordProgram⟩ where
  parsed := by
    rw [readWords, if_neg (by decide +kernel), if_pos rfl]
  calls := by
    refine ReadsCalls.of_closed (p := fun t => t = wordText ∨ t = calledText) (Or.inl rfl) ?_
    have hword : readWords wordText = some wordProgram := by
      rw [readWords, if_neg (by decide +kernel), if_pos rfl]
    have hcalled : readWords calledText = some calledProgram := by
      rw [readWords, if_neg (by decide +kernel), if_neg (by decide +kernel), if_pos rfl]
    rintro t (rfl | rfl) program place t' hparse hobject hreplace
    · cases hword.symm.trans hparse
      obtain rfl := eq_of_hasObjectAt hobject
      have hreplaced : Text.replace? wordText.toList ⟨56, 68⟩ (Rewrite.callText "fake").toList =
        some calledText.toList := by decide +kernel
      obtain rfl : calledText = t' :=
        String.toList_inj.mp (Option.some.inj (hreplaced.symm.trans hreplace))
      exact ⟨Or.inr rfl, patch_wordProgram ▸ hcalled⟩
    · cases hcalled.symm.trans hparse
      exact absurd hobject not_hasObjectAt_called
  nested := by decide +kernel
  fits := by decide +kernel

theorem headsEnd_word : wordProgram.HeadsEnd wordText ⟨56, 68⟩ := by
  intro span body h _
  obtain rfl : span = ⟨6, 78⟩ := by
    simp [wordProgram, Program.visits, stmtVisits, Stmt.inside, memberVisits,
      Visited.lead, entersStatements] at h
    exact h.1
  refine ⟨';', by decide +kernel, Or.inr rfl⟩

def wordsProject : List Source := [⟨baseText, baseProgram⟩, ⟨wordText, wordProgram⟩]

def wordsIndex : Hierarchy :=
  (Hierarchy.empty.register ⟨"N\\B", some "F", ⟨18, 38⟩⟩).register
    ⟨"N\\A", some "N\\B", ⟨18, 78⟩⟩

def wordClasses : List Declaration := [⟨"N\\A", some "N\\B", ⟨18, 78⟩⟩]

theorem declarations?_base_word :
    baseProgram.declarations? baseText = some [⟨"N\\B", some "F", ⟨18, 38⟩⟩] ∧
      wordProgram.declarations? wordText = some wordClasses := by
  decide +kernel

theorem index?_words : index? (wordsProject.map .ok) = some wordsIndex := by
  simp [wordsProject, index?, extendBy?, declarations?_base_word, Hierarchy.extend, wordsIndex,
    wordClasses]

theorem context?_word : (⟨wordsIndex, wordClasses⟩ : Scope).context? ⟨55, 75⟩ =
    some ⟨"N\\A", ["N\\B", "F"]⟩ := by
  have hkeys : ClassName.key "N\\A" ≠ ClassName.key "N\\B" ∧
      ClassName.key "N\\A" ≠ ClassName.key "F" ∧ ClassName.key "N\\B" ≠ ClassName.key "F" := by
    decide +kernel
  have hbare : ClassName.bare "N\\B" = "N\\B" ∧ ClassName.bare "F" = "F" := by decide +kernel
  have hparent : (⟨wordsIndex, wordClasses⟩ : Scope).parent? "N\\B" = some (some "F") := by
    simp [Scope.parent?, wordsIndex, wordClasses, Hierarchy.parent?_register, hkeys]
  have hunknown : (⟨wordsIndex, wordClasses⟩ : Scope).parent? "F" = none := by
    simp [Scope.parent?, wordsIndex, wordClasses, Hierarchy.parent?_register,
      Hierarchy.parent?_empty, hkeys]
  have hspan : Span.Inside ⟨55, 75⟩ ⟨18, 78⟩ := by decide
  have hcontext := Scope.context?_of_climbs
    (.to_parent (by decide +kernel) hparent (.to_unknown (by decide +kernel) hunknown)) hspan
  rwa [hbare.1, hbare.2] at hcontext

theorem rewritable_word : HelperCall.Rewritable HelperCall.wordsSettings
    ⟨wordsIndex, wordClasses⟩ wordProgram wordContainer := by
  refine ⟨⟨55, 75⟩, [.item (.property ⟨56, 74⟩ wordContainer (some "word"))], ?_,
    ⟨_, context?_word, "F", by decide +kernel⟩, _, List.mem_cons_self, _, .refl, ?_⟩
  · simp [Program.stops, wordProgram, Program.visits, stmtVisits, Stmt.inside, memberVisits,
      Visited.lead]
  · exact .property ⟨56, 74⟩ wordContainer (some "word") ⟨by decide +kernel, ⟨56, 61⟩, rfl⟩

theorem exists_fixes_index_words :
    HelperCall.Rewritable HelperCall.wordsSettings ⟨wordsIndex, wordClasses⟩ wordProgram
      wordContainer ∧
    ∃ fixed, List.Forall₂ (Fixes readWords HelperCall.wordsSettings wordsIndex) wordsProject
        fixed ∧
      index? (fixed.map .ok) = some wordsIndex ∧
      ∀ y ∈ fixed, HelperCall.check HelperCall.wordsSettings wordsIndex y.text y.program =
        .ok [] := by
  refine ⟨rewritable_word, exists_fixes_index readWords HelperCall.wordsSettings wordsProject ?_
    wordsIndex index?_words ?_⟩
  · exact List.forall_mem_cons.mpr ⟨parsed_base, List.forall_mem_singleton.mpr parsed_word⟩
  · refine List.forall_mem_cons.mpr
      ⟨fun ds _ c hc => ?_, List.forall_mem_singleton.mpr fun ds _ c hc => ?_⟩
    · exact absurd hc.hasObjectAt not_hasObjectAt_base
    · rw [eq_of_hasObjectAt hc.hasObjectAt]
      exact headsEnd_word

end Source

end FactoryLint
