import FactoryLint.Proofs.Classes.Indexed
import FactoryLint.Proofs.Edit.Canonical
import FactoryLint.Proofs.Php.Declared
import FactoryLint.Proofs.Rule.Edits

namespace FactoryLint.Rule.HelperCall

open Php Rewrite

/-- `c` is used by an expression that is reached from a key or value of an array literal in a
descendant of the base class. -/
def Rewritable (s : Settings) (scope : Scope) (program : Program) (c : Expr) : Prop :=
  ∃ span elements, .expr (.array span elements) ∈ program.stops ∧
    Eligible s (scope.context? span) ∧
    ∃ v ∈ elements.flatMap Element.values, ∃ outer, Reaches v outer ∧ Uses s outer c

variable {s : Settings} {scope : Scope} {h : Hierarchy} {source : String} {program : Program}
  {ds : List Declaration}

theorem mem_literalEdits {span : Span} {elements : List Element} {e : Edit} :
    e ∈ literalEdits s scope (.array span elements) ↔ Eligible s (scope.context? span) ∧
      ∃ v ∈ elements.flatMap Element.values, ∃ outer c, Reaches v outer ∧ Uses s outer c ∧
        e = edit s c.span := by
  have hspan : ∀ {outer c : Expr}, Uses s outer c → c.term.label.span = some c.span := by
    intro outer c hu
    rw [span_label_term, hu.bare_eq]
  rw [literalEdits]
  split_ifs with hel
  · rw [and_iff_right hel]
    constructor
    · intro he
      obtain ⟨place, hplace, rfl⟩ := List.mem_map.mp he
      obtain ⟨u, hu, hs⟩ := List.mem_filterMap.mp hplace
      obtain ⟨v, hv, hu⟩ := List.mem_flatMap.mp hu
      obtain ⟨outer, c, hr, huse, rfl⟩ := (mem_replaced_iff v u).mp hu
      obtain rfl := Option.some.inj ((hspan huse).symm.trans hs)
      exact ⟨v, hv, outer, c, hr, huse, rfl⟩
    · rintro ⟨v, hv, outer, c, hr, huse, rfl⟩
      have hu := (mem_replaced_iff v c.term).mpr ⟨outer, c, hr, huse, rfl⟩
      exact List.mem_map_of_mem
        (List.mem_filterMap.mpr ⟨c.term, List.mem_flatMap.mpr ⟨v, hv, hu⟩, hspan huse⟩)
  · simp [hel]

theorem mem_arrays {e : Expr} :
    e ∈ program.arrays ↔ ∃ span elements, e = .array span elements ∧ .expr e ∈ program.stops := by
  constructor
  · intro he
    obtain ⟨v, hv, ha⟩ := List.mem_filterMap.mp he
    obtain ⟨span, elements, rfl, rfl⟩ := eq_of_array? ha
    exact ⟨span, elements, rfl, hv⟩
  · rintro ⟨span, elements, rfl, hv⟩
    exact List.mem_filterMap.mpr ⟨_, hv, rfl⟩

/-- The edits of the rule, as a set: one for each container that is to be rewritten. -/
theorem exists_check_eq (s : Settings) (h : Hierarchy)
    (hds : program.declarations? source = some ds) :
    ∃ edits, check s h source program = .ok edits ∧ edits.Pairwise Edit.Before ∧
      ∀ e, e ∈ edits ↔ ∃ c, Rewritable s ⟨h, ds⟩ program c ∧ e = edit s c.span := by
  obtain ⟨found, hfound⟩ : ∃ found, found = program.arrays.flatMap (literalEdits s ⟨h, ds⟩) :=
    ⟨_, rfl⟩
  have hmem : ∀ e, e ∈ found ↔ ∃ c, Rewritable s ⟨h, ds⟩ program c ∧ e = edit s c.span := by
    intro e
    rw [hfound, List.mem_flatMap]
    constructor
    · rintro ⟨array, ha, he⟩
      obtain ⟨span, elements, rfl, hv⟩ := mem_arrays.mp ha
      obtain ⟨hel, v, hv', outer, c, hr, hu, rfl⟩ := mem_literalEdits.mp he
      exact ⟨c, ⟨span, elements, hv, hel, v, hv', outer, hr, hu⟩, rfl⟩
    · rintro ⟨c, ⟨span, elements, hv, hel, v, hv', outer, hr, hu⟩, rfl⟩
      exact ⟨_, mem_arrays.mpr ⟨span, elements, rfl, hv⟩,
        mem_literalEdits.mpr ⟨hel, v, hv', outer, c, hr, hu, rfl⟩⟩
  refine ⟨Edit.canonical found, by rw [check_eq s h hds, hfound], Edit.pairwise_canonical found,
    fun e => ⟨fun he => (hmem e).mp (Edit.mem_of_mem_canonical he), ?_⟩⟩
  rintro ⟨c, hc, rfl⟩
  obtain ⟨x, hx, hsame⟩ := Edit.exists_same_of_mem ((hmem _).mpr ⟨c, hc, rfl⟩)
  obtain ⟨c', -, rfl⟩ := (hmem x).mp (Edit.mem_of_mem_canonical hx)
  have hspan : c'.span = c.span := hsame.1
  rwa [hspan] at hx

theorem Rewritable.isContainer {c : Expr} (hc : Rewritable s scope program c) :
    c.IsContainer s := by
  obtain ⟨_, _, _, _, _, _, _, _, hu⟩ := hc
  exact hu.isContainer

theorem Rewritable.mem_stops {c : Expr} (hc : Rewritable s scope program c) :
    .expr c ∈ program.stops := by
  obtain ⟨span, elements, ha, -, v, hv, outer, hr, hu⟩ := hc
  exact mem_stops_of_mem_below ha (mem_below_trans (hr.mem_below_array hv span) hu.mem_below)

theorem Rewritable.start_lt_stop {c : Expr} (hc : Rewritable s scope program c)
    (hn : program.WellNested) : c.span.start < c.span.stop :=
  hc.isContainer.start_lt_stop hn hc.mem_stops

theorem Rewritable.eq_or_disjoint {c c' : Expr} (hc : Rewritable s scope program c)
    (hc' : Rewritable s scope program c') (hn : program.WellNested) :
    c = c' ∨ c.span.stop ≤ c'.span.start ∨ c'.span.stop ≤ c.span.start :=
  hc.isContainer.eq_or_disjoint hc'.isContainer hn hc.mem_stops hc'.mem_stops

theorem exists_map_eq {α β : Type} {f : α → β} {p : α → Prop} {l : List β}
    (h : ∀ b ∈ l, ∃ a, p a ∧ b = f a) : ∃ as : List α, l = as.map f ∧ ∀ a ∈ as, p a := by
  induction l with
  | nil => exact ⟨[], rfl, by simp⟩
  | cons b l ih =>
    obtain ⟨a, ha, rfl⟩ := h b List.mem_cons_self
    obtain ⟨as, rfl, has⟩ := ih fun b hb => h b (List.mem_cons_of_mem _ hb)
    exact ⟨a :: as, rfl, List.forall_mem_cons.mpr ⟨ha, has⟩⟩

theorem stop_le_start_of_before (hn : program.WellNested) {c c' : Expr}
    (hc : Rewritable s scope program c) (hc' : Rewritable s scope program c')
    (hlt : (edit s c.span).Before (edit s c'.span)) : c.span.stop ≤ c'.span.start := by
  have hpos := hc.start_lt_stop hn
  have hpos' := hc'.start_lt_stop hn
  rcases hc.eq_or_disjoint hc' hn with rfl | hle | hle
  · exact absurd ⟨rfl, rfl⟩ hlt.2
  · exact hle
  · have horder := Edit.precedes_iff.mp hlt.1
    simp only [edit] at horder
    omega

theorem eq_of_span_eq (hn : program.WellNested) {c c' : Expr}
    (hc : Rewritable s scope program c) (hc' : Rewritable s scope program c')
    (hspan : c'.span = c.span) : c' = c := by
  have hpos := hc.start_lt_stop hn
  rcases hc.eq_or_disjoint hc' hn with rfl | hle | hle
  · rfl
  · rw [hspan] at hle
    omega
  · rw [hspan] at hle
    omega

/-- Where the program does not stop at an import, the rule gives exactly one edit for each
container that is to be rewritten, and no other. The containers stand in the source one after
another. A program that stops at an import gets no answer. -/
theorem check_eq_containers (s : Settings) (h : Hierarchy) (source : String) (program : Program)
    (hn : program.WellNested) :
    (program.IsLegible source → ∃ (ds : List Declaration) (containers : List Expr),
      program.declarations? source = some ds ∧
      check s h source program = .ok (containers.map fun c => edit s c.span) ∧
      containers.Pairwise (fun c c' => c.span.stop ≤ c'.span.start) ∧
      ∀ c, c ∈ containers ↔ Rewritable s ⟨h, ds⟩ program c) ∧
    (¬program.IsLegible source → check s h source program = .error .imports) := by
  constructor
  · intro hlegible
    obtain ⟨ds, hds⟩ := Option.isSome_iff_exists.mp (isSome_declarations?_iff.mpr hlegible)
    obtain ⟨edits, hcheck, hbefore, hmem⟩ := exists_check_eq s h hds
    obtain ⟨containers, rfl, hall⟩ := exists_map_eq fun e he => (hmem e).mp he
    refine ⟨ds, containers, hds, hcheck, ?_, fun c => ⟨hall c, fun hc => ?_⟩⟩
    · exact (List.pairwise_map.mp hbefore).imp_of_mem fun hc hc' hlt =>
        stop_le_start_of_before hn (hall _ hc) (hall _ hc') hlt
    · obtain ⟨c', hc', he⟩ := List.mem_map.mp ((hmem _).mpr ⟨c, hc, rfl⟩)
      have hspan : c'.span = c.span := congrArg Edit.span he
      exact eq_of_span_eq hn hc (hall c' hc') hspan ▸ hc'
  · intro hlegible
    rw [← isSome_declarations?_iff, Option.not_isSome_iff_eq_none] at hlegible
    exact check_eq_stop s h hlegible

def wordsSource : String :=
  "<?php class A extends F\x7bfunction f()\x7b" ++
    "return[1=>($this->faker)->name(),[$this->faker->word]];\x7d\x7d"

def wordsElements : List Element :=
  [.pair (.literal ⟨44, 45⟩ "1") (.methodCall ⟨47, 69⟩ (.parenthesized ⟨47, 61⟩
    (.property ⟨48, 60⟩ (.variable ⟨48, 53⟩ "this") (some "faker"))) (some "name") []),
  .item (.array ⟨70, 90⟩ [.item (.property ⟨71, 89⟩
    (.property ⟨71, 83⟩ (.variable ⟨71, 76⟩ "this") (some "faker")) (some "word"))])]

def wordsProgram : Program :=
  [.other ⟨0, 5⟩, .classDecl ⟨6, 94⟩ "A" (some "F")
    [.method [.ret ⟨37, 92⟩ (some (.array ⟨43, 91⟩ wordsElements))]]]

def wordsSettings : Settings := { Settings.standard with baseClass := "F" }

def wordsClasses : List Declaration := [⟨"A", some "F", ⟨6, 94⟩⟩]

theorem declarations?_words : wordsProgram.declarations? wordsSource = some wordsClasses := by
  decide +kernel

theorem context?_words :
    (⟨.empty, wordsClasses⟩ : Scope).context? ⟨43, 91⟩ = some ⟨"A", ["F"]⟩ := by
  have hbare : ClassName.bare "F" = "F" := by decide +kernel
  have hunknown : (⟨.empty, wordsClasses⟩ : Scope).parent? "F" = none := by
    rw [Scope.parent?_eq, Hierarchy.parent?_empty]
    decide +kernel
  have hspan : Span.Inside ⟨43, 91⟩ ⟨6, 94⟩ := by decide
  have hcontext := Scope.context?_of_climbs (.to_unknown (by decide +kernel) hunknown) hspan
  rwa [hbare] at hcontext

theorem rewritable_words : Rewritable wordsSettings ⟨.empty, wordsClasses⟩ wordsProgram
    (.property ⟨48, 60⟩ (.variable ⟨48, 53⟩ "this") (some "faker")) := by
  refine ⟨⟨43, 91⟩, wordsElements, ?_, ⟨_, context?_words, "F", List.mem_cons_self, rfl⟩, ?_⟩
  · refine mem_stops.mpr ⟨_, List.mem_cons_of_mem _ List.mem_cons_self, Or.inr ?_⟩
    refine mem_below.mpr ⟨_, List.mem_cons_self, Or.inr ?_⟩
    exact mem_below_of_mem_parts List.mem_cons_self
  · refine ⟨_, List.mem_cons_of_mem _ List.mem_cons_self, _, .refl, ?_⟩
    refine .methodCall ⟨47, 69⟩ (.parenthesized ⟨47, 61⟩ _) (some "name") [] ?_ ?_
    · decide +kernel
    · exact ⟨by decide +kernel, ⟨48, 53⟩, rfl⟩

theorem check_eq_containers_words : ∃ containers : List Expr,
    check wordsSettings .empty wordsSource wordsProgram =
      .ok (containers.map fun c => edit wordsSettings c.span) ∧
    .property ⟨48, 60⟩ (.variable ⟨48, 53⟩ "this") (some "faker") ∈ containers := by
  obtain ⟨ds, containers, hds, hcheck, -, hmem⟩ := (check_eq_containers wordsSettings .empty
    wordsSource wordsProgram (by decide +kernel)).1 (by decide +kernel)
  obtain rfl := Option.some.inj (declarations?_words.symm.trans hds)
  exact ⟨containers, hcheck, (hmem _).mpr rewritable_words⟩

end FactoryLint.Rule.HelperCall
