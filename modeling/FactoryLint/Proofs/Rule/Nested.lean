import FactoryLint.Proofs.Edit.AnyOrder
import FactoryLint.Proofs.Rule.Gate

namespace FactoryLint.Php

variable {program : Program} {source : String} {ds : List Declaration}

theorem enclosing?_of_mem_below (hn : program.WellNested)
    (hds : program.declarations? source = some ds) {outer inner : Expr}
    (houter : .expr outer ∈ program.stops) (hinner : .expr inner ∈ (Visited.expr outer).below)
    (hspan : inner.span.start < inner.span.stop) (h : Hierarchy) :
    (⟨h, ds⟩ : Scope).enclosing? inner.span = (⟨h, ds⟩ : Scope).enclosing? outer.span := by
  have hin : inner.span.Inside outer.span := hn.span_inside houter hinner
  have hiff : ∀ d ∈ ds, inner.span.Inside d.span ↔ outer.span.Inside d.span := by
    intro d hd
    refine ⟨fun hid => ?_, hin.trans⟩
    obtain ⟨c, hc⟩ := (mem_declarations hds).mp hd
    obtain ⟨⟨-, hstop, -⟩, hopen⟩ :=
      hc.isAround hn (mem_stops_of_mem_below houter hinner) hspan hid
    rw [hc.isClass.2] at hid ⊢
    unfold Span.Inside at hin hid
    -- The class is open, so it is not inside the outer expression, and it shares room with that.
    rcases hn.leads hstop houter with he | (hb | ho) | (hb | ho)
    · cases he
    · exact hn.span_inside hstop hb
    · have ho : c.span.stop ≤ outer.span.start := ho
      omega
    · exact absurd hb (hopen outer houter)
    · have ho : outer.span.stop ≤ c.span.start := ho
      omega
  rw [Scope.enclosing?, Scope.enclosing?,
    List.filter_congr fun d hd => decide_eq_decide.mpr (hiff d hd)]

theorem context?_of_mem_below (hn : program.WellNested)
    (hds : program.declarations? source = some ds) {outer inner : Expr}
    (houter : .expr outer ∈ program.stops) (hinner : .expr inner ∈ (Visited.expr outer).below)
    (hspan : inner.span.start < inner.span.stop) (h : Hierarchy) :
    (⟨h, ds⟩ : Scope).context? inner.span = (⟨h, ds⟩ : Scope).context? outer.span := by
  rw [Scope.context?, Scope.context?, enclosing?_of_mem_below hn hds houter hinner hspan]

theorem mem_arrays_of_reaches {outer : Expr} (houter : outer ∈ program.arrays) {span : Span}
    {elements : List Element} (hr : Reaches outer (.array span elements)) :
    .array span elements ∈ program.arrays := by
  obtain ⟨_, _, -, hstop⟩ := Rule.HelperCall.mem_arrays.mp houter
  refine Rule.HelperCall.mem_arrays.mpr ⟨span, elements, rfl, ?_⟩
  rcases hr.eq_or_mem_below with he | hb
  · rwa [he]
  · exact mem_stops_of_mem_below hstop hb

end FactoryLint.Php

namespace FactoryLint.Rule.HelperCall

open Php
open Relation (ReflTransGen)

variable {s : Settings} {h : Hierarchy} {source : String} {program : Program}
  {ds : List Declaration}

/-- What is read at `root'` is what is read at `id` below `root`, and it stands in the same place. -/
structure Repeats (a : Arena) (root id root' : NodeId) : Prop where
  reads : ∃ t, a.Reads id t ∧ a.Reads root' t
  own : root' = root → id = root
  spans : ∃ span, a.span? id = some span ∧ a.span? root' = some span

/-- If what stands at `id` takes any room, the same class is resolved for it as for the whole. -/
def SameClass (a : Arena) (scope : Scope) (root id : NodeId) : Prop :=
  ∃ outer inner, a.span? root = some outer ∧ a.span? id = some inner ∧
    (inner.start < inner.stop → scope.enclosing? inner = scope.enclosing? outer)

/-- The list holds array literals of the program, from which all of them are reached. -/
structure Suffices (program : Program) (kept : List Expr) : Prop where
  subset : kept ⊆ program.arrays
  reached : ∀ inner ∈ program.arrays, ∃ outer ∈ kept, Reaches outer inner

theorem message_of_mem_literalEdits {scope : Scope} {literal : Expr} {e : Edit}
    (he : e ∈ literalEdits s scope literal) : e.message = message s := by
  unfold literalEdits at he
  split at he
  · split_ifs at he
    · obtain ⟨span, -, rfl⟩ := List.mem_map.mp he
      rfl
    · cases he
  · cases he

theorem literalEdits_subset (hn : program.WellNested)
    (hds : program.declarations? source = some ds) {outer inner : Expr}
    (houter : outer ∈ program.arrays) (hinner : inner ∈ program.arrays)
    (hr : Reaches outer inner) : literalEdits s ⟨h, ds⟩ inner ⊆ literalEdits s ⟨h, ds⟩ outer := by
  obtain ⟨span, elements, rfl, hstop⟩ := mem_arrays.mp houter
  obtain ⟨span', elements', rfl, hstop'⟩ := mem_arrays.mp hinner
  rcases ReflTransGen.cases_head hr with he | ⟨v, hv, hreach⟩
  · rw [he]
    exact List.Subset.refl _
  have hreach : Reaches v (.array span' elements') := hreach
  intro e he
  obtain ⟨hel, v', hv', x, c, hx, huse, rfl⟩ := mem_literalEdits.mp he
  have hc : .expr c ∈ (Visited.expr (.array span' elements')).below :=
    mem_below_trans (hx.mem_below_array hv' span') huse.mem_below
  have hpos := huse.isContainer.start_lt_stop hn (mem_stops_of_mem_below hstop' hc)
  have hin : c.span.Inside span' := hn.span_inside hstop' hc
  have hspan : span'.start < span'.stop := by
    unfold Span.Inside at hin
    omega
  have hcontext : (⟨h, ds⟩ : Scope).context? span' = (⟨h, ds⟩ : Scope).context? span :=
    context?_of_mem_below hn hds hstop (hreach.mem_below_array hv span) hspan h
  rw [hcontext] at hel
  exact mem_literalEdits.mpr ⟨hel, v, hv, x, c, hreach.trans (.head hv' hx), huse, rfl⟩

theorem exists_repeats {outer : Expr} {root id : NodeId} {items : List NodeId}
    (hroot : (outer, root) ∈ program.arrays.zip program.lower.1)
    (hid : ReflTransGen program.lower.2.Child root id)
    (hshape : program.lower.2.shape? id = some (.arrayLiteral items)) :
    ∃ inner root', (inner, root') ∈ program.arrays.zip program.lower.1 ∧ Reaches outer inner ∧
      Repeats program.lower.2 root id root' := by
  obtain ⟨hlength, hreads⟩ := List.forall₂_iff_zip.mp (reads_lowerExprs program.arrays)
  have hread : program.lower.2.Reads root outer.term := hreads hroot
  obtain ⟨span, elements, hr, hreadId⟩ :=
    exists_reaches_of_shape? hread hid hshape
  have houter := (List.of_mem_zip hroot).1
  have hinner : Expr.array span elements ∈ program.arrays := mem_arrays_of_reaches houter hr
  rw [← List.map_fst_zip (Nat.le_of_eq hlength)] at hinner
  obtain ⟨⟨inner, root'⟩, hroot', rfl⟩ := List.mem_map.mp hinner
  have hread' : program.lower.2.Reads root' (Expr.array span elements).term := hreads hroot'
  refine ⟨_, root', hroot', hr, ⟨_, hreadId, hread'⟩, fun hown => ?_, span, ?_, ?_⟩
  · -- The literal would have a term that is shorter than itself.
    rcases Relation.reflTransGen_iff_eq_or_transGen.mp hid with he | hbelow
    · exact he
    · have hlt := hread.length_labels_lt hreadId hbelow
      rw [hown] at hread'
      rw [hread.unique hread'] at hlt
      exact absurd hlt (Nat.lt_irrefl _)
  · exact hreadId.span?_eq.trans (span_label_term _)
  · exact hread'.span?_eq.trans (span_label_term _)

theorem sameClass_of_reaches (hn : program.WellNested)
    (hds : program.declarations? source = some ds) (h : Hierarchy) {outer inner : Expr}
    {root id root' : NodeId} (hroot : (outer, root) ∈ program.arrays.zip program.lower.1)
    (hroot' : (inner, root') ∈ program.arrays.zip program.lower.1) (hr : Reaches outer inner)
    (hrepeats : Repeats program.lower.2 root id root') :
    SameClass program.lower.2 ⟨h, ds⟩ root id := by
  obtain ⟨-, hspans⟩ := List.forall₂_iff_zip.mp (span?_lower program)
  obtain ⟨span, hid, hspan⟩ := hrepeats.spans
  obtain rfl := Option.some.inj ((hspans hroot').symm.trans hspan)
  refine ⟨outer.span, inner.span, hspans hroot, hid, fun hpos => ?_⟩
  obtain ⟨_, _, -, hstop⟩ := mem_arrays.mp (List.of_mem_zip hroot).1
  rcases hr.eq_or_mem_below with rfl | hbelow
  · rfl
  · exact enclosing?_of_mem_below hn hds hstop hbelow hpos h

theorem exists_rewriteRoots_of_suffices (hn : program.WellNested)
    (hds : program.declarations? source = some ds) (s : Settings) (h : Hierarchy)
    {kept : List Expr} (hkept : Suffices program kept) : ∃ found,
      rewriteRoots s ⟨h, ds⟩ source (lowerExprs kept .empty).2 (lowerExprs kept .empty).1 =
        .ok found ∧
      check s h source program = .ok (Edit.canonical found) := by
  refine ⟨_, rewriteRoots_lowerExprs s _ source fun e he => exists_eq_array (hkept.subset he), ?_⟩
  have hmem : ∀ e, e ∈ kept.flatMap (literalEdits s ⟨h, ds⟩) ↔
      e ∈ program.arrays.flatMap (literalEdits s ⟨h, ds⟩) := by
    intro e
    rw [List.mem_flatMap, List.mem_flatMap]
    constructor
    · rintro ⟨outer, ho, he⟩
      exact ⟨outer, hkept.subset ho, he⟩
    · rintro ⟨inner, hi, he⟩
      obtain ⟨outer, ho, hr⟩ := hkept.reached inner hi
      exact ⟨outer, ho, literalEdits_subset hn hds (hkept.subset ho) hi hr he⟩
  have hmessage : ∀ e ∈ program.arrays.flatMap (literalEdits s ⟨h, ds⟩), e.message = message s := by
    intro e he
    obtain ⟨literal, -, he⟩ := List.mem_flatMap.mp he
    exact message_of_mem_literalEdits he
  rw [check_eq s h hds, Edit.canonical_eq_of_mem_iff hmessage hmem]

/-- Every array literal below a root is lowered once more as a root of its own. When both are
rewritten, the same class is resolved for them, and all edits for the inner one are among those for
the outer one. So the rule finds the same edits when it is given any array literals from which all
are reached. -/
theorem edits_nested (s : Settings) (h : Hierarchy) (source : String) (program : Program)
    (hn : program.WellNested) :
    (∀ root ∈ program.lower.1, ∀ id items, ReflTransGen program.lower.2.Child root id →
      program.lower.2.shape? id = some (.arrayLiteral items) →
        ∃ root' ∈ program.lower.1, Repeats program.lower.2 root id root') ∧
    ∀ ds, program.declarations? source = some ds → ∃ produced,
      rewriteEach s ⟨h, ds⟩ source program.lower.2 program.lower.1 = .ok produced ∧
      rewriteRoots s ⟨h, ds⟩ source program.lower.2 program.lower.1 = .ok produced.flatten ∧
      check s h source program = .ok (Edit.canonical produced.flatten) ∧
      produced.length = program.lower.1.length ∧
      (∀ edits root, (edits, root) ∈ produced.zip program.lower.1 →
        ∀ id items, ReflTransGen program.lower.2.Child root id →
          program.lower.2.shape? id = some (.arrayLiteral items) →
            ∃ edits' root', (edits', root') ∈ produced.zip program.lower.1 ∧ edits' ⊆ edits ∧
              Repeats program.lower.2 root id root' ∧
              SameClass program.lower.2 ⟨h, ds⟩ root id) ∧
      ∀ kept, Suffices program kept → ∃ found,
        rewriteRoots s ⟨h, ds⟩ source (lowerExprs kept .empty).2 (lowerExprs kept .empty).1 =
          .ok found ∧
        check s h source program = .ok (Edit.canonical found) := by
  have harrays : ∀ e ∈ program.arrays, ∃ span elements, e = .array span elements :=
    fun e he => exists_eq_array he
  constructor
  · intro root hroot id items hid hshape
    have hlength : program.arrays.length = program.lower.1.length :=
      (reads_lowerExprs program.arrays).length_eq
    rw [← List.map_snd_zip (Nat.le_of_eq hlength.symm)] at hroot
    obtain ⟨⟨outer, root⟩, hmem, rfl⟩ := List.mem_map.mp hroot
    obtain ⟨inner, root', hmem', -, hrepeats⟩ := exists_repeats hmem hid hshape
    exact ⟨root', (List.of_mem_zip hmem').2, hrepeats⟩
  intro ds hds
  refine ⟨program.arrays.map (literalEdits s ⟨h, ds⟩), ?_, ?_, ?_, ?_, ?_,
    fun kept hkept => exists_rewriteRoots_of_suffices hn hds s h hkept⟩
  · exact rewriteEach_lowerExprs s _ source harrays
  · rw [← List.flatMap_def]
    exact rewriteRoots_lowerExprs s _ source harrays
  · rw [check_eq s h hds, List.flatMap_def]
  · rw [List.length_map]
    exact (reads_lowerExprs program.arrays).length_eq
  · intro edits root hroot id items hid hshape
    rw [List.zip_map_left] at hroot ⊢
    obtain ⟨⟨outer, root⟩, hmem, he⟩ := List.mem_map.mp hroot
    cases he
    obtain ⟨inner, root', hmem', hr, hrepeats⟩ := exists_repeats hmem hid hshape
    refine ⟨_, root', List.mem_map.mpr ⟨(inner, root'), hmem', rfl⟩, ?_, hrepeats,
      sameClass_of_reaches hn hds h hmem hmem' hr hrepeats⟩
    exact literalEdits_subset hn hds (List.of_mem_zip hmem).1 (List.of_mem_zip hmem').1 hr

def wordsNested : List Element :=
  [.item (.property ⟨71, 89⟩ (.property ⟨71, 83⟩ (.variable ⟨71, 76⟩ "this") (some "faker"))
    (some "word"))]

theorem arrays_words : wordsProgram.arrays =
    [.array ⟨43, 91⟩ wordsElements, .array ⟨70, 90⟩ wordsNested] := rfl

theorem mem_parts_words :
    .array ⟨70, 90⟩ wordsNested ∈ (Expr.array ⟨43, 91⟩ wordsElements).parts := by
  simp [Expr.parts, wordsElements, wordsNested, Element.values]

theorem suffices_words : Suffices wordsProgram [.array ⟨43, 91⟩ wordsElements] := by
  refine ⟨?_, fun inner hinner => ⟨_, List.mem_singleton_self _, ?_⟩⟩
  · rw [arrays_words]
    exact List.cons_subset_cons _ (List.nil_subset _)
  · rw [arrays_words, List.mem_pair] at hinner
    rcases hinner with rfl | rfl
    · exact .refl
    · exact .single mem_parts_words

theorem mem_literalEdits_words : edit wordsSettings ⟨71, 83⟩ ∈ literalEdits wordsSettings
    ⟨.empty, wordsClasses⟩ (.array ⟨70, 90⟩ wordsNested) := by
  have hn : wordsProgram.WellNested := by decide +kernel
  obtain ⟨_, _, -, hstop⟩ := mem_arrays.mp (arrays_words ▸ List.mem_cons_self)
  have hcontext : (⟨.empty, wordsClasses⟩ : Scope).context? ⟨70, 90⟩ = some ⟨"A", ["F"]⟩ :=
    (context?_of_mem_below hn declarations?_words hstop
      (mem_below_of_mem_expr_parts mem_parts_words) (by decide) .empty).trans context?_words
  refine mem_literalEdits.mpr ⟨⟨_, hcontext, "F", List.mem_cons_self, rfl⟩, _, List.mem_cons_self,
    _, _, .refl, .property ⟨71, 89⟩ (.property ⟨71, 83⟩ _ (some "faker")) (some "word") ?_, rfl⟩
  exact ⟨by decide +kernel, ⟨71, 76⟩, rfl⟩

theorem edits_nested_words : ∃ edits edits' found,
    rewriteEach wordsSettings ⟨.empty, wordsClasses⟩ wordsSource wordsProgram.lower.2 [11, 16] =
      .ok [edits, edits'] ∧
    edit wordsSettings ⟨71, 83⟩ ∈ edits' ∧ edits' ⊆ edits ∧
    Repeats wordsProgram.lower.2 11 9 16 ∧
    SameClass wordsProgram.lower.2 ⟨.empty, wordsClasses⟩ 11 9 ∧
    rewriteRoots wordsSettings ⟨.empty, wordsClasses⟩ wordsSource
      (lowerExprs [.array ⟨43, 91⟩ wordsElements] .empty).2
      (lowerExprs [.array ⟨43, 91⟩ wordsElements] .empty).1 = .ok found ∧
    check wordsSettings .empty wordsSource wordsProgram = .ok (Edit.canonical found) := by
  have hroots : wordsProgram.lower.1 = [11, 16] := by decide +kernel
  have hshape : wordsProgram.lower.2.shape? 9 = some (.arrayLiteral [8]) := by decide +kernel
  have hitem : wordsProgram.lower.2.Child 10 9 := by
    unfold Arena.Child
    decide +kernel
  have helement : wordsProgram.lower.2.Child 11 10 := by
    unfold Arena.Child
    decide +kernel
  obtain ⟨produced, hproduced, -, -, hlength, hnested, hkept⟩ := (edits_nested wordsSettings .empty
    wordsSource wordsProgram (by decide +kernel)).2 _ declarations?_words
  obtain ⟨found, hfound, hcheck⟩ := hkept _ suffices_words
  have hlists : rewriteEach wordsSettings ⟨.empty, wordsClasses⟩ wordsSource wordsProgram.lower.2
      wordsProgram.lower.1 = .ok (wordsProgram.arrays.map _) :=
    rewriteEach_lowerExprs _ _ _ fun e he => exists_eq_array he
  rw [hroots] at hproduced hlength hnested hlists
  obtain ⟨edits, edits', rfl⟩ := List.length_eq_two.mp hlength
  rw [hproduced, arrays_words] at hlists
  obtain ⟨inner, root', hmem, hsubset, hrepeats, hclass⟩ := hnested edits 11 List.mem_cons_self 9
    [8] (.tail (.single helement) hitem) hshape
  rcases List.mem_pair.mp hmem with he | he <;> cases he
  · exact absurd (hrepeats.own rfl) (by decide)
  · refine ⟨edits, edits', found, hproduced, ?_, hsubset, hrepeats, hclass, hfound, hcheck⟩
    cases hlists
    exact mem_literalEdits_words

end FactoryLint.Rule.HelperCall
