import FactoryLint.Proofs.Rule.Gate
import FactoryLint.Proofs.Tree.Place

namespace FactoryLint

def Span.Leads (s t : Span) : Prop := s.start < t.start ∧ (t.Inside s ∨ s.stop ≤ t.start)

namespace Php

open Visited

def Visited.at? : Visited → Place → Option Visited
  | v, [] => some v
  | v, i :: p => v.parts[i]?.bind fun w => w.at? p

/-- The stop at a place of a program, of which the first number chooses a statement. -/
def Program.at? (program : Program) : Place → Option Visited
  | [] => none
  | i :: p => program[i]?.bind fun s => (Visited.stmt s).at? p

def Visited.tree (v : Visited) : Tree Visited := .node v (v.parts.attach.map fun p => p.1.tree)
termination_by v
decreasing_by exact sizeOf_lt_of_mem_stops p.2

def Program.trees (program : Program) : List (Tree Visited) :=
  program.map fun s => (Visited.stmt s).tree

theorem Visited.tree_eq (v : Visited) : v.tree = .node v (v.parts.map tree) := by
  rw [tree, List.attach_map_val (f := tree)]

theorem Visited.at?_tree (v : Visited) (p : Place) : v.tree.at? p = v.at? p := by
  induction p generalizing v with
  | nil => rw [tree_eq]; rfl
  | cons i p ih =>
    rw [tree_eq, Tree.at?, Visited.at?, List.getElem?_map, Option.bind_map]
    exact Option.bind_congr fun w _ => ih w

theorem Program.among?_trees (program : Program) : Tree.among? program.trees = program.at? := by
  funext p
  cases p with
  | nil => rfl
  | cons i p =>
    rw [Tree.among?, Program.at?, Program.trees, List.getElem?_map, Option.bind_map]
    exact Option.bind_congr fun s _ => (Visited.stmt s).at?_tree p

theorem Visited.walk_tree (enter : Visited → Bool) (v : Visited) :
    v.tree.walk enter = v.preorder enter := by
  induction v using Visited.induct with
  | step v ih =>
    have hparts : (v.parts.map tree).flatMap (Tree.walk enter) = v.inside enter := by
      rw [List.flatMap_map, inside_eq]
      exact List.flatMap_congr ih
    rw [tree_eq, Tree.walk_node, hparts]
    rfl

theorem Program.walk_trees (enter : Visited → Bool) (program : Program) :
    program.trees.flatMap (Tree.walk enter) = program.visits enter := by
  rw [visits_eq, Program.trees, List.flatMap_map, List.flatMap_map]
  exact List.flatMap_congr fun s _ => (Visited.stmt s).walk_tree enter

/-- The places of a program and how walks come to them. -/
structure Program.Walks (program : Program) (places : List Place) : Prop where
  complete : ∀ p, p ∈ places ↔ (program.at? p).isSome
  ordered : places.Pairwise (· < ·)
  all : (program.visits fun _ => true).map some = places.map program.at?
  pruned : ∀ enter, (program.visits enter).map some =
    (places.filter (Tree.Entered enter program.at?)).map program.at?

theorem Program.walks (program : Program) :
    program.Walks (Tree.placesAmong program.trees) := by
  have hpruned : ∀ enter, (program.visits enter).map some =
      ((Tree.placesAmong program.trees).filter (Tree.Entered enter program.at?)).map
        program.at? := fun enter => by
    rw [← program.walk_trees, ← program.among?_trees, Tree.walkAmong_eq]
  refine ⟨fun p => ?_, Tree.pairwise_lt_placesAmong _, ?_, hpruned⟩
  · rw [Tree.mem_placesAmong_iff, program.among?_trees]
  · have hall : (Tree.placesAmong program.trees).filter
        (Tree.Entered (fun _ => true) program.at?) = Tree.placesAmong program.trees :=
      List.filter_eq_self.mpr fun p _ => decide_eq_true fun _ _ _ _ _ => rfl
    rw [hpruned, hall]

theorem visits_sublist (enter : Visited → Bool) (program : Program) :
    (program.visits enter).Sublist program.stops := by
  have hall := program.walks.all
  have hsub : ((program.visits enter).map some).Sublist (program.stops.map some) := by
    rw [program.walks.pruned, Program.stops, hall]
    exact List.filter_sublist.map _
  simpa using hsub.filterMap id

def Program.HasOpenings (program : Program) : Prop :=
  ∀ span elements, .expr (.array span elements) ∈ program.stops → ∃ opening,
    span.start < opening ∧ opening ≤ span.stop ∧
      ∀ e ∈ elements.flatMap Element.values, opening ≤ e.span.start

instance (program : Program) : Decidable program.HasOpenings :=
  decidable_of_iff (∀ v ∈ program.stops, ∀ e ∈ v.array?, e.span.start < e.span.stop ∧
    ∀ p ∈ e.parts, e.span.start < p.span.start) (by
    constructor
    · intro h span elements hmem
      obtain ⟨hstop, hparts⟩ := h _ hmem _ rfl
      exact ⟨span.start + 1, Nat.lt_succ_self _, hstop, hparts⟩
    · intro h v hv e he
      obtain ⟨span, elements, rfl, rfl⟩ := eq_of_array? he
      obtain ⟨opening, hopening, hstop, hparts⟩ := h span elements hv
      exact ⟨Nat.lt_of_lt_of_le hopening hstop, fun p hp =>
        Nat.lt_of_lt_of_le hopening (hparts p hp)⟩)

/-- The first of two stops begins first. If it takes any room, it is not the second one and does not
lie inside that. -/
structure Visited.Precedes (v w : Visited) : Prop where
  start_le : v.span.start ≤ w.span.start
  apart : v.span.start < v.span.stop → v ≠ w ∧ v ∉ w.below

section

variable {program : Program} (hn : program.WellNested)

include hn

theorem precedes_of_leads (hf : program.Forward) {v w : Visited} (hv : v ∈ program.stops)
    (hw : w ∈ program.stops) (h : v.Leads w) : v.Precedes w := by
  have hforward := hf v hv
  rcases h with hin | hafter
  · have hspan := hn.span_inside hv hin
    refine ⟨hspan.1, fun _ => ⟨?_, fun hvw => ?_⟩⟩
    · rintro rfl
      exact Nat.lt_irrefl _ (sizeOf_lt_of_mem_below hin)
    · exact Nat.lt_asymm (sizeOf_lt_of_mem_below hin) (sizeOf_lt_of_mem_below hvw)
  · refine ⟨Nat.le_trans hforward hafter, fun hpos => ⟨?_, fun hvw => ?_⟩⟩
    · rintro rfl
      exact Nat.lt_irrefl _ (Nat.lt_of_lt_of_le hpos hafter)
    · have hspan := hn.span_inside hw hvw
      exact Nat.lt_irrefl _ (Nat.lt_of_lt_of_le hpos (Nat.le_trans hafter hspan.1))

theorem pairwise_precedes_visits (hf : program.Forward) (enter : Visited → Bool) :
    (program.visits enter).Pairwise Visited.Precedes := by
  have hstops : program.stops.Pairwise Visited.Precedes :=
    hn.pairwise_leads.imp_of_mem fun hv hw h => precedes_of_leads hn hf hv hw h
  exact hstops.sublist (visits_sublist enter program)

end

theorem span_leads {program : Program} (hn : program.WellNested) (ho : program.HasOpenings)
    {span span' : Span} {elements elements' : List Element}
    (h : .expr (.array span elements) ∈ program.stops)
    (hl : (Visited.expr (.array span elements)).Leads (.expr (.array span' elements'))) :
    span.Leads span' := by
  obtain ⟨opening, hopening, hstop, helements⟩ := ho span elements h
  rcases hl with hin | hafter
  · have hspan : span'.Inside span := hn.span_inside h hin
    refine ⟨?_, Or.inl hspan⟩
    obtain ⟨p, hp, hmem⟩ := mem_below.mp hin
    obtain ⟨e, he, rfl⟩ := List.mem_map.mp hp
    have hpart : .expr e ∈ program.stops := mem_stops_of_mem_below h (mem_below_of_mem_parts hp)
    have hinside : span'.Inside e.span := by
      rcases hmem with heq | hmem
      · obtain rfl := Visited.expr.inj heq
        exact Span.Inside.refl _
      · exact hn.span_inside hpart hmem
    exact Nat.lt_of_lt_of_le hopening (Nat.le_trans (helements e he) hinside.1)
  · have hafter : span.stop ≤ span'.start := hafter
    exact ⟨Nat.lt_of_lt_of_le hopening (Nat.le_trans hstop hafter), Or.inr hafter⟩

theorem pairwise_leads_arrays {program : Program} (hn : program.WellNested)
    (ho : program.HasOpenings) : program.arrays.Pairwise fun e e' => e.span.Leads e'.span := by
  rw [Program.arrays, List.pairwise_filterMap]
  refine hn.pairwise_leads.imp_of_mem fun {v w} hv hw hl e he e' he' => ?_
  obtain ⟨span, elements, rfl, rfl⟩ := eq_of_array? he
  obtain ⟨span', elements', rfl, rfl⟩ := eq_of_array? he'
  exact span_leads hn ho hv hl

theorem map_span?_lower (program : Program) : program.lower.1.map program.lower.2.span? =
    program.arrays.map fun e => some e.span := by
  have hspans := span?_lower program
  rw [eq_comm, ← List.forall₂_eq_eq_eq, List.forall₂_map_left_iff, List.forall₂_map_right_iff]
  exact hspans.imp fun _ _ h => h.symm

/-- A walk comes to all places of a program in order, save those below a stop that it does not
enter. In the source the stops begin in this order, and the array literals one after the other, an
outer one before those inside it. -/
theorem visits_inOrder (program : Program) :
    (∃ places, program.Walks places) ∧
    (program.WellNested → program.Forward → ∀ enter,
      (program.visits enter).Pairwise Visited.Precedes) ∧
    (program.WellNested → program.HasOpenings →
      program.lower.1.map program.lower.2.span? = program.arrays.map (fun e => some e.span) ∧
      program.lower.1.Pairwise fun root root' => ∃ span span',
        program.lower.2.span? root = some span ∧ program.lower.2.span? root' = some span' ∧
          span.Leads span') := by
  refine ⟨⟨_, program.walks⟩, fun hn hf enter => pairwise_precedes_visits hn hf enter,
    fun hn ho => ⟨map_span?_lower program, ?_⟩⟩
  have hspans : (program.lower.1.map program.lower.2.span?).Pairwise fun s s' =>
      ∃ span span', s = some span ∧ s' = some span' ∧ span.Leads span' := by
    rw [map_span?_lower, List.pairwise_map]
    exact (pairwise_leads_arrays hn ho).imp fun h => ⟨_, _, rfl, rfl, h⟩
  exact List.pairwise_map.mp hspans

open Rule.HelperCall in
theorem visits_inOrder_words :
    (wordsProgram.visits entersStatements).Pairwise Visited.Precedes ∧
    wordsProgram.lower.1.map wordsProgram.lower.2.span? = [some ⟨43, 91⟩, some ⟨70, 90⟩] ∧
    wordsProgram.lower.1.Pairwise fun root root' => ∃ span span',
      wordsProgram.lower.2.span? root = some span ∧ wordsProgram.lower.2.span? root' = some span' ∧
        span.Leads span' := by
  obtain ⟨-, hprecedes, hroots⟩ := visits_inOrder wordsProgram
  have hn : wordsProgram.WellNested := by decide +kernel
  have hf : wordsProgram.Forward := by
    unfold Program.Forward
    decide +kernel
  have ho : wordsProgram.HasOpenings := by decide +kernel
  obtain ⟨hspans, hleads⟩ := hroots hn ho
  exact ⟨hprecedes hn hf entersStatements, hspans, hleads⟩

end Php

end FactoryLint
