import FactoryLint.Php.Declarations
import FactoryLint.Proofs.Php.Legible
import FactoryLint.Proofs.Php.Nesting

namespace FactoryLint.Php

def Visited.IsLegible (source : List Char) : Visited → Prop
  | .stmt (.useDecl span) => Naming.IsLegible (textOf source span)
  | _ => True

instance (source : List Char) : (v : Visited) → Decidable (v.IsLegible source)
  | .stmt (.useDecl span) => inferInstanceAs (Decidable (Naming.IsLegible (textOf source span)))
  | .stmt (.expression ..) | .stmt (.block ..) | .stmt (.ret ..) | .stmt (.control ..)
  | .stmt (.namespaceDecl ..) | .stmt (.classDecl ..) | .stmt (.other _)
  | .expr _ => inferInstanceAs (Decidable True)

namespace Naming

variable (source : List Char)

def next? (n : Naming) : Visited → Option Naming
  | .stmt (.namespaceDecl span _) => some (.enterSpace (textOf source span))
  | .stmt (.useDecl span) => n.addImports? (textOf source span)
  | _ => some n

def declared? (n : Naming) : Visited → Option Declaration
  | .stmt (.classDecl span name parent _) => some
    { name := .ofList (n.qualify name.toList)
      parent := parent.map fun p => .ofList (n.qualify p.toList)
      span }
  | _ => none

def collect? (n : Naming) : List Visited → Option (List Declaration)
  | [] => some []
  | v :: vs => (n.next? source v).bind fun m =>
    (m.collect? vs).map ((n.declared? v).toList ++ ·)

variable {source} {n m : Naming} {v : Visited} {vs before after : List Visited}
  {ds : List Declaration} {d : Declaration}

theorem collect?_cons_eq_some : n.collect? source (v :: vs) = some ds ↔
    ∃ m rest, n.next? source v = some m ∧ m.collect? source vs = some rest ∧
      (n.declared? v).toList ++ rest = ds := by
  simp only [collect?, Option.bind_eq_some_iff, Option.map_eq_some_iff]
  constructor
  · rintro ⟨m, hnext, rest, hrest, rfl⟩
    exact ⟨m, rest, hnext, hrest, rfl⟩
  · rintro ⟨m, rest, hnext, hrest, rfl⟩
    exact ⟨m, hnext, rest, hrest, rfl⟩

theorem exists_naming_of_collect? (h : n.collect? source (before ++ after) = some ds) :
    ∃ m, before.foldlM (next? source) n = some m := by
  induction before generalizing n ds with
  | nil => exact ⟨n, rfl⟩
  | cons v before ih =>
    obtain ⟨m, rest, hnext, hrest, -⟩ := collect?_cons_eq_some.mp h
    obtain ⟨last, hlast⟩ := ih hrest
    refine ⟨last, ?_⟩
    rw [List.foldlM_cons, hnext]
    exact hlast

theorem mem_collect? (h : n.collect? source vs = some ds) :
    d ∈ ds ↔ ∃ before v after m, vs = before ++ v :: after ∧
      before.foldlM (next? source) n = some m ∧ m.declared? v = some d := by
  induction vs generalizing n ds with
  | nil =>
    obtain rfl := Option.some.inj h
    simp
  | cons v vs ih =>
    obtain ⟨m, rest, hnext, hrest, rfl⟩ := collect?_cons_eq_some.mp h
    rw [List.mem_append, Option.mem_toList, ih hrest]
    constructor
    · rintro (hd | ⟨before, w, after, last, rfl, hlast, hd⟩)
      · exact ⟨[], v, vs, n, rfl, rfl, hd⟩
      · refine ⟨v :: before, w, after, last, rfl, ?_, hd⟩
        rw [List.foldlM_cons, hnext]
        exact hlast
    · rintro ⟨before, w, after, last, he, hlast, hd⟩
      cases before with
      | nil =>
        obtain ⟨rfl, rfl⟩ := List.cons.inj he
        obtain rfl := Option.some.inj hlast
        exact Or.inl hd
      | cons v' before =>
        obtain ⟨rfl, rfl⟩ := List.cons.inj he
        rw [List.foldlM_cons, hnext] at hlast
        exact Or.inr ⟨before, w, after, last, rfl, hlast, hd⟩

theorem isSome_next?_iff (n : Naming) (v : Visited) :
    (n.next? source v).isSome ↔ v.IsLegible source := by
  cases v with
  | expr e => exact iff_of_true rfl trivial
  | stmt s =>
    cases s with
    | useDecl span => exact isSome_addImports?_iff n (textOf source span)
    | _ => exact iff_of_true rfl trivial

theorem isSome_collect?_iff (n : Naming) (vs : List Visited) :
    (n.collect? source vs).isSome ↔ ∀ v ∈ vs, v.IsLegible source := by
  induction vs generalizing n with
  | nil => exact iff_of_true rfl (List.forall_mem_nil _)
  | cons v vs ih =>
    rw [List.forall_mem_cons, ← isSome_next?_iff n v, collect?]
    cases n.next? source v with
    | none => simp
    | some m => simpa using ih m

end Naming

theorem Findings.note?_eq (source : List Char) (f : Findings) (v : Visited) :
    f.note? source v = (f.naming.next? source v).map fun n =>
      ⟨n, (f.naming.declared? v).toList ++ f.declarations⟩ := by
  cases v with
  | expr e => rfl
  | stmt s => cases s <;> rfl

variable {program : Program} {source : String} {ds : List Declaration}

theorem declarations?_eq (program : Program) (source : String) : program.declarations? source =
    Naming.initial.collect? source.toList (program.visits entersStatements) := by
  have hfold : ∀ (vs : List Visited) (f : Findings),
      (vs.foldlM (Findings.note? source.toList) f).map (·.declarations.reverse) =
        (f.naming.collect? source.toList vs).map (f.declarations.reverse ++ ·) := by
    intro vs
    induction vs with
    | nil => exact fun f => congrArg some (List.append_nil _).symm
    | cons v vs ih =>
      intro f
      rw [List.foldlM_cons, Findings.note?_eq, Naming.collect?]
      cases f.naming.next? source.toList v with
      | none => rfl
      | some n =>
        have hrest := ih ⟨n, (f.naming.declared? v).toList ++ f.declarations⟩
        refine hrest.trans ?_
        rw [Option.bind_some, Option.map_map]
        refine Option.map_congr fun rest _ => ?_
        cases f.naming.declared? v <;> simp
  rw [Program.declarations?, hfold]
  exact Option.map_id'

/-- The program does not stop at an import. -/
def Program.IsLegible (program : Program) (source : String) : Prop :=
  ∀ v ∈ program.visits entersStatements, v.IsLegible source.toList

instance (program : Program) (source : String) : Decidable (program.IsLegible source) :=
  inferInstanceAs (Decidable (∀ v ∈ program.visits entersStatements, _))

theorem isSome_declarations?_iff :
    (program.declarations? source).isSome ↔ program.IsLegible source := by
  rw [declarations?_eq]
  exact Naming.isSome_collect?_iff _ _

/-- The class statement `c` is among those that are walked past, and with the naming that holds
there it declares `d`. -/
def Program.Declares (program : Program) (source : String) (c : Stmt) (d : Declaration) : Prop :=
  ∃ before after naming, program.visits entersStatements = before ++ .stmt c :: after ∧
    before.foldlM (Naming.next? source.toList) .initial = some naming ∧
    naming.declared? (.stmt c) = some d

theorem mem_declarations (h : program.declarations? source = some ds) {d : Declaration} :
    d ∈ ds ↔ ∃ c, program.Declares source c d := by
  rw [declarations?_eq] at h
  rw [Naming.mem_collect? h]
  constructor
  · rintro ⟨before, v, after, naming, he, hnaming, hd⟩
    cases v with
    | expr e => cases hd
    | stmt c => exact ⟨c, before, after, naming, he, hnaming, hd⟩
  · rintro ⟨c, before, after, naming, he, hnaming, hd⟩
    exact ⟨before, .stmt c, after, naming, he, hnaming, hd⟩

def Stmt.IsClass : Stmt → Prop
  | .classDecl .. => True
  | _ => False

def Program.IsOpen (program : Program) (s : Stmt) : Prop :=
  ∀ e, .expr e ∈ program.stops → .stmt s ∉ (Visited.expr e).below

theorem Program.Declares.mem_visits {c : Stmt} {d : Declaration}
    (h : program.Declares source c d) : .stmt c ∈ program.visits entersStatements := by
  obtain ⟨before, after, naming, he, -⟩ := h
  rw [he]
  exact List.mem_append_right _ List.mem_cons_self

theorem Program.Declares.isClass {c : Stmt} {d : Declaration}
    (h : program.Declares source c d) : c.IsClass ∧ d.span = c.span := by
  obtain ⟨before, after, naming, -, -, hd⟩ := h
  cases c with
  | classDecl span name parent members =>
    obtain rfl := Option.some.inj hd
    exact ⟨trivial, rfl⟩
  | _ => cases hd

theorem exists_of_mem_declarations (h : program.declarations? source = some ds) {d : Declaration}
    (hd : d ∈ ds) :
    ∃ name parent members, .stmt (.classDecl d.span name parent members) ∈ program.stops := by
  obtain ⟨c, hc⟩ := (mem_declarations h).mp hd
  obtain ⟨hclass, hspan⟩ := hc.isClass
  have hstop := mem_stops_of_mem_visits hc.mem_visits
  cases c with
  | classDecl span name parent members =>
    obtain rfl : d.span = span := hspan
    exact ⟨name, parent, members, hstop⟩
  | _ => cases hclass

theorem exists_declares (h : program.declarations? source = some ds) {c : Stmt} (hc : c.IsClass)
    (hvisit : .stmt c ∈ program.visits entersStatements) :
    ∃ d, program.Declares source c d := by
  obtain ⟨before, after, he⟩ := List.append_of_mem hvisit
  rw [declarations?_eq, he] at h
  obtain ⟨naming, hnaming⟩ := Naming.exists_naming_of_collect? h
  cases c with
  | classDecl span name parent members => exact ⟨_, before, after, naming, he, hnaming, rfl⟩
  | _ => cases hc

theorem sizeOf_lt_of_mem_below {v w : Visited} (h : w ∈ v.below) : sizeOf w < sizeOf v := by
  induction v using Visited.induct with
  | step v ih =>
    obtain ⟨p, hp, hw⟩ := mem_below.mp h
    have hlt := sizeOf_lt_of_mem_stops hp
    rcases hw with rfl | hw
    · exact hlt
    · exact Nat.lt_trans (ih p hp hw) hlt

/-- A statement that the walk through the statements does not come to is in an expression. -/
theorem mem_preorder_or_exists {s : Stmt} {v : Visited} (h : .stmt s ∈ v :: v.below) :
    .stmt s ∈ v.preorder entersStatements ∨
      ∃ e, .expr e ∈ v :: v.below ∧ .stmt s ∈ (Visited.expr e).below := by
  induction v using Visited.induct with
  | step v ih =>
    rcases List.mem_cons.mp h with rfl | hbelow
    · exact Or.inl List.mem_cons_self
    · cases v with
      | expr e => exact Or.inr ⟨e, List.mem_cons_self, hbelow⟩
      | stmt t =>
        obtain ⟨p, hp, hs⟩ := mem_below.mp hbelow
        rcases ih p hp (List.mem_cons.mpr hs) with hvisit | ⟨e, he, hs⟩
        · refine Or.inl (List.mem_cons_of_mem _ ?_)
          rw [entersStatements, if_pos rfl, inside_eq]
          exact List.mem_flatMap.mpr ⟨p, hp, hvisit⟩
        · have he' : .expr e ∈ (Visited.stmt t).below :=
            mem_below.mpr ⟨p, hp, List.mem_cons.mp he⟩
          exact Or.inr ⟨e, List.mem_cons_of_mem _ he', hs⟩

theorem eq_of_mem_siblings {vs : List Visited} (hn : ∀ v ∈ vs, v.AllNested)
    (ho : vs.Pairwise fun p q => p.span.stop ≤ q.span.start) {p q w : Visited} (hp : p ∈ vs)
    (hq : q ∈ vs) (hwp : w ∈ p :: p.below) (hwq : w ∈ q :: q.below)
    (hw : w.span.start < w.span.stop) : p = q := by
  have hinp := (hn p hp).span_inside w hwp
  have hinq := (hn q hq).span_inside w hwq
  unfold Span.Inside at hinp hinq
  rcases eq_or_of_pairwise ho hp hq with he | hlt | hlt
  · exact he
  · omega
  · omega

theorem not_mem_below_of_mem_preorder {s : Stmt} (hs : s.span.start < s.span.stop) {v : Visited}
    (hv : v.AllNested) (h : .stmt s ∈ v.preorder entersStatements) {e : Expr}
    (he : .expr e ∈ v :: v.below) : .stmt s ∉ (Visited.expr e).below := by
  intro hse
  induction v using Visited.induct with
  | step v ih =>
    cases v with
    | expr e' =>
      obtain h := List.mem_singleton.mp h
      cases h
    | stmt t =>
      have he' := (List.mem_cons.mp he).resolve_left nofun
      rcases List.mem_cons.mp h with hst | hvisit
      · have hlt := sizeOf_lt_of_mem_below (mem_below_trans he' hse)
        rw [hst] at hlt
        exact Nat.lt_irrefl _ hlt
      · rw [entersStatements, if_pos rfl, inside_eq] at hvisit
        obtain ⟨p, hp, hsp⟩ := List.mem_flatMap.mp hvisit
        obtain ⟨q, hq, heq⟩ := mem_below.mp he'
        have hsq : .stmt s ∈ q :: q.below := by
          rcases heq with rfl | heq
          · exact List.mem_cons_of_mem _ hse
          · exact List.mem_cons_of_mem _ (mem_below_trans heq hse)
        obtain rfl := eq_of_mem_siblings (fun p hp => hv.part hp) hv.isNested.ordered hp hq
          (mem_below_of_mem_preorder hsp) hsq hs
        exact ih p hp (hv.part hp) hsp (List.mem_cons.mpr heq)

/-- The walk through the statements comes to the statements that lie in no expression. -/
theorem Program.WellNested.mem_visits_iff (hn : program.WellNested) {s : Stmt}
    (hs : s.span.start < s.span.stop) : .stmt s ∈ program.visits entersStatements ↔
      .stmt s ∈ program.stops ∧ program.IsOpen s := by
  rw [visits_eq, List.mem_flatMap]
  constructor
  · rintro ⟨v, hv, hsv⟩
    have hbelow := mem_below_of_mem_preorder hsv
    rw [stops_eq, List.mem_flatMap]
    refine ⟨⟨v, hv, hbelow⟩, fun e he hse => ?_⟩
    rw [stops_eq, List.mem_flatMap] at he
    obtain ⟨w, hw, hew⟩ := he
    have hsw : .stmt s ∈ w :: w.below := by
      rcases List.mem_cons.mp hew with rfl | hew
      · exact List.mem_cons_of_mem _ hse
      · exact List.mem_cons_of_mem _ (mem_below_trans hew hse)
    obtain rfl := eq_of_mem_siblings hn.allNested_stmt (List.pairwise_map.mpr hn.ordered) hv hw
      hbelow hsw hs
    exact not_mem_below_of_mem_preorder hs (hn.allNested_stmt v hv) hsv hew hse
  · rintro ⟨hstop, hopen⟩
    rw [stops_eq, List.mem_flatMap] at hstop
    obtain ⟨v, hv, hsv⟩ := hstop
    rcases mem_preorder_or_exists hsv with hvisit | ⟨e, he, hse⟩
    · exact ⟨v, hv, hvisit⟩
    · refine absurd hse (hopen e ?_)
      rw [stops_eq, List.mem_flatMap]
      exact ⟨v, hv, he⟩

theorem nested_of_inside (hn : program.WellNested) (h : program.declarations? source = some ds)
    {span : Span} (hspan : span.start < span.stop) {d d' : Declaration} (hd : d ∈ ds)
    (hd' : d' ∈ ds) (hs : span.Inside d.span)
    (hs' : span.Inside d'.span) : d.span.Inside d'.span ∨ d'.span.Inside d.span := by
  obtain ⟨name, parent, body, hv⟩ := exists_of_mem_declarations h hd
  obtain ⟨name', parent', body', hv'⟩ := exists_of_mem_declarations h hd'
  unfold Span.Inside at hs hs'
  rcases hn.leads hv hv' with he | (hb | ho) | (hb | ho)
  · have hspan' : d.span = d'.span := congrArg Visited.span he
    exact Or.inl (hspan' ▸ Span.Inside.refl _)
  · exact Or.inr (hn.span_inside hv hb)
  · have ho' : d.span.stop ≤ d'.span.start := ho
    omega
  · exact Or.inl (hn.span_inside hv' hb)
  · have ho' : d'.span.stop ≤ d.span.start := ho
    omega

end FactoryLint.Php
