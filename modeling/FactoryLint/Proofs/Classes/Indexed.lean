import FactoryLint.Proofs.Classes.Ancestors
import FactoryLint.Proofs.Classes.Sharing

namespace FactoryLint

open ClassName

namespace Hierarchy

open Declaration (lastParent?)

theorem lastParent?_eq_none_iff {ds : List Declaration} {k : String} :
    lastParent? ds k = none ↔ ∀ d ∈ ds, key d.name ≠ k := by
  rw [lastParent?, Option.map_eq_none_iff, List.find?_eq_none]
  simp only [List.mem_reverse, decide_eq_true_eq]

theorem parent?_empty (name : String) : empty.parent? name = none :=
  getElem?_empty _

theorem parent?_register (h : Hierarchy) (d : Declaration) (name : String) :
    (h.register d).parent? name =
      if key d.name = key name then some d.parent else h.parent? name := by
  simp [parent?, register, Std.HashMap.getElem?_insert]

theorem parent?_extend (h : Hierarchy) (ds : List Declaration) (name : String) :
    (h.extend ds).parent? name = (lastParent? ds (key name)).or (h.parent? name) :=
  getElem?_extend h ds (key name)

theorem Consistent.of_nodup {ds : List Declaration} (h : (ds.map fun d => key d.name).Nodup) :
    Consistent ds := by
  intro d hd d' hd' hkey
  rw [List.inj_on_of_nodup_map h hd hd' hkey]

end Hierarchy

namespace Scope

open Hierarchy
open Declaration (lastParent?)

theorem parent?_eq (s : Scope) (name : String) :
    s.parent? name =
      (lastParent? s.declarations.reverse (key name)).or (s.hierarchy.parent? name) := by
  rw [parent?, lastParent?, List.reverse_reverse]
  cases s.declarations.find? fun d => key d.name = key name <;> rfl

theorem ancestors_congr {s s' : Scope} (h : ∀ name, s.parent? name = s'.parent? name)
    (d : Declaration) : s.ancestors d = s'.ancestors d := by
  have hclimbs := s.ancestors_climbs d
  rw [funext h] at hclimbs
  exact (s'.ancestors_climbs d).eq hclimbs

/-- The context in a file with one declaration. -/
theorem context?_of_climbs {h : Hierarchy} {d : Declaration} {span : Span} {chain : List String}
    (hclimbs : Ancestry.Climbs (⟨h, [d]⟩ : Scope).parent? [key d.name] d.parent chain)
    (hspan : span.Inside d.span) :
    (⟨h, [d]⟩ : Scope).context? span = some ⟨d.name, chain⟩ := by
  have hfilter : [d].filter (fun d => span.Inside d.span) = [d] :=
    List.filter_cons_of_pos (decide_eq_true hspan)
  have henclosing : (⟨h, [d]⟩ : Scope).enclosing? span = some d := by
    rw [enclosing?, hfilter]
    rfl
  rw [context?, henclosing, ← hclimbs.eq (ancestors_climbs _ d)]
  rfl

variable (h : Hierarchy) (ds : List Declaration)

theorem parent?_extend_self (name : String) :
    (⟨h, ds⟩ : Scope).parent? name = (⟨h.extend ds, ds⟩ : Scope).parent? name := by
  rw [parent?_eq, parent?_eq, parent?_extend]
  cases hfirst : lastParent? ds.reverse (key name) with
  | some parent => rfl
  | none =>
    have hlast : lastParent? ds (key name) = none := by
      rw [lastParent?_eq_none_iff] at hfirst ⊢
      exact fun d hd => hfirst d (List.mem_reverse.mpr hd)
    rw [hlast]
    rfl

theorem parent?_extend_alone (hds : Consistent ds) (name : String) :
    (⟨h, ds⟩ : Scope).parent? name = (⟨h.extend ds, []⟩ : Scope).parent? name := by
  have hfirst : lastParent? ds.reverse (key name) = lastParent? ds (key name) :=
    lastParent?_perm hds (List.reverse_perm ds) _
  rw [parent?_eq, parent?_eq, parent?_extend, hfirst]
  rfl

/-- A class has the same ancestors in a file whether or not the file is indexed. If the file
declares no class twice, the index finds them without the file. -/
theorem ancestors_extend (d : Declaration) :
    (⟨h, ds⟩ : Scope).ancestors d = (⟨h.extend ds, ds⟩ : Scope).ancestors d ∧
    ((ds.map fun d => key d.name).Nodup →
      (⟨h, ds⟩ : Scope).ancestors d = (⟨h.extend ds, []⟩ : Scope).ancestors d) :=
  ⟨ancestors_congr (parent?_extend_self h ds) d, fun hds =>
    ancestors_congr (parent?_extend_alone h ds (.of_nodup hds)) d⟩

def baseHierarchy : Hierarchy := .ofDeclarations [⟨"B", some "X", ⟨0, 9⟩⟩]

def baseDeclarations : List Declaration :=
  [⟨"A", some "B", ⟨0, 9⟩⟩, ⟨"\\b", some "C", ⟨9, 19⟩⟩]

theorem parent?_base (name : String) : (⟨baseHierarchy, baseDeclarations⟩ : Scope).parent? name =
    (lastParent? baseDeclarations.reverse (key name)).or
      (lastParent? [⟨"B", some "X", ⟨0, 9⟩⟩] (key name)) := by
  rw [parent?_eq]
  exact congrArg _ (getElem?_ofDeclarations _ _)

theorem ancestors_base : (⟨baseHierarchy, baseDeclarations⟩ : Scope).ancestors
    ⟨"A", some "B", ⟨0, 9⟩⟩ = ["B", "C"] := by
  have hparent : (⟨baseHierarchy, baseDeclarations⟩ : Scope).parent? "B" = some (some "C") := by
    rw [parent?_base]
    decide +kernel
  have hunknown : (⟨baseHierarchy, baseDeclarations⟩ : Scope).parent? "C" = none := by
    rw [parent?_base]
    decide +kernel
  have hclimbs : Ancestry.Climbs (⟨baseHierarchy, baseDeclarations⟩ : Scope).parent? [key "A"]
      (some "B") [bare "B", bare "C"] :=
    .to_parent (by decide +kernel) hparent (.to_unknown (by decide +kernel) hunknown)
  have hbare : bare "B" = "B" ∧ bare "C" = "C" := by decide +kernel
  rw [hbare.1, hbare.2] at hclimbs
  exact hclimbs.eq (ancestors_climbs _ ⟨"A", some "B", ⟨0, 9⟩⟩)

theorem ancestors_extend_overriding : (baseDeclarations.map fun d => key d.name).Nodup ∧
    (⟨baseHierarchy.extend baseDeclarations, []⟩ : Scope).ancestors ⟨"A", some "B", ⟨0, 9⟩⟩ =
      ["B", "C"] := by
  have hdistinct : (baseDeclarations.map fun d => key d.name).Nodup := by decide +kernel
  refine ⟨hdistinct, ?_⟩
  rw [← (ancestors_extend baseHierarchy baseDeclarations _).2 hdistinct]
  exact ancestors_base

end Scope

end FactoryLint
