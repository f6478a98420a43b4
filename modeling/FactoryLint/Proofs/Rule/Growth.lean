import FactoryLint.Proofs.Classes.Indexed
import FactoryLint.Proofs.Rule.Containers
import Mathlib.Data.List.Sort

namespace FactoryLint

open ClassName

theorem Ancestry.Climbs.prefix_of_links {parent? parent?' : String → Option (Option String)}
    (hlinks : ∀ name p, parent? name = some (some p) → parent?' name = some (some p))
    {seen : List String} {next : Option String} {chain chain' : List String}
    (h : Climbs parent? seen next chain) (h' : Climbs parent?' seen next chain') :
    chain <+: chain' := by
  induction h generalizing chain' with
  | ended => exact List.nil_prefix
  | repeated => exact List.nil_prefix
  | @step seen current rest hseen hrest ih =>
    cases h' with
    | repeated hmem => exact absurd hmem hseen
    | step _ hrest' =>
      refine List.cons_prefix_cons.mpr ⟨rfl, ?_⟩
      cases hnext : (parent? current).join with
      | none =>
        rw [hnext] at hrest
        cases hrest
        exact List.nil_prefix
      | some p =>
        rw [hlinks current p (Option.join_eq_some_iff.mp hnext)] at hrest'
        exact ih (hnext ▸ hrest')

section

variable {h : Hierarchy} {ds : List Declaration} (hnew : ∀ d ∈ ds, h.contains d.name = false)

include hnew

theorem Hierarchy.parent?_extend_of_new {name : String} {parent : Option String}
    (hname : h.parent? name = some parent) : (h.extend ds).parent? name = some parent := by
  have hlast : Declaration.lastParent? ds (key name) = none := by
    rw [lastParent?_eq_none_iff]
    intro d hd hkey
    have hunknown := hnew d hd
    rw [contains, hkey, Std.HashMap.contains_eq_isSome_getElem?] at hunknown
    rw [parent?] at hname
    rw [hname] at hunknown
    cases hunknown
  rw [parent?_extend, hlast, Option.none_or, hname]

namespace Scope

variable (file : List Declaration)

theorem parent?_extend_of_new {name : String} {parent : Option String}
    (hname : (⟨h, file⟩ : Scope).parent? name = some parent) :
    (⟨h.extend ds, file⟩ : Scope).parent? name = some parent := by
  rw [parent?_eq] at hname ⊢
  cases hfirst : Declaration.lastParent? file.reverse (key name) with
  | some p => rwa [hfirst] at hname
  | none =>
    rw [hfirst, Option.none_or] at hname
    exact Hierarchy.parent?_extend_of_new hnew hname

theorem ancestors_prefix_of_new (d : Declaration) :
    (⟨h, file⟩ : Scope).ancestors d <+: (⟨h.extend ds, file⟩ : Scope).ancestors d :=
  (ancestors_climbs _ d).prefix_of_links (fun _ _ hname => parent?_extend_of_new hnew file hname)
    (ancestors_climbs _ d)

theorem context?_extend_of_new {span : Span} {c : ClassContext}
    (hc : (⟨h, file⟩ : Scope).context? span = some c) :
    ∃ c', (⟨h.extend ds, file⟩ : Scope).context? span = some c' ∧ c'.name = c.name ∧
      c.ancestors <+: c'.ancestors := by
  obtain ⟨d, hd, rfl⟩ := Option.map_eq_some_iff.mp hc
  have hd' : (⟨h.extend ds, file⟩ : Scope).enclosing? span = some d := hd
  refine ⟨⟨d.name, (⟨h.extend ds, file⟩ : Scope).ancestors d⟩, ?_, rfl, ?_⟩
  · rw [context?, hd']
    rfl
  · exact ancestors_prefix_of_new hnew file d

end Scope

end

theorem ClassContext.IsSubclassOf.of_prefix {c c' : ClassContext} {name : String}
    (h : c.IsSubclassOf name) (hbegin : c.ancestors <+: c'.ancestors) : c'.IsSubclassOf name := by
  obtain ⟨a, ha, hkey⟩ := h
  exact ⟨a, hbegin.subset ha, hkey⟩

theorem Edit.sublist_of_subset {es fs : List Edit} (hes : es.Pairwise Before)
    (hfs : fs.Pairwise Before) (hsub : es ⊆ fs) : es.Sublist fs := by
  have : Std.Antisymm Before := ⟨fun a b hab hba => absurd (same_of_precedes hab.1 hba.1) hab.2⟩
  have : Std.Irrefl Before := ⟨fun a haa => haa.2 ⟨rfl, rfl⟩⟩
  exact List.sublist_of_subperm_of_pairwise (hes.nodup.subperm hsub) hes hfs

namespace Rule.HelperCall

theorem Rewritable.extend {s : Settings} {h : Hierarchy} {ds file : List Declaration}
    {program : Php.Program} {c : Php.Expr} (hc : Rewritable s ⟨h, file⟩ program c)
    (hnew : ∀ d ∈ ds, h.contains d.name = false) : Rewritable s ⟨h.extend ds, file⟩ program c := by
  obtain ⟨span, elements, hstop, ⟨context, hcontext, hsub⟩, hreached⟩ := hc
  obtain ⟨context', hcontext', -, hbegin⟩ := Scope.context?_extend_of_new hnew _ hcontext
  exact ⟨span, elements, hstop, ⟨context', hcontext', hsub.of_prefix hbegin⟩, hreached⟩

/-- When an index gets to know classes that it did not know, every chain of ancestors stays the
beginning of the new one. What a class descended from it still descends from, and the rule still
returns all edits that it returned, in their order. -/
theorem check_extend_of_new (h : Hierarchy) (ds : List Declaration)
    (hnew : ∀ d ∈ ds, h.contains d.name = false) :
    (∀ file d, (⟨h, file⟩ : Scope).ancestors d <+: (⟨h.extend ds, file⟩ : Scope).ancestors d) ∧
    (∀ file span c, (⟨h, file⟩ : Scope).context? span = some c →
      ∃ c', (⟨h.extend ds, file⟩ : Scope).context? span = some c' ∧ c'.name = c.name ∧
        ∀ name, c.IsSubclassOf name → c'.IsSubclassOf name) ∧
    ∀ s source program edits, check s h source program = .ok edits →
      ∃ edits', check s (h.extend ds) source program = .ok edits' ∧ edits.Sublist edits' := by
  refine ⟨fun file d => Scope.ancestors_prefix_of_new hnew file d, fun file span c hc => ?_,
    fun s source program edits hcheck => ?_⟩
  · obtain ⟨c', hc', hname, hbegin⟩ := Scope.context?_extend_of_new hnew file hc
    exact ⟨c', hc', hname, fun name hsub => hsub.of_prefix hbegin⟩
  · obtain ⟨file, hfile⟩ := exists_declarations hcheck
    obtain ⟨found, hfound, hbefore, hmem⟩ := exists_check_eq s h hfile
    obtain ⟨edits', hcheck', hbefore', hmem'⟩ := exists_check_eq s (h.extend ds) hfile
    obtain rfl := Except.ok.inj (hfound.symm.trans hcheck)
    refine ⟨edits', hcheck', Edit.sublist_of_subset hbefore hbefore' fun e he => ?_⟩
    obtain ⟨c, hc, rfl⟩ := (hmem e).mp he
    exact (hmem' _).mpr ⟨c, hc.extend hnew, rfl⟩

/-- The base class of `wordsProgram` gets to be known, and with it a class above it. -/
theorem check_extend_of_new_words :
    Hierarchy.empty.contains "F" = false ∧ ∃ c edits,
      (⟨Hierarchy.empty.extend [⟨"F", some "G", ⟨0, 9⟩⟩], wordsClasses⟩ : Scope).context? ⟨43, 91⟩ =
        some c ∧
      c.IsSubclassOf "F" ∧
      check wordsSettings (Hierarchy.empty.extend [⟨"F", some "G", ⟨0, 9⟩⟩]) wordsSource
        wordsProgram = .ok edits ∧
      edit wordsSettings ⟨48, 60⟩ ∈ edits := by
  have hunknown : Hierarchy.empty.contains "F" = false := Std.HashMap.contains_empty
  obtain ⟨-, hcontext, hcheck⟩ := check_extend_of_new .empty [⟨"F", some "G", ⟨0, 9⟩⟩]
    (List.forall_mem_singleton.mpr hunknown)
  obtain ⟨c, hc, -, hsub⟩ := hcontext _ _ _ context?_words
  obtain ⟨edits, hedits, -, hmem⟩ := exists_check_eq wordsSettings .empty declarations?_words
  obtain ⟨edits', hedits', hsublist⟩ := hcheck wordsSettings wordsSource wordsProgram edits hedits
  refine ⟨hunknown, c, edits', hc, hsub "F" ⟨"F", List.mem_cons_self, rfl⟩, hedits', ?_⟩
  exact hsublist.subset ((hmem _).mpr ⟨_, rewritable_words, rfl⟩)

end Rule.HelperCall

end FactoryLint
