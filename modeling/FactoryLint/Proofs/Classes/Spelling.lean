import FactoryLint.Proofs.Classes.Indexed
import Mathlib.Data.List.Forall2

namespace FactoryLint

open ClassName
open Declaration (lastParent?)

/-- The same declaration with its names in another spelling. -/
structure Declaration.Respelled (d d' : Declaration) : Prop where
  name : key d.name = key d'.name
  parent : d.parent.map key = d'.parent.map key
  span : d.span = d'.span

structure ClassContext.Respelled (c c' : ClassContext) : Prop where
  name : key c.name = key c'.name
  ancestors : c.ancestors.map key = c'.ancestors.map key

theorem ClassContext.Respelled.isSubclassOf_iff {c c' : ClassContext} (hc : c.Respelled c')
    {n n' : String} (hn : key n = key n') : c.IsSubclassOf n ↔ c'.IsSubclassOf n' := by
  have hmem : ∀ (c : ClassContext) (n : String), c.IsSubclassOf n ↔ key n ∈ c.ancestors.map key :=
    fun _ _ => List.mem_map.symm
  rw [hmem, hmem, hc.ancestors, hn]

namespace Hierarchy

/-- The same classes are known, and their parents differ in their spelling at most. -/
def Respelled (h h' : Hierarchy) : Prop :=
  ∀ k : String, h.parents[k]?.map (Option.map key) = h'.parents[k]?.map (Option.map key)

variable {h h' g g' : Hierarchy} {d d' : Declaration} {ds ds' : List Declaration}

theorem lastParent?_respelled (hds : List.Forall₂ Declaration.Respelled ds ds') (k : String) :
    (lastParent? ds k).map (Option.map key) = (lastParent? ds' k).map (Option.map key) := by
  have hfind : ∀ es es', List.Forall₂ Declaration.Respelled es es' →
      ((es.find? fun d => key d.name = k).map Declaration.parent).map (Option.map key) =
        ((es'.find? fun d => key d.name = k).map Declaration.parent).map (Option.map key) := by
    intro es es' hes
    induction hes with
    | nil => rfl
    | @cons d d' _ _ hd _ ih =>
      rw [List.find?_cons, List.find?_cons, hd.name]
      cases decide (key d'.name = k) with
      | true => exact congrArg some hd.parent
      | false => exact ih
  exact hfind _ _ (List.rel_reverse hds)

theorem Respelled.register (hh : h.Respelled h') (hd : d.Respelled d') :
    (h.register d).Respelled (h'.register d') := by
  intro k
  rw [Hierarchy.register, Hierarchy.register, Std.HashMap.getElem?_insert,
    Std.HashMap.getElem?_insert, hd.name]
  split_ifs
  · exact congrArg some hd.parent
  · exact hh k

theorem Respelled.extend (hh : h.Respelled h')
    (hds : List.Forall₂ Declaration.Respelled ds ds') :
    (h.extend ds).Respelled (h'.extend ds') := by
  induction hds generalizing h h' with
  | nil => exact hh
  | cons hd _ ih => exact ih (hh.register hd)

theorem Respelled.merge (hh : h.Respelled h') (hg : g.Respelled g') :
    (h.merge g).Respelled (h'.merge g') := by
  intro k
  rw [getElem?_merge, getElem?_merge, Option.map_or, Option.map_or, hh k, hg k]

theorem Respelled.parent?_eq (hh : h.Respelled h') {n n' : String} (hn : key n = key n') :
    (h.parent? n).map (Option.map key) = (h'.parent? n').map (Option.map key) := by
  rw [parent?, parent?, hn]
  exact hh _

theorem Respelled.contains_eq (hh : h.Respelled h') {n n' : String} (hn : key n = key n') :
    h.contains n = h'.contains n' := by
  have hsome := congrArg Option.isSome (hh (key n'))
  rw [Option.isSome_map, Option.isSome_map] at hsome
  rw [contains, contains, hn, Std.HashMap.contains_eq_isSome_getElem?,
    Std.HashMap.contains_eq_isSome_getElem?, hsome]

theorem Respelled.size_eq (hh : h.Respelled h') : h.size = h'.size := by
  have hequiv : (h.parents.map fun _ => Option.map key).Equiv
      (h'.parents.map fun _ => Option.map key) :=
    .of_forall_getElem?_eq fun k => by
      rw [Std.HashMap.getElem?_map, Std.HashMap.getElem?_map, hh k]
  have hsize := hequiv.size_eq
  rwa [Std.HashMap.size_map, Std.HashMap.size_map] at hsize

end Hierarchy

/-- How an index has come about: it is empty at first, classes are registered, one or several at a
time, and other indexes are merged into it. -/
inductive Indexing
  | empty
  | register (before : Indexing) (d : Declaration)
  | extend (before : Indexing) (ds : List Declaration)
  | merge (before other : Indexing)

namespace Indexing

def hierarchy : Indexing → Hierarchy
  | empty => .empty
  | register before d => before.hierarchy.register d
  | extend before ds => before.hierarchy.extend ds
  | merge before other => before.hierarchy.merge other.hierarchy

/-- The same is done to both indexes, with names in different spellings. -/
inductive Respelled : Indexing → Indexing → Prop
  | empty : Respelled .empty .empty
  | register {x x' : Indexing} {d d' : Declaration} :
    Respelled x x' → d.Respelled d' → Respelled (x.register d) (x'.register d')
  | extend {x x' : Indexing} {ds ds' : List Declaration} :
    Respelled x x' → List.Forall₂ Declaration.Respelled ds ds' →
      Respelled (x.extend ds) (x'.extend ds')
  | merge {x x' y y' : Indexing} :
    Respelled x x' → Respelled y y' → Respelled (x.merge y) (x'.merge y')

theorem Respelled.hierarchy {x x' : Indexing} (hx : x.Respelled x') :
    x.hierarchy.Respelled x'.hierarchy := by
  induction hx with
  | empty => exact fun _ => rfl
  | register _ hd ih => exact ih.register hd
  | extend _ hds ih => exact ih.extend hds
  | merge _ _ ihx ihy => exact ihx.merge ihy

end Indexing

theorem Ancestry.Climbs.map_key_eq {parent? parent?' : String → Option (Option String)}
    (hparent : ∀ n n', key n = key n' →
      (parent? n).map (Option.map key) = (parent?' n').map (Option.map key))
    {seen : List String} {next next' : Option String} {chain chain' : List String}
    (h : Climbs parent? seen next chain) (h' : Climbs parent?' seen next' chain')
    (hnext : next.map key = next'.map key) : chain.map key = chain'.map key := by
  induction h generalizing next' chain' with
  | ended =>
    obtain rfl := Option.map_eq_none_iff.mp hnext.symm
    cases h'
    rfl
  | repeated hseen =>
    obtain ⟨current', rfl, hkey⟩ := Option.map_eq_some_iff.mp hnext.symm
    cases h' with
    | repeated => rfl
    | step hnot => exact absurd hseen (hkey ▸ hnot)
  | @step seen current rest hseen _ ih =>
    obtain ⟨current', rfl, hkey⟩ := Option.map_eq_some_iff.mp hnext.symm
    cases h' with
    | repeated hmem => exact absurd (hkey ▸ hmem) hseen
    | step _ hrest =>
      rw [hkey] at hrest
      have hjoin := congrArg Option.join (hparent current current' hkey.symm)
      rw [Option.join_map_eq_map_join, Option.join_map_eq_map_join] at hjoin
      rw [List.map_cons, List.map_cons, key_bare, key_bare, hkey, ih hrest hjoin]

namespace Scope

structure Respelled (s s' : Scope) : Prop where
  hierarchy : s.hierarchy.Respelled s'.hierarchy
  declarations : List.Forall₂ Declaration.Respelled s.declarations s'.declarations

namespace Respelled

variable {s s' : Scope} (hs : s.Respelled s')

include hs

theorem parent?_eq {n n' : String} (hn : key n = key n') :
    (s.parent? n).map (Option.map key) = (s'.parent? n').map (Option.map key) := by
  have hfile := Hierarchy.lastParent?_respelled (List.rel_reverse hs.declarations) (key n')
  rw [Scope.parent?_eq, Scope.parent?_eq, Option.map_or, Option.map_or, hn, hfile,
    hs.hierarchy.parent?_eq hn]

theorem map_key_ancestors {d d' : Declaration} (hd : d.Respelled d') :
    (s.ancestors d).map key = (s'.ancestors d').map key := by
  have hclimbs' := s'.ancestors_climbs d'
  rw [← hd.name] at hclimbs'
  exact (s.ancestors_climbs d).map_key_eq (fun _ _ hn => hs.parent?_eq hn) hclimbs' hd.parent

theorem enclosing? (span : Span) :
    Option.Rel Declaration.Respelled (s.enclosing? span) (s'.enclosing? span) := by
  have hshorter : ∀ d d', Declaration.Respelled d d' → ∀ e e', Declaration.Respelled e e' →
      (shorter d e).Respelled (shorter d' e') := by
    intro d d' hd e e' he
    rw [shorter, shorter, hd.span, he.span]
    split_ifs
    · exact he
    · exact hd
  have hfilter : List.Forall₂ Declaration.Respelled
      (s.declarations.filter fun d => span.Inside d.span)
      (s'.declarations.filter fun d => span.Inside d.span) :=
    List.rel_filter (fun d d' hd => by simp only [hd.span]) hs.declarations
  rw [Scope.enclosing?, Scope.enclosing?]
  generalize s.declarations.filter _ = around at hfilter
  generalize s'.declarations.filter _ = around' at hfilter
  cases hfilter with
  | nil => exact .none
  | cons hd hrest =>
    exact .some (List.rel_foldl (P := Declaration.Respelled) (R := Declaration.Respelled)
      (fun _ _ hd _ _ he => hshorter _ _ hd _ _ he) hd hrest)

theorem context? (span : Span) :
    Option.Rel ClassContext.Respelled (s.context? span) (s'.context? span) := by
  have henclosing := hs.enclosing? span
  rw [Scope.context?, Scope.context?]
  generalize s.enclosing? span = found at henclosing
  generalize s'.enclosing? span = found' at henclosing
  cases henclosing with
  | none => exact .none
  | some hd => exact .some ⟨hd.name, hs.map_key_ancestors hd⟩

end Respelled

end Scope

/-- Names may be written in any spelling that has the same key, in the index and in the file: the
same classes are known, and chains of ancestors have the same classes in the same order, so the same
class is resolved for a place and it descends from the same classes. -/
theorem Indexing.respelled_agrees {x x' : Indexing} {ds ds' : List Declaration}
    (hx : x.Respelled x') (hds : List.Forall₂ Declaration.Respelled ds ds') :
    (∀ n n', key n = key n' → x.hierarchy.contains n = x'.hierarchy.contains n' ∧
      (x.hierarchy.parent? n).map (Option.map key) =
        (x'.hierarchy.parent? n').map (Option.map key)) ∧
    x.hierarchy.size = x'.hierarchy.size ∧
    (∀ d d', d.Respelled d' → ((⟨x.hierarchy, ds⟩ : Scope).ancestors d).map key =
      ((⟨x'.hierarchy, ds'⟩ : Scope).ancestors d').map key) ∧
    (∀ span, Option.Rel ClassContext.Respelled ((⟨x.hierarchy, ds⟩ : Scope).context? span)
      ((⟨x'.hierarchy, ds'⟩ : Scope).context? span)) ∧
    ∀ c c' : ClassContext, c.Respelled c' → ∀ n n', key n = key n' →
      (c.IsSubclassOf n ↔ c'.IsSubclassOf n') := by
  have hh := hx.hierarchy
  have hs : Scope.Respelled ⟨x.hierarchy, ds⟩ ⟨x'.hierarchy, ds'⟩ := ⟨hh, hds⟩
  refine ⟨fun n n' hn => ⟨hh.contains_eq hn, hh.parent?_eq hn⟩, hh.size_eq,
    fun d d' hd => hs.map_key_ancestors hd, hs.context?, fun c c' hc n n' hn => ?_⟩
  exact hc.isSubclassOf_iff hn

def plainIndexing : Indexing :=
  (Indexing.empty.register ⟨"App\\B", some "Lib\\C", ⟨0, 9⟩⟩).merge
    (Indexing.empty.extend [⟨"Lib\\C", some "F", ⟨0, 9⟩⟩])

def shoutedIndexing : Indexing :=
  (Indexing.empty.register ⟨"\\APP\\B", some "lib\\C", ⟨0, 9⟩⟩).merge
    (Indexing.empty.extend [⟨"\\LIB\\c", some "\\f", ⟨0, 9⟩⟩])

theorem respelled_shouted : plainIndexing.Respelled shoutedIndexing := by
  refine .merge (.register .empty ⟨?_, ?_, rfl⟩) (.extend .empty (.cons ⟨?_, ?_, rfl⟩ .nil))
  all_goals decide +kernel

theorem Indexing.respelled_agrees_shouted : plainIndexing.Respelled shoutedIndexing ∧
    plainIndexing.hierarchy.contains "app\\b" = shoutedIndexing.hierarchy.contains "\\App\\B" ∧
    ((⟨plainIndexing.hierarchy, [⟨"A", some "App\\B", ⟨0, 9⟩⟩]⟩ : Scope).ancestors
        ⟨"A", some "App\\B", ⟨0, 9⟩⟩).map key =
      ((⟨shoutedIndexing.hierarchy, [⟨"a", some "\\app\\b", ⟨0, 9⟩⟩]⟩ : Scope).ancestors
        ⟨"a", some "\\app\\b", ⟨0, 9⟩⟩).map key := by
  have hd : Declaration.Respelled ⟨"A", some "App\\B", ⟨0, 9⟩⟩ ⟨"a", some "\\app\\b", ⟨0, 9⟩⟩ :=
    ⟨by decide +kernel, by decide +kernel, rfl⟩
  obtain ⟨hlookups, -, hancestors, -⟩ :=
    Indexing.respelled_agrees respelled_shouted (.cons hd .nil)
  exact ⟨respelled_shouted, (hlookups _ _ (by decide +kernel)).1, hancestors _ _ hd⟩

end FactoryLint
