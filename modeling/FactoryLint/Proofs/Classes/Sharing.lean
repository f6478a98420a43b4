import FactoryLint.Project.Check
import FactoryLint.Proofs.Php.Declared
import FactoryLint.Proofs.Traversal

namespace FactoryLint

def Declaration.lastParent? (ds : List Declaration) (key : String) : Option (Option String) :=
  (ds.reverse.find? fun d => ClassName.key d.name = key).map Declaration.parent

namespace Hierarchy

open Declaration (lastParent?)

variable {h h' : Hierarchy}

/-- No look-up tells the two apart. -/
structure Agrees (h h' : Hierarchy) : Prop where
  parent?_eq : ∀ name, h.parent? name = h'.parent? name
  contains_eq : ∀ name, h.contains name = h'.contains name
  size_eq : h.size = h'.size

theorem Agrees.of_getElem?_eq (heq : ∀ key : String, h.parents[key]? = h'.parents[key]?) :
    h.Agrees h' := by
  have hequiv := Std.HashMap.Equiv.of_forall_getElem?_eq heq
  exact ⟨fun name => heq _, fun name => hequiv.contains_eq, hequiv.size_eq⟩

theorem getElem?_empty (key : String) : empty.parents[key]? = none :=
  Std.HashMap.getElem?_empty

theorem getElem?_merge (h h' : Hierarchy) (key : String) :
    (h.merge h').parents[key]? = h'.parents[key]?.or h.parents[key]? := by
  rw [merge]
  cases hkey : h'.parents[key]? with
  | none =>
    rw [Std.HashMap.getElem?_insertMany_list_of_contains_eq_false, Option.none_or]
    rw [Std.HashMap.map_fst_toList_eq_keys, Std.HashMap.contains_keys,
      Std.HashMap.contains_eq_isSome_getElem?, hkey, Option.isSome_none]
  | some parent =>
    exact Std.HashMap.getElem?_insertMany_list_of_mem BEq.rfl Std.HashMap.distinct_keys_toList
      (Std.HashMap.mem_toList_iff_getElem?_eq_some.mpr hkey)

theorem getElem?_extend (h : Hierarchy) (ds : List Declaration) (key : String) :
    (h.extend ds).parents[key]? = (lastParent? ds key).or h.parents[key]? := by
  induction ds generalizing h with
  | nil => rfl
  | cons d ds ih =>
    have hstep : (h.extend (d :: ds)).parents[key]? = ((h.register d).extend ds).parents[key]? :=
      rfl
    rw [hstep, ih, lastParent?, lastParent?, List.reverse_cons, List.find?_append, register,
      Std.HashMap.getElem?_insert]
    cases ds.reverse.find? fun d => ClassName.key d.name = key with
    | some last => rfl
    | none => by_cases hkey : ClassName.key d.name = key <;> simp [hkey]

theorem getElem?_ofDeclarations (ds : List Declaration) (key : String) :
    (ofDeclarations ds).parents[key]? = lastParent? ds key := by
  rw [ofDeclarations, getElem?_extend, getElem?_empty, Option.or_none]

theorem lastParent?_append (ds ds' : List Declaration) (key : String) :
    lastParent? (ds ++ ds') key = (lastParent? ds' key).or (lastParent? ds key) := by
  rw [lastParent?, List.reverse_append, List.find?_append, Option.map_or]
  rfl

theorem foldl_extend (files : List (List Declaration)) (h : Hierarchy) :
    files.foldl extend h = h.extend files.flatten := by
  induction files generalizing h with
  | nil => rfl
  | cons ds files ih => rw [List.foldl_cons, ih, List.flatten_cons, extend, extend, extend,
      List.foldl_append]

/-- How the files of a project are shared out, each file given by its declarations: some files, or
two shares one after the other. A share may be of no files. -/
inductive Share
  | files (declared : List (List Declaration))
  | both (first second : Share)

namespace Share

def declared : Share → List (List Declaration)
  | .files declared => declared
  | .both first second => first.declared ++ second.declared

def index : Share → Hierarchy
  | .files declared => declared.foldl extend empty
  | .both first second => first.index.merge second.index

theorem getElem?_index (share : Share) (key : String) :
    share.index.parents[key]? = lastParent? share.declared.flatten key := by
  induction share with
  | files files =>
    rw [index, foldl_extend, getElem?_extend, getElem?_empty, Option.or_none, declared]
  | both first second ih₁ ih₂ =>
    rw [index, getElem?_merge, ih₁, ih₂, declared, List.flatten_append, lastParent?_append]

theorem index_agrees (share : Share) :
    share.index.Agrees (ofDeclarations share.declared.flatten) := by
  refine .of_getElem?_eq fun key => ?_
  rw [getElem?_index, getElem?_ofDeclarations]

end Share

/-- No class is declared twice with different parents. -/
def Consistent (ds : List Declaration) : Prop :=
  ∀ d ∈ ds, ∀ d' ∈ ds, ClassName.key d.name = ClassName.key d'.name → d.parent = d'.parent

theorem lastParent?_eq_some_iff {ds : List Declaration} (hds : Consistent ds) {key : String}
    {parent : Option String} : lastParent? ds key = some parent ↔
      ∃ d ∈ ds, ClassName.key d.name = key ∧ d.parent = parent := by
  constructor
  · intro hlast
    obtain ⟨d, hd, hparent⟩ := Option.map_eq_some_iff.mp hlast
    have hkey := List.find?_some hd
    exact ⟨d, List.mem_reverse.mp (List.mem_of_find?_eq_some hd), of_decide_eq_true hkey, hparent⟩
  · rintro ⟨d, hd, rfl, rfl⟩
    have hsome : (ds.reverse.find? fun x => ClassName.key x.name = ClassName.key d.name).isSome :=
      List.find?_isSome.mpr ⟨d, List.mem_reverse.mpr hd, decide_eq_true rfl⟩
    obtain ⟨last, hlast⟩ := Option.isSome_iff_exists.mp hsome
    have hkey := List.find?_some hlast
    have hmem := List.mem_reverse.mp (List.mem_of_find?_eq_some hlast)
    rw [lastParent?, hlast, Option.map_some, hds last hmem d hd (of_decide_eq_true hkey)]

theorem lastParent?_perm {ds ds' : List Declaration} (hds : Consistent ds) (hperm : ds'.Perm ds)
    (key : String) : lastParent? ds' key = lastParent? ds key := by
  have hds' : Consistent ds' := fun d hd d' hd' =>
    hds d (hperm.mem_iff.mp hd) d' (hperm.mem_iff.mp hd')
  refine Option.ext fun parent => ?_
  rw [lastParent?_eq_some_iff hds', lastParent?_eq_some_iff hds]
  simp only [hperm.mem_iff]

/-- The declarations of the files that could be parsed; `none` if the program stops at one. -/
def declaredIn? (sources : List (Except SourceError Source)) : Option (List (List Declaration)) :=
  (sources.filterMap Except.toOption).mapM fun s => s.program.declarations? s.text

theorem declaredIn?_cons (s : Source) (sources : List (Except SourceError Source)) :
    declaredIn? (.ok s :: sources) = (s.program.declarations? s.text).bind fun ds =>
      (declaredIn? sources).map (ds :: ·) := by
  have hparsed : (.ok s :: sources).filterMap Except.toOption =
      s :: sources.filterMap Except.toOption := rfl
  rw [declaredIn?, hparsed, List.mapM_cons]
  exact Option.bind_congr fun ds _ => (Option.map_eq_bind (f := (ds :: ·))).symm

theorem index?_eq_ofDeclarations (sources : List (Except SourceError Source)) :
    Source.index? sources =
      (declaredIn? sources).map fun files => ofDeclarations files.flatten := by
  have hfold : ∀ h : Hierarchy, sources.foldlM Source.extendBy? h =
      (declaredIn? sources).map fun files => files.foldl extend h := by
    induction sources with
    | nil => exact fun _ => rfl
    | cons source sources ih =>
      intro h
      rw [List.foldlM_cons]
      cases source with
      | error e => exact ih h
      | ok s =>
        rw [declaredIn?_cons, Source.extendBy?]
        cases s.program.declarations? s.text with
        | none => rfl
        | some ds =>
          refine (ih (h.extend ds)).trans ?_
          rw [Option.bind_some, Option.map_map]
          rfl
  refine (hfold empty).trans (Option.map_congr fun files _ => foldl_extend files empty)

theorem isSome_index?_iff {sources : List (Except SourceError Source)} :
    (Source.index? sources).isSome ↔ ∀ x, .ok x ∈ sources → x.program.IsLegible x.text := by
  rw [index?_eq_ofDeclarations, Option.isSome_map, declaredIn?, isSome_mapM_iff]
  have hmem : ∀ x, x ∈ sources.filterMap Except.toOption ↔ .ok x ∈ sources := by
    intro x
    rw [List.mem_filterMap]
    constructor
    · rintro ⟨source, hsource, hx⟩
      cases source with
      | error e => cases hx
      | ok y =>
        obtain rfl := Option.some.inj hx
        exact hsource
    · exact fun hx => ⟨.ok x, hx, rfl⟩
  simp only [hmem, Php.isSome_declarations?_iff]

/-- However the files are shared out, the merged hierarchy answers as the one that all declarations
are put into one by one, where the last declaration of a class counts. So it answers as the index of
the project, and where no class is declared with two parents, also for any other order of files. -/
theorem share_index_agrees (share : Share) :
    share.index.Agrees (ofDeclarations share.declared.flatten) ∧
    (∀ name, share.index.parent? name =
      lastParent? share.declared.flatten (ClassName.key name)) ∧
    (∀ sources, declaredIn? sources = some share.declared →
      ∃ h, Source.index? sources = some h ∧ share.index.Agrees h) ∧
    (Consistent share.declared.flatten → ∀ other : Share, other.declared.Perm share.declared →
      other.index.Agrees share.index) := by
  refine ⟨share.index_agrees, fun name => share.getElem?_index _, fun sources hsources => ?_,
    fun hconsistent other hperm => .of_getElem?_eq fun key => ?_⟩
  · rw [index?_eq_ofDeclarations, hsources]
    exact ⟨_, rfl, share.index_agrees⟩
  · rw [share.getElem?_index, other.getElem?_index]
    exact lastParent?_perm hconsistent hperm.flatten key

def twiceSources : List (Except SourceError Source) :=
  [.ok ⟨"<?php class A extends B \x7b\x7d", [.other ⟨0, 5⟩, .classDecl ⟨6, 26⟩ "A" (some "B") []]⟩,
    .error .malformed,
    .ok ⟨"<?php class a extends B \x7b\x7d", [.other ⟨0, 5⟩, .classDecl ⟨6, 26⟩ "a" (some "B") []]⟩]

def twiceShare : Share :=
  .both (.files [[⟨"A", some "B", ⟨6, 26⟩⟩]])
    (.both (.files []) (.files [[⟨"a", some "B", ⟨6, 26⟩⟩]]))

theorem declaredIn?_twice : declaredIn? twiceSources = some twiceShare.declared := by
  decide +kernel

theorem consistent_twice : Consistent twiceShare.declared.flatten := by
  unfold Consistent
  decide +kernel

theorem share_index_agrees_twice :
    declaredIn? twiceSources = some twiceShare.declared ∧
    (∃ h, Source.index? twiceSources = some h ∧ twiceShare.index.Agrees h) ∧
    Consistent twiceShare.declared.flatten ∧
    (Share.files twiceShare.declared.reverse).index.Agrees twiceShare.index ∧
    twiceShare.index.parent? "\\a" = some (some "B") := by
  obtain ⟨-, hparent, hsources, horder⟩ := share_index_agrees twiceShare
  refine ⟨declaredIn?_twice, hsources _ declaredIn?_twice, consistent_twice,
    horder consistent_twice _ (List.reverse_perm _), ?_⟩
  rw [hparent]
  decide +kernel

end Hierarchy

end FactoryLint
