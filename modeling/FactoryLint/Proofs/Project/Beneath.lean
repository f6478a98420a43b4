import FactoryLint.Project.Discovery
import FactoryLint.Proofs.Project.Excluded
import FactoryLint.Proofs.Project.Files
import Mathlib.Data.List.Nodup

namespace FactoryLint

namespace Path

def IsName (name : String) : Prop := IsPart name.toList ∧ name ≠ "." ∧ name ≠ ".."

instance (name : String) : Decidable (IsName name) :=
  inferInstanceAs (Decidable ((_ ≠ _ ∧ _ ∉ _) ∧ _ ∧ _))

/-- The path that leads on under some names, one below the other. -/
def below (path : List Char) (names : List String) : List Char :=
  names.foldl (fun path name => join path name.toList) path

/-- A path without the slash at its end. -/
def stem (path : List Char) : List Char :=
  if path.getLast? = some '/' then path.dropLast else path

variable {path : List Char} {names names' : List String}

theorem stem_concat (path : List Char) : stem (path ++ ['/']) = path := by
  rw [stem, if_pos List.getLast?_concat, List.dropLast_concat]

theorem join_eq (h : path ≠ []) (name : List Char) : join path name = stem path ++ '/' :: name := by
  by_cases hslash : path.getLast? = some '/'
  · obtain ⟨front, rfl⟩ := List.getLast?_eq_some_iff.mp hslash
    rw [stem_concat, join, hslash]
    simp
  · rw [stem, if_neg hslash, join, List.getLast?_eq_some_getLast h]
    split
    · contradiction
    · rename_i heq
      exact absurd ((List.getLast?_eq_some_getLast h).trans heq) hslash
    · rfl

theorem join_ne_nil (h : path ≠ []) (name : List Char) : join path name ≠ [] := by
  rw [join_eq h]
  exact List.append_ne_nil_of_right_ne_nil _ (List.cons_ne_nil _ _)

theorem stem_join (h : path ≠ []) {name : List Char} (hname : IsPart name) :
    stem (join path name) = join path name := by
  obtain ⟨hne, hslash⟩ := hname
  rw [stem, if_neg]
  rw [join_eq h, List.getLast?_append_of_ne_nil _ (List.cons_ne_nil _ _),
    List.getLast?_cons_of_ne_nil hne]
  exact fun hlast => hslash (List.mem_of_getLast? hlast)

theorem below_cons (path : List Char) (name : String) (names : List String) :
    below path (name :: names) = below (join path name.toList) names := rfl

theorem below_eq (h : path ≠ []) (hnames : ∀ name ∈ names, IsName name) (hne : names ≠ []) :
    below path names = stem path ++ slashed (names.map String.toList) := by
  induction names generalizing path with
  | nil => exact absurd rfl hne
  | cons name names ih =>
    obtain ⟨hname, hrest⟩ := List.forall_mem_cons.mp hnames
    rw [below_cons, List.map_cons, slashed_cons]
    cases names with
    | nil => simp [below, join_eq h, slashed]
    | cons next names =>
      rw [ih (join_ne_nil h _) hrest (List.cons_ne_nil _ _), stem_join h hname.1, join_eq h]
      simp

end Path

namespace FileTree

mutual

/-- In each directory the entries have names of their own. -/
def IsProper : FileTree → Prop
  | .file _ => True
  | .directory entries => (entries.map (·.1)).Nodup ∧ AreProper entries

def AreProper : List (String × FileTree) → Prop
  | [] => True
  | (name, t) :: entries => Path.IsName name ∧ t.IsProper ∧ AreProper entries

end

mutual

/-- The names that lead to what stands in a tree, from the top down. -/
def places : FileTree → List (List String)
  | .file _ => [[]]
  | .directory entries => [] :: placesBelow entries

def placesBelow : List (String × FileTree) → List (List String)
  | [] => []
  | (name, t) :: entries => t.places.map (name :: ·) ++ placesBelow entries

end

variable {t inner : FileTree} {entries : List (String × FileTree)} {name : String}
  {names : List String}

mutual

theorem paths_eq (t : FileTree) (path : List Char) :
    t.paths path = t.places.map (Path.below path) := by
  cases t with
  | file content => rfl
  | directory entries =>
    rw [paths, places, List.map_cons, pathsBelow_eq]
    rfl

theorem pathsBelow_eq (entries : List (String × FileTree)) (path : List Char) :
    pathsBelow path entries = (placesBelow entries).map (Path.below path) := by
  cases entries with
  | nil => rfl
  | cons entry entries =>
    obtain ⟨name, t⟩ := entry
    rw [pathsBelow, placesBelow, List.map_append, List.map_map, paths_eq, pathsBelow_eq]
    rfl

end

theorem areProper_iff : AreProper entries ↔ ∀ e ∈ entries, Path.IsName e.1 ∧ e.2.IsProper := by
  induction entries with
  | nil => simp [AreProper]
  | cons entry entries ih => rw [AreProper, List.forall_mem_cons, ih, and_assoc]

theorem lookup_eq_some_iff (h : (entries.map (·.1)).Nodup) :
    entries.lookup name = some t ↔ (name, t) ∈ entries := by
  induction entries with
  | nil => simp
  | cons entry entries ih =>
    obtain ⟨other, s⟩ := entry
    rw [List.map_cons, List.nodup_cons] at h
    rw [List.lookup_cons, List.mem_cons, Prod.mk.injEq, ← ih h.2]
    by_cases hname : name = other
    · have hnone : entries.lookup name ≠ some t := by
        intro hsome
        exact h.1 (List.mem_map.mpr ⟨(name, t), (ih h.2).mp hsome, hname⟩)
      simp [hname, eq_comm, hname ▸ hnone]
    · simp [hname, beq_eq_false_iff_ne.mpr hname]

theorem at?_file (content : ByteArray) : (FileTree.file content).at? names = some t ↔
    names = [] ∧ t = .file content := by
  cases names with
  | nil => simp [at?, eq_comm]
  | cons name names => simp [at?_cons, entries]

theorem at?_directory (h : (entries.map (·.1)).Nodup) :
    ((directory entries).at? (name :: names)).isSome ↔
      ∃ t, (name, t) ∈ entries ∧ (t.at? names).isSome := by
  rw [at?_cons, FileTree.entries]
  constructor
  · intro hsome
    obtain ⟨t, ht⟩ := Option.isSome_iff_exists.mp (Option.isSome_of_isSome_bind hsome)
    rw [ht, Option.bind_some] at hsome
    exact ⟨t, (lookup_eq_some_iff h).mp ht, hsome⟩
  · rintro ⟨t, ht, hsome⟩
    rwa [(lookup_eq_some_iff h).mpr ht, Option.bind_some]

mutual

theorem mem_places (t : FileTree) (h : t.IsProper) (names : List String) :
    names ∈ t.places ↔ (t.at? names).isSome := by
  cases t with
  | file content =>
    rw [places, List.mem_singleton, Option.isSome_iff_exists]
    simp [at?_file]
  | directory entries =>
    rw [places, List.mem_cons, mem_placesBelow entries h.2]
    cases names with
    | nil => simp [at?]
    | cons name names => simp [at?_directory h.1]

theorem mem_placesBelow (entries : List (String × FileTree)) (h : AreProper entries)
    (names : List String) : names ∈ placesBelow entries ↔
      ∃ name rest, names = name :: rest ∧ ∃ t, (name, t) ∈ entries ∧ (t.at? rest).isSome := by
  cases entries with
  | nil => simp [placesBelow]
  | cons entry entries =>
    obtain ⟨name, t⟩ := entry
    rw [placesBelow, List.mem_append, List.mem_map, mem_placesBelow entries h.2.2]
    constructor
    · rintro (⟨rest, hrest, rfl⟩ | ⟨other, rest, rfl, s, hs, hsome⟩)
      · exact ⟨name, rest, rfl, t, List.mem_cons_self, (mem_places t h.2.1 rest).mp hrest⟩
      · exact ⟨other, rest, rfl, s, List.mem_cons_of_mem _ hs, hsome⟩
    · rintro ⟨other, rest, rfl, s, hs, hsome⟩
      cases hs with
      | head => exact Or.inl ⟨rest, (mem_places t h.2.1 rest).mpr hsome, rfl⟩
      | tail _ hs => exact Or.inr ⟨other, rest, rfl, s, hs, hsome⟩

end

mutual

theorem nodup_places (t : FileTree) (h : t.IsProper) : t.places.Nodup := by
  cases t with
  | file content => exact List.nodup_singleton _
  | directory entries =>
    rw [places, List.nodup_cons]
    refine ⟨?_, nodup_placesBelow entries h.1 h.2⟩
    rw [mem_placesBelow entries h.2]
    rintro ⟨name, rest, heq, -⟩
    cases heq

theorem nodup_placesBelow (entries : List (String × FileTree)) (hn : (entries.map (·.1)).Nodup)
    (h : AreProper entries) : (placesBelow entries).Nodup := by
  cases entries with
  | nil => exact List.nodup_nil
  | cons entry entries =>
    obtain ⟨name, t⟩ := entry
    rw [List.map_cons, List.nodup_cons] at hn
    rw [placesBelow, List.nodup_append']
    refine ⟨(nodup_places t h.2.1).map List.cons_injective,
      nodup_placesBelow entries hn.2 h.2.2, ?_⟩
    intro names hnames hbelow
    obtain ⟨rest, -, rfl⟩ := List.mem_map.mp hnames
    obtain ⟨other, rest', heq, s, hs, -⟩ := (mem_placesBelow entries h.2.2 _).mp hbelow
    obtain ⟨rfl, -⟩ := List.cons.inj heq
    exact hn.1 (List.mem_map.mpr ⟨(name, s), hs, rfl⟩)

end

theorem IsProper.at? (h : t.IsProper) (hat : t.at? names = some inner) :
    inner.IsProper ∧ ∀ name ∈ names, Path.IsName name := by
  induction names generalizing t with
  | nil =>
    obtain rfl := Option.some.inj hat
    exact ⟨h, by simp⟩
  | cons name names ih =>
    cases t with
    | file content => cases ((at?_file content).mp hat).1
    | directory entries =>
      rw [at?_cons] at hat
      obtain ⟨s, hs, hrest⟩ := Option.bind_eq_some_iff.mp hat
      obtain ⟨hname, hproper⟩ := areProper_iff.mp h.2 _ ((lookup_eq_some_iff h.1).mp hs)
      obtain ⟨hinner, hnames⟩ := ih hproper hrest
      exact ⟨hinner, List.forall_mem_cons.mpr ⟨hname, hnames⟩⟩

end FileTree

namespace Workspace

variable {w : Workspace} {path name : String} {names : List String} {t inner : FileTree}
  {entries : List (String × FileTree)}

end Workspace

end FactoryLint
