import FactoryLint.Project.FileTree
import Mathlib.Data.List.Basic

namespace FactoryLint

namespace FileTree

def content? : FileTree → Option ByteArray
  | .file content => some content
  | .directory _ => none

theorem at?_cons (tree : FileTree) (name : String) (names : List String) :
    tree.at? (name :: names) = (tree.entries.lookup name).bind (·.at? names) := rfl

theorem lookup_put (name other : String) (t : FileTree) (entries : List (String × FileTree)) :
    (put name t entries).lookup other = if other = name then some t else entries.lookup other := by
  induction entries with
  | nil =>
    rw [put, List.lookup_cons]
    split_ifs with h
    · simp [h]
    · rw [beq_eq_false_iff_ne.mpr h]
  | cons entry entries ih =>
    obtain ⟨n, s⟩ := entry
    rw [put]
    split_ifs with hn ho ho
    · simp [ho]
    · subst hn
      rw [List.lookup_cons, List.lookup_cons, beq_eq_false_iff_ne.mpr ho]
    · subst ho
      rw [List.lookup_cons, beq_eq_false_iff_ne.mpr (Ne.symm hn), ih, if_pos rfl]
    · rw [List.lookup_cons, List.lookup_cons, ih, if_neg ho]

theorem content?_insert {tree : FileTree} {names : List String} {old : ByteArray}
    (h : tree.at? names = some (.file old)) (new : ByteArray) (other : List String) :
    ((tree.insert names (.file new)).at? other).map content? =
      if other = names then some (some new) else (tree.at? other).map content? := by
  induction names generalizing tree other with
  | nil =>
    obtain rfl : tree = .file old := Option.some.inj h
    rw [insert]
    cases other with
    | nil => rfl
    | cons name names => rw [if_neg (List.cons_ne_nil _ _)]; rfl
  | cons name names ih =>
    rw [at?_cons] at h
    obtain ⟨inner, hinner, hfile⟩ := Option.bind_eq_some_iff.mp h
    rw [insert, hinner, Option.getD_some]
    cases other with
    | nil =>
      rw [if_neg (List.cons_ne_nil _ _).symm]
      cases tree with
      | file content => cases hinner
      | directory entries => rfl
    | cons name' names' =>
      rw [at?_cons, at?_cons, entries, lookup_put]
      by_cases hname : name' = name
      · subst hname
        rw [if_pos rfl, hinner, Option.bind_some, Option.bind_some, ih hfile]
        simp only [List.cons.injEq, true_and]
      · rw [if_neg hname, if_neg fun heq => hname (List.cons.inj heq).1]

end FileTree

namespace Workspace

variable {w w' : Workspace} {names : List String} {path text : String}

def view (w : Workspace) (names : List String) : Option (Option ByteArray) :=
  (w.tree.at? names).map FileTree.content?

def content? (w : Workspace) (path : String) : Option ByteArray :=
  match w.find path with
  | .ok (.file content) => some content
  | _ => none

/-- Files and directories are where they were. -/
structure SameShape (w w' : Workspace) : Prop where
  current : w'.current = w.current
  isSome : ∀ names, (w'.view names).map Option.isSome = (w.view names).map Option.isSome

theorem follow_eq (w : Workspace) (names : List String) (part : List Char) :
    w.follow names part = match (w.view names).map Option.isSome with
      | none => .error .notFound
      | some true => .error .notDirectory
      | some false =>
        if part = [] ∨ part = ['.'] then .ok names
        else if part = ['.', '.'] then .ok names.dropLast
        else if ((w.view (names ++ [.ofList part])).map Option.isSome).isSome then
          .ok (names ++ [.ofList part])
        else .error .notFound := by
  rw [follow, view, view]
  cases w.tree.at? names with
  | none => rfl
  | some t =>
    cases t with
    | file content => rfl
    | directory entries => simp only [Option.isSome_map]; rfl

theorem SameShape.refl (w : Workspace) : SameShape w w := ⟨rfl, fun _ => rfl⟩

theorem SameShape.trans {w'' : Workspace} (h : SameShape w w') (h' : SameShape w' w'') :
    SameShape w w'' :=
  ⟨h'.current.trans h.current, fun names => (h'.isSome names).trans (h.isSome names)⟩

theorem SameShape.locate_eq (h : SameShape w w') (path : String) :
    w'.locate path = w.locate path := by
  have hfollow : w'.follow = w.follow := by
    funext names part
    rw [follow_eq, follow_eq, h.isSome, h.isSome]
  rw [locate, locate, hfollow, h.current]

theorem find_eq (w : Workspace) (path : String) :
    w.find path = (w.locate path).bind fun names => match w.tree.at? names with
      | some t => .ok t
      | none => .error .notFound := by
  rw [find]
  cases w.locate path with
  | error e => rfl
  | ok names =>
    simp only [bind, Except.bind]
    cases w.tree.at? names <;> rfl

theorem content?_eq (w : Workspace) (path : String) :
    w.content? path = (w.locate path).toOption.bind fun names => (w.view names).join := by
  rw [content?, find_eq]
  cases w.locate path with
  | error e => rfl
  | ok names =>
    change _ = (w.view names).join
    rw [view, Except.bind]
    cases w.tree.at? names with
    | none => rfl
    | some t => cases t <;> rfl

theorem read_eq (w : Workspace) (path : String) :
    w.read path = (w.locate path).bind fun names => match w.view names with
      | none => .error .notFound
      | some none => .error .isDirectory
      | some (some content) =>
        match String.fromUTF8? content with
        | some text => .ok text
        | none => .error .notText := by
  rw [read, find_eq]
  cases w.locate path with
  | error e => rfl
  | ok names =>
    simp only [Except.bind, view]
    cases w.tree.at? names with
    | none => rfl
    | some t => cases t <;> rfl

/-- The path leads to a file. -/
def IsFile (w : Workspace) (path : String) : Prop :=
  ∃ names old, w.locate path = .ok names ∧ w.view names = some (some old)

theorem isFile_of_read (h : w.read path = .ok text) : w.IsFile path := by
  rw [read_eq] at h
  cases hlocate : w.locate path with
  | error e =>
    rw [hlocate] at h
    cases h
  | ok names =>
    rw [hlocate] at h
    cases hview : w.view names with
    | none => simp [Except.bind, hview] at h
    | some entry =>
      cases entry with
      | none => simp [Except.bind, hview] at h
      | some old => exact ⟨names, old, hlocate, hview⟩

theorem view_write {old : ByteArray} (hlocate : w.locate path = .ok names)
    (hview : w.view names = some (some old)) (text : String) (other : List String) :
    (w.write path text).view other =
      if other = names then some (some text.toUTF8) else w.view other := by
  obtain ⟨t, ht, hcontent⟩ := Option.map_eq_some_iff.mp hview
  cases t with
  | directory entries => cases hcontent
  | file content =>
    rw [write, hlocate]
    exact FileTree.content?_insert ht text.toUTF8 other

theorem IsFile.sameShape_write (h : w.IsFile path) (text : String) :
    SameShape w (w.write path text) := by
  obtain ⟨names, old, hlocate, hview⟩ := h
  refine ⟨?_, fun other => ?_⟩
  · rw [write, hlocate]
  · rw [view_write hlocate hview]
    split_ifs with hother
    · rw [hother, hview]
      rfl
    · rfl

theorem IsFile.of_sameShape (h : w.IsFile path) (hshape : SameShape w w') : w'.IsFile path := by
  obtain ⟨names, old, hlocate, hview⟩ := h
  have hsome := hshape.isSome names
  rw [hview] at hsome
  obtain ⟨entry, hentry, hisSome⟩ := Option.map_eq_some_iff.mp hsome
  obtain ⟨new, rfl⟩ := Option.isSome_iff_exists.mp hisSome
  exact ⟨names, new, (hshape.locate_eq path).trans hlocate, hentry⟩

def writeAll (w : Workspace) (writes : List (String × String)) : Workspace :=
  writes.foldl (fun w file => w.write file.1 file.2) w

/-- Files that are written under several paths get one text under all of them. -/
def Agree (w : Workspace) (writes : List (String × String)) : Prop :=
  ∀ x ∈ writes, ∀ y ∈ writes, w.locate x.1 = w.locate y.1 → x.2 = y.2

theorem view_writeAll {writes : List (String × String)} (hfiles : ∀ x ∈ writes, w.IsFile x.1)
    (hagree : w.Agree writes) : SameShape w (w.writeAll writes) ∧
      (∀ x ∈ writes, ∀ names, w.locate x.1 = .ok names →
        (w.writeAll writes).view names = some (some x.2.toUTF8)) ∧
      ∀ names, (∀ x ∈ writes, w.locate x.1 ≠ .ok names) →
        (w.writeAll writes).view names = w.view names := by
  induction writes generalizing w with
  | nil => exact ⟨.refl w, by simp, fun _ _ => rfl⟩
  | cons x writes ih =>
    obtain ⟨hx, hrest⟩ := List.forall_mem_cons.mp hfiles
    have hshape := hx.sameShape_write x.2
    obtain ⟨at_, old, hlocate, hview⟩ := hx
    have hwrite := view_write hlocate hview x.2
    have hagree' : (w.write x.1 x.2).Agree writes := fun y hy z hz heq => by
      rw [hshape.locate_eq, hshape.locate_eq] at heq
      exact hagree y (List.mem_cons_of_mem _ hy) z (List.mem_cons_of_mem _ hz) heq
    obtain ⟨hshape', hwritten, hkept⟩ := ih (fun y hy => (hrest y hy).of_sameShape hshape) hagree'
    simp only [hshape.locate_eq] at hwritten hkept
    refine ⟨hshape.trans hshape', List.forall_mem_cons.mpr ⟨fun names hnames => ?_, hwritten⟩,
      fun names hnames => ?_⟩
    · by_cases hagain : ∃ y ∈ writes, w.locate y.1 = .ok names
      · obtain ⟨y, hy, hynames⟩ := hagain
        have hsame := hagree x List.mem_cons_self y (List.mem_cons_of_mem _ hy)
          (hnames.trans hynames.symm)
        rw [hsame]
        exact hwritten y hy names hynames
      · have hother : ∀ y ∈ writes, w.locate y.1 ≠ .ok names := fun y hy heq => hagain ⟨y, hy, heq⟩
        obtain rfl : at_ = names := Except.ok.inj (hlocate.symm.trans hnames)
        exact (hkept at_ hother).trans ((hwrite at_).trans (if_pos rfl))
    · obtain ⟨hne, hother⟩ := List.forall_mem_cons.mp hnames
      have hne' : names ≠ at_ := fun heq => hne (heq ▸ hlocate)
      exact (hkept names hother).trans ((hwrite names).trans (if_neg hne'))

theorem read_writeAll {writes : List (String × String)} (hfiles : ∀ x ∈ writes, w.IsFile x.1)
    (hagree : w.Agree writes) {file : String × String} (h : file ∈ writes) :
    (w.writeAll writes).read file.1 = .ok file.2 := by
  obtain ⟨hshape, hwritten, -⟩ := view_writeAll hfiles hagree
  obtain ⟨names, old, hlocate, -⟩ := hfiles file h
  have hvalid : String.fromUTF8? file.2.toUTF8 = some file.2 := dif_pos file.2.isValidUTF8
  rw [read_eq, hshape.locate_eq, hlocate]
  simp only [Except.bind, hwritten file h names hlocate, hvalid]

theorem content?_writeAll {writes : List (String × String)} (hfiles : ∀ x ∈ writes, w.IsFile x.1)
    (hagree : w.Agree writes) (h : ∀ x ∈ writes, w.locate x.1 ≠ w.locate path) :
    (w.writeAll writes).content? path = w.content? path := by
  obtain ⟨hshape, -, hkept⟩ := view_writeAll hfiles hagree
  rw [content?_eq, content?_eq, hshape.locate_eq]
  cases hlocate : w.locate path with
  | error e => rfl
  | ok names =>
    change ((w.writeAll writes).view names).join = (w.view names).join
    rw [hkept names fun x hx => hlocate ▸ h x hx]

end Workspace

end FactoryLint
