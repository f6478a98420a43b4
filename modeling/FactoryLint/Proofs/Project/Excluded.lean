import FactoryLint.Project.Config
import FactoryLint.Proofs.Text.Pieces

namespace FactoryLint

namespace Path

def IsPart (part : List Char) : Prop := part ≠ [] ∧ '/' ∉ part

def ofParts (isRooted : Bool) (parts : List (List Char)) : List Char :=
  (if isRooted then ['/'] else []) ++ ['/'].intercalate parts

/-- The pattern for a directory with these components. -/
def directory (parts : List (List Char)) : List Char := ['/'].intercalate parts ++ ['/']

def slashed (parts : List (List Char)) : List Char := parts.flatMap ('/' :: ·)

variable {dirs parts : List (List Char)}

theorem cons_intercalate (h : parts ≠ []) : '/' :: ['/'].intercalate parts = slashed parts := by
  induction parts with
  | nil => exact absurd rfl h
  | cons part parts ih =>
    cases parts with
    | nil => simp [slashed]
    | cons next parts =>
      have hrest := ih (List.cons_ne_nil _ _)
      rw [List.intercalate_cons_cons, slashed, List.flatMap_cons, ← slashed, ← hrest]
      simp

theorem slashed_cons (part : List Char) (parts : List (List Char)) :
    slashed (part :: parts) = '/' :: (part ++ slashed parts) := rfl

theorem head_slashed (parts : List (List Char)) : ∀ c ∈ (slashed parts).head?, c = '/' := by
  cases parts <;> simp [slashed]

theorem append_inj_of_slash {part part' rest rest' : List Char} (h : '/' ∉ part) (h' : '/' ∉ part')
    (hrest : ∀ c ∈ rest.head?, c = '/') (hrest' : ∀ c ∈ rest'.head?, c = '/') :
    part ++ rest = part' ++ rest' ↔ part = part' ∧ rest = rest' := by
  have hne : ∀ {p : List Char}, '/' ∉ p → ∀ c ∈ p, decide (c ≠ '/') = true := by
    intro p hp c hc
    apply decide_eq_true
    rintro rfl
    exact hp hc
  constructor
  · apply Text.append_inj_of_stop (hne h) (hne h')
    · intro c hc
      simp [hrest c hc]
    · intro c hc
      simp [hrest' c hc]
  · rintro ⟨rfl, rfl⟩
    rfl

theorem slashed_prefix_iff (hdirs : ∀ d ∈ dirs, '/' ∉ d) (hparts : ∀ p ∈ parts, '/' ∉ p) :
    slashed dirs ++ ['/'] <+: slashed parts ↔ ∃ next after, parts = dirs ++ next :: after := by
  induction dirs generalizing parts with
  | nil => cases parts <;> simp [slashed]
  | cons d dirs ih =>
    cases parts with
    | nil => simp [slashed]
    | cons part parts =>
      have hrest := ih (fun x hx => hdirs x (List.mem_cons_of_mem _ hx))
        fun x hx => hparts x (List.mem_cons_of_mem _ hx)
      have hsplit : ∀ rest, slashed (d :: dirs) ++ ['/'] ++ rest = slashed (part :: parts) ↔
          d = part ∧ slashed dirs ++ ['/'] ++ rest = slashed parts := by
        intro rest
        have hfirst : ∀ c ∈ (slashed dirs ++ ['/'] ++ rest).head?, c = '/' := by
          cases dirs <;> simp [slashed]
        rw [← append_inj_of_slash (hdirs d List.mem_cons_self) (hparts part List.mem_cons_self)
          hfirst (head_slashed parts), slashed_cons, slashed_cons]
        simp
      simp only [List.IsPrefix, hsplit] at hrest ⊢
      constructor
      · rintro ⟨rest, rfl, heq⟩
        obtain ⟨next, after, rfl⟩ := hrest.mp ⟨rest, heq⟩
        exact ⟨next, after, rfl⟩
      · rintro ⟨next, after, heq⟩
        obtain ⟨rfl, rfl⟩ := List.cons.inj heq
        obtain ⟨rest, hrest⟩ := hrest.mpr ⟨next, after, rfl⟩
        exact ⟨rest, rfl, hrest⟩

theorem slashed_infix_iff (hdirs : ∀ d ∈ dirs, '/' ∉ d) (hparts : ∀ p ∈ parts, '/' ∉ p) :
    slashed dirs ++ ['/'] <:+: slashed parts ↔
      ∃ before next after, parts = before ++ dirs ++ next :: after := by
  obtain ⟨word, hword⟩ : ∃ word, slashed dirs ++ ['/'] = '/' :: word := by
    cases dirs with
    | nil => exact ⟨[], rfl⟩
    | cons d dirs => exact ⟨d ++ slashed dirs ++ ['/'], by simp [slashed_cons]⟩
  induction parts with
  | nil => simp [slashed]
  | cons part parts ih =>
    have hpart := hparts part List.mem_cons_self
    have hrest := ih fun x hx => hparts x (List.mem_cons_of_mem _ hx)
    have hprefix := slashed_prefix_iff hdirs hparts
    rw [slashed_cons, List.infix_cons_iff, ← slashed_cons, hprefix, hword,
      Text.infix_append_iff_of_not_mem hpart, ← hword, hrest]
    constructor
    · rintro (⟨next, after, heq⟩ | ⟨before, next, after, rfl⟩)
      · exact ⟨[], next, after, heq⟩
      · exact ⟨part :: before, next, after, rfl⟩
    · rintro ⟨before, next, after, heq⟩
      cases before with
      | nil => exact Or.inl ⟨next, after, heq⟩
      | cons x before => exact Or.inr ⟨before, next, after, (List.cons.inj heq).2⟩

theorem infix_dropLast_iff (h : parts ≠ []) : dirs <:+: parts.dropLast ↔
    ∃ before next after, parts = before ++ dirs ++ next :: after := by
  constructor
  · rintro ⟨before, after, heq⟩
    have hparts := List.dropLast_concat_getLast h
    rw [← heq, List.append_assoc, List.append_assoc] at hparts
    cases after with
    | nil => exact ⟨before, parts.getLast h, [], by simpa using hparts.symm⟩
    | cons next after =>
      exact ⟨before, next, after ++ [parts.getLast h], by simpa using hparts.symm⟩
  · rintro ⟨before, next, after, rfl⟩
    refine ⟨before, (next :: after).dropLast, ?_⟩
    rw [List.dropLast_append_of_ne_nil (List.cons_ne_nil _ _)]

theorem intercalate_ne_nil (h : parts ≠ []) (hparts : ∀ p ∈ parts, IsPart p) :
    ['/'].intercalate parts ≠ [] := by
  intro hnil
  obtain ⟨part, rest, rfl⟩ := List.exists_cons_of_ne_nil h
  have hslashed := cons_intercalate h
  rw [hnil, slashed_cons] at hslashed
  simp [(hparts part List.mem_cons_self).1] at hslashed

theorem getLast_intercalate_ne (h : parts ≠ []) (hparts : ∀ p ∈ parts, IsPart p) :
    ∀ c ∈ (['/'].intercalate parts).getLast?, c ≠ '/' := by
  induction parts with
  | nil => exact absurd rfl h
  | cons part parts ih =>
    cases parts with
    | nil =>
      rw [List.intercalate_singleton]
      rintro c hc rfl
      exact (hparts part List.mem_cons_self).2 (List.mem_of_getLast? hc)
    | cons next parts =>
      have hrest : ∀ p ∈ next :: parts, IsPart p := fun p hp => hparts p (List.mem_cons_of_mem _ hp)
      have hne := intercalate_ne_nil (List.cons_ne_nil next parts) hrest
      rw [List.intercalate_cons_cons, List.getLast?_append_of_ne_nil _ hne]
      exact ih (List.cons_ne_nil _ _) hrest

theorem head_directory_ne (h : dirs ≠ []) (hdirs : ∀ d ∈ dirs, IsPart d) :
    ∀ c ∈ (directory dirs).head?, c ≠ '/' := by
  obtain ⟨d, rest, rfl⟩ := List.exists_cons_of_ne_nil h
  obtain ⟨hne, hslash⟩ := hdirs d List.mem_cons_self
  obtain ⟨more, hmore⟩ : ∃ more, directory (d :: rest) = d ++ more := by
    cases rest with
    | nil => exact ⟨['/'], by rw [directory, List.intercalate_singleton]⟩
    | cons next rest =>
      exact ⟨'/' :: directory (next :: rest), by simp [directory, List.intercalate_cons_cons]⟩
  rw [hmore, List.head?_append_of_ne_nil _ hne]
  rintro c hc rfl
  exact hslash (List.mem_of_head? hc)

theorem not_mem_of_fileName? {path name : List Char} (h : fileName? path = some name) :
    '/' ∉ name := by
  rw [fileName?] at h
  split at h
  · rename_i text hlast
    obtain rfl := Option.some.inj h
    have hmem := List.mem_of_getLast? hlast
    simp only [components, List.mem_append, List.mem_map, List.mem_filter] at hmem
    obtain hmem | ⟨part, ⟨hpart, -⟩, heq⟩ := hmem
    · split at hmem <;> simp at hmem
    · split at heq
      · cases heq
      · obtain rfl := Component.name.inj heq
        exact Text.not_mem_of_mem_splitAt hpart
  · cases h

end Path

namespace Glob

/-- None of the characters stands for anything but itself. -/
def IsPlain (text : List Char) : Prop := '?' ∉ text ∧ '*' ∉ text ∧ '[' ∉ text

theorem piecesUpTo_of_isPlain {text : List Char} (h : IsPlain text) {bound : Nat}
    (hbound : text.length ≤ bound) (atStart : Bool) :
    piecesUpTo bound atStart text = some (text.map .char) := by
  induction text generalizing bound atStart with
  | nil => rw [piecesUpTo, List.map_nil]
  | cons c cs ih =>
    obtain ⟨bound, rfl⟩ := Nat.exists_eq_add_of_le' (Nat.lt_of_lt_of_le (Nat.zero_lt_succ _) hbound)
    simp only [IsPlain, List.mem_cons, not_or] at h
    obtain ⟨⟨hq, hqs⟩, ⟨hs, hss⟩, ⟨hb, hbs⟩⟩ := h
    rw [piecesUpTo, ih ⟨hqs, hss, hbs⟩ (Nat.le_of_succ_le_succ hbound)]
    · rfl
    · exact fun _ he _ => hs he.symm
    · exact fun he => hs he.symm
    · exact fun he => hq he.symm
    · exact fun he => hb he.symm

theorem acceptsFrom_map_char (text path : List Char) :
    acceptsFrom (text.map .char) path ↔ path = text := by
  induction text generalizing path with
  | nil => simp [acceptsFrom]
  | cons c cs ih =>
    cases path with
    | nil => simp [acceptsFrom]
    | cons x path =>
      rw [List.map_cons, acceptsFrom, Bool.and_eq_true, ih, decide_eq_true_eq, List.cons.injEq]
      exact and_congr_left' eq_comm

theorem accepts_iff_of_isPlain {pattern : List Char} (h : IsPlain pattern) :
    ∃ glob, parse? pattern = some glob ∧ ∀ text, glob.accepts text ↔ text = pattern := by
  refine ⟨⟨pattern.map .char⟩, ?_, fun text => acceptsFrom_map_char pattern text⟩
  rw [parse?, piecesUpTo_of_isPlain h (Nat.le_refl _), Option.map_some]

theorem IsPlain.directory {dirs : List (List Char)} (h : ∀ d ∈ dirs, IsPlain d) :
    IsPlain (Path.directory dirs) := by
  have hnot : ∀ {c : Char}, c ≠ '/' → (∀ d ∈ dirs, c ∉ d) → c ∉ Path.directory dirs := by
    intro c hc hd
    have hslash : c ∉ ['/'] := by simpa using hc
    rw [Path.directory, List.mem_append, not_or]
    exact ⟨Text.not_mem_intercalate hslash hd, hslash⟩
  exact ⟨hnot (by decide) fun d hd => (h d hd).1, hnot (by decide) fun d hd => (h d hd).2.1,
    hnot (by decide) fun d hd => (h d hd).2.2⟩

end Glob

namespace ProjectConfig

open FactoryLint.Path (IsPart)

variable {dirs parts : List (List Char)}

theorem isBelow_directory (hne : dirs ≠ []) (hdirs : ∀ d ∈ dirs, IsPart d) (path : List Char) :
    isBelow (Path.directory dirs) path ↔
      Path.directory dirs <+: path ∨ '/' :: Path.directory dirs <:+: path := by
  have hdrop : Text.dropRight '/' (Path.directory dirs) ++ ['/'] = Path.directory dirs := by
    rw [Path.directory, Text.dropRight_concat (Path.getLast_intercalate_ne hne hdirs)]
  have hlast : (Path.directory dirs).getLast? = some '/' := by simp [Path.directory]
  rw [isBelow, hlast, hdrop, Bool.and_eq_true, Bool.or_eq_true, List.isPrefixOf_iff_prefix,
    Text.isSome_breakAt?_iff]
  simp

theorem isBelow_directory_ofParts (hne : dirs ≠ []) (hdirs : ∀ d ∈ dirs, IsPart d)
    (hne' : parts ≠ []) (hparts : ∀ p ∈ parts, IsPart p) (isRooted : Bool) :
    isBelow (Path.directory dirs) (Path.ofParts isRooted parts) ↔ dirs <:+: parts.dropLast := by
  have hslashed : '/' :: Path.directory dirs = Path.slashed dirs ++ ['/'] := by
    rw [Path.directory, ← Path.cons_intercalate hne]
    rfl
  have hinfix := Path.slashed_infix_iff (fun d hd => (hdirs d hd).2) fun p hp => (hparts p hp).2
  rw [isBelow_directory hne hdirs, Path.infix_dropLast_iff hne', ← hinfix, ← hslashed]
  cases isRooted with
  | true =>
    have hnot : ¬Path.directory dirs <+: '/' :: ['/'].intercalate parts := by
      rintro ⟨rest, heq⟩
      have hhead := congrArg List.head? heq
      rw [List.head?_append_of_ne_nil _ (by simp [Path.directory])] at hhead
      exact Path.head_directory_ne hne hdirs '/' hhead rfl
    rw [← Path.cons_intercalate hne']
    exact or_iff_right hnot
  | false =>
    rw [← Path.cons_intercalate hne', List.infix_cons_iff, List.cons_prefix_cons]
    simp [Path.ofParts]

/-- A directory is no whole path, and no name of a file. -/
theorem isExcludedBy_directory (hne : dirs ≠ [])
    (hdirs : ∀ d ∈ dirs, IsPart d ∧ Glob.IsPlain d) (hne' : parts ≠ [])
    (hparts : ∀ p ∈ parts, IsPart p) (isRooted : Bool) :
    isExcludedBy (Path.ofParts isRooted parts) (Path.directory dirs) ↔
      dirs <:+: parts.dropLast := by
  obtain ⟨glob, hparse, haccepts⟩ :=
    Glob.accepts_iff_of_isPlain (Glob.IsPlain.directory fun d hd => (hdirs d hd).2)
  have hpath : Path.ofParts isRooted parts ≠ Path.directory dirs := by
    intro heq
    have hlast := congrArg List.getLast? heq
    rw [Path.ofParts, List.getLast?_append_of_ne_nil _ (Path.intercalate_ne_nil hne' hparts),
      Path.directory, List.getLast?_concat] at hlast
    exact Path.getLast_intercalate_ne hne' hparts '/' hlast rfl
  have hname : ∀ name, Path.fileName? (Path.ofParts isRooted parts) = some name →
      name ≠ Path.directory dirs := by
    rintro name h rfl
    exact Path.not_mem_of_fileName? h (by simp [Path.directory])
  have hbelow := isBelow_directory_ofParts hne (fun d hd => (hdirs d hd).1) hne' hparts isRooted
  have hglob : (glob.accepts (Path.ofParts isRooted parts) ||
      (Path.fileName? (Path.ofParts isRooted parts)).any glob.accepts) = false := by
    rw [Bool.or_eq_false_iff]
    constructor
    · exact Bool.eq_false_iff.mpr fun h => hpath ((haccepts _).mp h)
    · cases hfile : Path.fileName? (Path.ofParts isRooted parts) with
      | none => rfl
      | some name => exact Bool.eq_false_iff.mpr fun h => hname name hfile ((haccepts _).mp h)
  rw [isExcludedBy, hparse]
  dsimp only
  rw [hglob, Bool.false_or, hbelow]

theorem excludes_of_subset {config other : ProjectConfig} (h : config.exclude ⊆ other.exclude)
    {path : String} (hpath : config.excludes path) : other.excludes path := by
  obtain ⟨pattern, hpattern, hby⟩ := List.any_eq_true.mp hpath
  exact List.any_eq_true.mpr ⟨pattern, h hpattern, hby⟩

/-- Where all patterns are directories, a file is left alone if and only if one of them is made up
of components that stand next to each other in the path before its last one. Whatever the patterns
are, their order does not matter, and a further one lets no file in. -/
theorem excludes_directories (config : ProjectConfig) :
    (∀ (patterns : List (List (List Char))) (isRooted : Bool) (parts : List (List Char)),
      config.exclude = patterns.map (fun dirs => .ofList (Path.directory dirs)) →
      (∀ dirs ∈ patterns, dirs ≠ [] ∧ ∀ d ∈ dirs, IsPart d ∧ Glob.IsPlain d) →
      parts ≠ [] → (∀ p ∈ parts, IsPart p) →
      (config.excludes (.ofList (Path.ofParts isRooted parts)) ↔
        ∃ dirs ∈ patterns, dirs <:+: parts.dropLast)) ∧
    (∀ other : ProjectConfig, config.exclude.Perm other.exclude →
      ∀ path, config.excludes path = other.excludes path) ∧
    ∀ other : ProjectConfig, config.exclude ⊆ other.exclude →
      ∀ path, config.excludes path → other.excludes path := by
  refine ⟨fun patterns isRooted parts hexclude hpatterns hne hparts => ?_,
    fun other hperm path => ?_, fun other hsub path => excludes_of_subset hsub⟩
  · rw [excludes, hexclude, List.any_map, List.any_eq_true]
    refine exists_congr fun dirs => and_congr_right fun hmem => ?_
    obtain ⟨hdirs, hplain⟩ := hpatterns dirs hmem
    rw [Function.comp_apply, String.toList_ofList, String.toList_ofList]
    exact isExcludedBy_directory hdirs hplain hne hparts isRooted
  · rw [Bool.eq_iff_iff]
    exact ⟨excludes_of_subset hperm.subset, excludes_of_subset hperm.symm.subset⟩

def withoutVendor : ProjectConfig := ⟨.empty, ["vendor/", "tests/stubs/"], none⟩

theorem excludes_directories_vendor :
    withoutVendor.excludes "/app/tests/stubs/User.php" = true ∧
      ¬withoutVendor.excludes "my-vendor/tests/vendor2/stubs/vendor" ∧
      withoutVendor.excludes "vendor/a.php" =
        (⟨.empty, ["tests/stubs/", "vendor/"], none⟩ : ProjectConfig).excludes "vendor/a.php" ∧
      (⟨.empty, ["*.stub.php", "vendor/", "tests/stubs/"], none⟩ : ProjectConfig).excludes
        "/app/tests/stubs/User.php" = true := by
  obtain ⟨hdirectories, horder, hmore⟩ := excludes_directories withoutVendor
  have hpatterns : ∀ dirs ∈ ["vendor".toList :: [], ["tests".toList, "stubs".toList]],
      dirs ≠ [] ∧ ∀ d ∈ dirs, IsPart d ∧ Glob.IsPlain d := by
    simp only [IsPart, Glob.IsPlain]
    decide
  have hstub := (hdirectories _ true ["app".toList, "tests".toList, "stubs".toList,
    "User.php".toList] rfl hpatterns (by decide) (by simp only [IsPart]; decide)).mpr (by decide)
  refine ⟨hstub, ?_, horder _ (by decide) "vendor/a.php", hmore _ (by decide) _ hstub⟩
  intro h
  have hfound := (hdirectories _ false ["my-vendor".toList, "tests".toList, "vendor2".toList,
    "stubs".toList, "vendor".toList] rfl hpatterns (by decide)
    (by simp only [IsPart]; decide)).mp h
  revert hfound
  decide

end ProjectConfig

end FactoryLint
