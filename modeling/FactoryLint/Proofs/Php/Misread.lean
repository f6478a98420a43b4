import FactoryLint.Proofs.Php.Resolved

namespace FactoryLint.Php

open Text (gap lower IsTight)

/-- A class loses the blanks at the ends of its name. -/
theorem Environment.qualify_segment_ne {env : Environment} (himports : env.imports = [])
    {name : Segment} (h : ¬IsTight name.text) :
    env.naming.qualify name.text ≠ (env.within ⟨name, []⟩).text := by
  have hback : '\\' ∉ Text.trim name.text := fun hmem =>
    name.not_mem (by decide) ((Text.trim_sublist name.text).mem hmem)
  have habsolute : Text.after? ['\\'] (Text.trim name.text) = none :=
    Text.after?_eq_none_of_not_mem List.mem_cons_self hback
  have hrelative : Text.after? "namespace\\".toList (Text.trim name.text) = none :=
    Text.after?_eq_none_of_not_mem (by decide) hback
  have hqualify : env.naming.qualify name.text = env.naming.inSpace (Text.trim name.text) := by
    simp only [Naming.qualify, habsolute, hrelative, naming, himports]
    rfl
  have htext : (⟨name, []⟩ : QualifiedName).text = name.text := List.append_nil _
  rw [hqualify, ← env.inSpace_naming, htext]
  intro he
  exact h (Text.trim_eq_self_iff.mp (Naming.inSpace_inj he))

theorem Environment.qualify_relative_ne {env : Environment} {keyword : Segment}
    (isKeyword : lower keyword.text = "namespace".toList)
    (hcapitals : keyword.text ≠ "namespace".toList)
    (himported : env.imported? keyword = none) {name : QualifiedName}
    (h : IsTight (Reference.relative keyword isKeyword name).text) :
    env.naming.qualify (Reference.relative keyword isKeyword name).text ≠
      (env.resolve (.relative keyword isKeyword name)).text := by
  let whole : QualifiedName := ⟨keyword, name.first :: name.rest⟩
  have hwhole : (Reference.relative keyword isKeyword name).text = whole.text := rfl
  rw [hwhole] at h ⊢
  rw [env.qualify_plain h (QualifiedName.after?_eq_none hcapitals), himported,
    ← env.inSpace_naming, resolve, ← env.inSpace_naming, ← hwhole]
  intro he
  have hlen := congrArg List.length (Naming.inSpace_inj he)
  rw [Reference.text, List.length_append, List.length_cons] at hlen
  omega

theorem passes_apart (common name : ImportName) :
    Text.Passes " as ".toList (lower (common.text ++ [' '] ++ '\\' :: name.text)) := by
  have hname : ∀ n : ImportName, Text.Passes " as ".toList (lower n.text) := fun n =>
    Text.passes_of_not_mem _ (Text.not_mem_lower rfl (n.not_mem_text (by decide) (by decide)))
  -- what follows the space is not the word before an alias
  have hapart : Text.Passes " as ".toList [' ', '\\'] := by
    intro rest
    exact Option.map_map _ _ _
  have hlower : lower (common.text ++ [' '] ++ '\\' :: name.text) =
      lower common.text ++ [' ', '\\'] ++ lower name.text := by
    simp [lower]
  rw [hlower]
  exact ((hname common).append hapart).append (hname name)

theorem exists_mem_addImport_apart {common : ImportName} {i : Import}
    (hcommon : IsTight common.text) (h : i.IsTight) (hplain : i.name.leading = false) (n : Naming) :
    ∃ entry ∈ (n.addImport (common.text ++ [' '] ++ '\\' :: i.text)).imports, ' ' ∈ entry.2 := by
  have hname : IsTight (common.text ++ [' '] ++ '\\' :: i.name.text) := by
    rw [List.append_cons, List.append_assoc common.text]
    exact hcommon.enclose common.text_ne_nil h.name i.name.text_ne_nil _
  have hlast : Text.afterLast '\\' (common.text ++ [' '] ++ '\\' :: i.name.text) =
      i.name.name.last.text := by
    rw [i.name.text_of_plain hplain, QualifiedName.afterLast_append]
  have hitem : common.text ++ [' '] ++ '\\' :: i.text =
      common.text ++ [' '] ++ '\\' :: i.name.text ++ Import.aliasText i.ownAlias := by
    simp [Import.text]
  rw [hitem, Import.addImport_append hname (by simp) (passes_apart common i.name) h.ownAlias
    hlast]
  refine ⟨_, List.mem_cons_self, ?_⟩
  rw [← List.count_pos_iff, Text.count_dropWhile (by decide), List.count_pos_iff]
  simp

namespace Naming

theorem mem_foldl_addImport {entry : List Char × List Char} (items : List (List Char))
    {n : Naming} (h : entry ∈ n.imports) : entry ∈ (items.foldl addImport n).imports := by
  induction items generalizing n with
  | nil => exact h
  | cons item items ih =>
    apply ih
    unfold addImport
    dsimp only
    split_ifs
    · exact h
    · exact List.mem_cons_of_mem _ h

theorem space_not_mem_noted {imports : List (Segment × QualifiedName)} :
    ∀ entry ∈ noted imports, ' ' ∉ entry.2 := by
  intro entry hentry
  obtain ⟨i, -, rfl⟩ := List.mem_map.mp hentry
  exact i.2.not_mem_text (by decide) (by decide)

end Naming

/-- The rules of the language are missed where a backslash stands apart. -/
theorem UseStatement.addImports?_ne {u : UseStatement} (h : u.body.IsTight)
    (hkind : u.kind = .classes) (happart : ¬u.body.IsJoined u.layout) (env : Environment) :
    env.naming.addImports? u.text ≠ some (env.next (.use u)).naming := by
  have hphrase : u.kind.word ++ u.body.text u.layout = u.body.text u.layout := by rw [hkind]; rfl
  rw [Naming.addImports?, importBody_text h, hphrase, ImportBody.importsNoClasses_text,
    if_neg Bool.false_ne_true]
  intro he
  cases hbody : u.body with
  | list first more =>
    rw [hbody] at happart
    exact happart trivial
  | group common first more plain trailingComma =>
    rw [hbody] at h happart he
    have hgap : gap u.layout.apart = [' '] := by
      rw [show u.layout.apart = true by simpa [ImportBody.IsJoined] using happart]
      rfl
    obtain ⟨entry, hentry, hspace⟩ := exists_mem_addImport_apart h.1 (h.2 first List.mem_cons_self)
      (plain first List.mem_cons_self) env.naming
    rw [ImportBody.importItems?_group u.layout h.1 h.2, hgap, Option.map_some, List.map_cons,
      List.foldl_cons] at he
    have hmem := Naming.mem_foldl_addImport
      (more.map fun i => common.text ++ [' '] ++ '\\' :: i.text) hentry
    rw [Option.some.inj he] at hmem
    exact Naming.space_not_mem_noted entry hmem hspace

end FactoryLint.Php
