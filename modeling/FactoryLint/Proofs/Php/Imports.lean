import FactoryLint.Proofs.Php.Legible
import FactoryLint.Proofs.Php.Names

namespace FactoryLint.Php

open Text (gap lower IsTight)

namespace ImportName

variable (n : ImportName)

theorem text_eq : n.text = (if n.leading then ['\\'] else []) ++ n.name.text := by
  rw [text]
  split_ifs <;> rfl

theorem text_of_plain (h : n.leading = false) : n.text = n.name.text :=
  if_neg (by simp [h])

theorem text_ne_nil : n.text ≠ [] := by
  rw [text_eq]
  exact List.append_ne_nil_of_right_ne_nil _ n.name.text_ne_nil

theorem not_mem_text {sign : Char} (hsign : Lexeme.isNamePart sign = false) (hne : sign ≠ '\\') :
    sign ∉ n.text := by
  have hname := n.name.not_mem_text hsign hne
  rw [text]
  split_ifs
  · exact List.not_mem_cons_of_ne_of_not_mem hne hname
  · exact hname

theorem dropWhile_text : n.text.dropWhile (· = '\\') = n.name.text := by
  have hname : n.name.text.dropWhile (· = '\\') = n.name.text := by
    have hfirst : '\\' ∉ n.name.first.text := n.name.first.not_mem (by decide)
    rw [QualifiedName.text]
    cases htext : n.name.first.text with
    | nil => exact absurd htext n.name.first.ne_nil
    | cons c cs =>
      rw [htext] at hfirst
      refine List.dropWhile_cons_of_neg ?_
      rw [decide_eq_true_eq]
      exact fun he => hfirst (he ▸ List.mem_cons_self)
  rw [text]
  split_ifs
  · rw [List.dropWhile_cons_of_pos (by simp), hname]
  · exact hname

theorem getLast?_text : ∀ c ∈ n.text.getLast?, Lexeme.isNamePart c := by
  rw [text_eq, List.getLast?_append_of_ne_nil _ n.name.text_ne_nil]
  exact n.name.getLast?_text

theorem afterLast_text : Text.afterLast '\\' n.text = n.name.last.text := by
  rw [text]
  split_ifs
  · exact n.name.afterLast_append []
  · exact n.name.afterLast_text

end ImportName

namespace Import

variable (i : Import)

/-- The name and the alias have no blanks at their ends. The language takes the white space beyond
ASCII for letters. -/
structure IsTight : Prop where
  name : Text.IsTight i.name.text
  ownAlias : ∀ a ∈ i.ownAlias, Text.IsTight a.text

instance : Decidable i.IsTight :=
  decidable_of_iff (Text.IsTight i.name.text ∧ ∀ a ∈ i.ownAlias, Text.IsTight a.text)
    ⟨fun h => ⟨h.1, h.2⟩, fun h => ⟨h.name, h.ownAlias⟩⟩

theorem text_ne_nil : i.text ≠ [] :=
  List.append_ne_nil_of_left_ne_nil i.name.text_ne_nil _

theorem not_mem_text {sign : Char} (hsign : Lexeme.isNamePart sign = false) (hne : sign ≠ '\\')
    (hne' : sign ≠ ' ') : sign ∉ i.text := by
  rw [text, List.mem_append, not_or]
  refine ⟨i.name.not_mem_text hsign hne, ?_⟩
  cases i.ownAlias with
  | none => exact List.not_mem_nil
  | some a =>
    have hword : sign ∉ " as ".toList := by
      intro hmem
      have hchar : ∀ c ∈ " as ".toList, (c = ' ' || Lexeme.isNamePart c) = true :=
        List.all_eq_true.mp (by decide)
      have hsign' := hchar sign hmem
      rw [hsign, Bool.or_false, decide_eq_true_eq] at hsign'
      exact hne' hsign'
    exact fun hmem => (List.mem_append.mp hmem).elim hword (a.not_mem hsign)

theorem exists_text_append {rest : List Char} (hrest : Stops rest) :
    ∃ rest', Stops rest' ∧ i.text ++ rest = i.name.text ++ rest' := by
  refine ⟨aliasText i.ownAlias ++ rest, ?_, List.append_assoc _ _ _⟩
  cases i.ownAlias with
  | none => exact hrest
  | some a => exact stops_cons (by decide) _

/-- What is imported is cut into its name and its alias. -/
theorem importParts_append {name : List Char} (hname : Text.IsTight name)
    (hpasses : Text.Passes " as ".toList (lower name)) {ownAlias : Option Segment}
    (halias : ∀ a ∈ ownAlias, Text.IsTight a.text) {last : Segment}
    (hlast : Text.afterLast '\\' name = last.text) :
    Naming.importParts (name ++ aliasText ownAlias) = (name, (ownAlias.getD last).text) := by
  rw [Naming.importParts, Text.lower_append, hpasses]
  cases ownAlias with
  | none =>
    have hnone : Text.breakAt? " as ".toList (lower []) = none := by decide
    simp only [hnone, Option.map_none, aliasText, List.append_nil, hname.trim_eq, hlast]
    rfl
  | some a =>
    have hlower : lower (aliasText (some a)) = " as ".toList ++ lower a.text := by
      rw [aliasText, Text.lower_append]
      rfl
    have htake : (name ++ aliasText (some a)).take name.length = name := List.take_left
    have hdrop : (name ++ aliasText (some a)).drop (name.length + 4) = a.text := by
      rw [aliasText, ← List.append_assoc]
      exact List.drop_left' (by simp)
    simp only [hlower, Text.breakAt?_append_self, Option.map_some, List.append_nil,
      Text.length_lower, htake, hdrop, hname.trim_eq, (halias a rfl).trim_eq]
    rfl

theorem addImport_append {name : List Char} (hname : Text.IsTight name) (hne : name ≠ [])
    (hpasses : Text.Passes " as ".toList (lower name)) {ownAlias : Option Segment}
    (halias : ∀ a ∈ ownAlias, Text.IsTight a.text) {last : Segment}
    (hlast : Text.afterLast '\\' name = last.text) (n : Naming) :
    n.addImport (name ++ aliasText ownAlias) = { n with imports :=
      (lower (ownAlias.getD last).text, name.dropWhile (· = '\\')) :: n.imports } := by
  have hname' : name.isEmpty = false := List.isEmpty_eq_false_iff.mpr hne
  have has : (ownAlias.getD last).text.isEmpty = false :=
    List.isEmpty_eq_false_iff.mpr (ownAlias.getD last).ne_nil
  simp only [Naming.addImport, importParts_append hname hpasses halias hlast, hname', has]
  rfl

variable {i}

theorem IsTight.text (h : i.IsTight) : Text.IsTight i.text := by
  rw [Import.text]
  cases ha : i.ownAlias with
  | none =>
    rw [aliasText, List.append_nil]
    exact h.name
  | some a =>
    rw [aliasText, ← List.append_assoc]
    exact h.name.enclose i.name.text_ne_nil (h.ownAlias a ha) a.ne_nil _

theorem IsTight.addImport_eq (h : i.IsTight) (n : Naming) : n.addImport i.text =
    { n with imports := (lower i.knownAs.text, i.name.name.text) :: n.imports } := by
  have hspace : ' ' ∉ lower i.name.text :=
    Text.not_mem_lower rfl (i.name.not_mem_text (by decide) (by decide))
  rw [Import.text, addImport_append h.name i.name.text_ne_nil (Text.passes_of_not_mem _ hspace)
    h.ownAlias i.name.afterLast_text, i.name.dropWhile_text]
  rfl

def inside (common : ImportName) (i : Import) : Import where
  name :=
    { leading := common.leading
      name := common.name.append i.name.name
      free := fun hleading => ⟨(common.free hleading).1, fun hrest =>
        absurd hrest (List.append_ne_nil_of_right_ne_nil _ (List.cons_ne_nil _ _))⟩ }
  ownAlias := i.ownAlias

theorem knownAs_inside (common : ImportName) (i : Import) :
    (i.inside common).knownAs = i.knownAs := by
  rw [knownAs, knownAs, inside, QualifiedName.last_append]

theorem name_inside (common : ImportName) {i : Import} (hplain : i.name.leading = false) :
    (i.inside common).name.text = common.text ++ '\\' :: i.name.text := by
  rw [i.name.text_of_plain hplain, ImportName.text, ImportName.text, inside,
    QualifiedName.text_append]
  split_ifs <;> rfl

theorem text_inside (common : ImportName) {i : Import} (hplain : i.name.leading = false) :
    (i.inside common).text = common.text ++ '\\' :: i.text := by
  rw [Import.text, name_inside common hplain, Import.text, List.append_assoc]
  rfl

theorem IsTight.inside {common : ImportName} (hcommon : Text.IsTight common.text) (h : i.IsTight)
    (hplain : i.name.leading = false) : (i.inside common).IsTight := by
  refine ⟨?_, h.ownAlias⟩
  rw [name_inside common hplain, List.append_cons]
  exact hcommon.enclose common.text_ne_nil h.name i.name.text_ne_nil _

end Import

section

variable {first : Import} {more : List Import} (layout : Layout)

theorem isTight_items (h : ∀ i ∈ first :: more, i.IsTight) :
    IsTight (layout.comma.intercalate ((first :: more).map Import.text)) ∧
      layout.comma.intercalate ((first :: more).map Import.text) ≠ [] := by
  apply Text.IsTight.intercalate
  intro p hp
  have hp : p ∈ (first :: more).map Import.text := hp
  obtain ⟨i, hi, rfl⟩ := List.mem_map.mp hp
  exact ⟨(h i hi).text, i.text_ne_nil⟩

theorem not_mem_items {sign : Char} (hsign : Lexeme.isNamePart sign = false)
    (hne : sign ∉ ['\\', ' ', ',']) (items : List Import) :
    sign ∉ layout.comma.intercalate (items.map Import.text) := by
  simp only [List.mem_cons, List.not_mem_nil, or_false, not_or] at hne
  obtain ⟨hback, hspace, hcomma⟩ := hne
  apply Text.not_mem_intercalate
  · simp [Layout.comma, Text.not_mem_gap hspace, hcomma]
  · intro p hp
    obtain ⟨i, -, rfl⟩ := List.mem_map.mp hp
    exact i.not_mem_text hsign hback hspace

theorem map_trim_items (h : ∀ i ∈ first :: more, i.IsTight) {left rest last : List Char}
    {parts : List (List Char)} (hleft : ∀ c ∈ left, Text.isBlank c)
    (hlast : ∀ c ∈ last, Text.isBlank c) (hrest : Text.splitAt ',' rest = last :: parts) :
    (Text.splitAt ',' (left ++ layout.comma.intercalate ((first :: more).map Import.text) ++
      rest)).map Text.trim = (first :: more).map Import.text ++ parts.map Text.trim := by
  apply Text.map_trim_splitAt_intercalate (Text.isBlank_of_mem_gap _) (Text.isBlank_of_mem_gap _)
    hlast (by decide) hrest _ hleft
  intro p hp
  have hp : p ∈ (first :: more).map Import.text := hp
  obtain ⟨i, hi, rfl⟩ := List.mem_map.mp hp
  exact ⟨(h i hi).text, i.not_mem_text (by decide) (by decide) (by decide)⟩

end

theorem ImportName.after?_eq_none (n : ImportName) {rest : List Char} (hrest : Stops rest)
    {word : List Char} (hword : ∀ c ∈ word, Lexeme.isNamePart c)
    (hreserved : String.ofList word ∈ Parser.reserved) :
    Text.after? (word ++ [' ']) (lower (n.text ++ rest)) = none := by
  cases hafter : Text.after? (word ++ [' ']) (lower (n.text ++ rest)) with
  | none => rfl
  | some behind =>
    have htext := Text.append_of_after? hafter
    rw [List.append_assoc, List.singleton_append] at htext
    have hspace : Stops (' ' :: behind) := stops_cons (by decide) _
    cases hleading : n.leading with
    | true =>
      -- the word would be empty, as the backslash is no part of it
      have hback : word ++ ' ' :: behind = [] ++ lower ('\\' :: n.name.text ++ rest) := by
        rw [htext, text, if_pos hleading, List.nil_append]
      have hstop : Stops (lower ('\\' :: n.name.text ++ rest)) := (stops_cons (by decide) _).lower
      obtain ⟨rfl, -⟩ := Text.append_inj_of_stop hword (by simp) hspace hstop hback
      exact absurd hreserved (by decide)
    | false =>
      -- the word would be the first segment, with a space and not a backslash after it
      have hname : lower (n.text ++ rest) =
          lower n.name.first.text ++ lower (n.name.restText ++ rest) := by
        rw [n.text_of_plain hleading, QualifiedName.text, List.append_assoc, Text.lower_append]
      rw [hname] at htext
      have hfirst := n.name.first.isNamePart_lower
      cases hsegments : n.name.rest with
      | nil =>
        rw [QualifiedName.restText, hsegments, List.flatMap_nil, List.nil_append] at htext
        obtain ⟨rfl, -⟩ := Text.append_inj_of_stop hword hfirst hspace hrest.lower htext
        exact absurd hreserved ((n.free hleading).2 hsegments)
      | cons s segments =>
        rw [QualifiedName.restText, hsegments] at htext
        obtain ⟨-, hbehind⟩ := Text.append_inj_of_stop hword hfirst hspace
          (stops_cons (by decide) _) htext
        cases hbehind

theorem ImportName.importsNoClasses_eq (n : ImportName) {rest : List Char} (hrest : Stops rest) :
    Naming.importsNoClasses (n.text ++ rest) = false := by
  have hfunction : ∀ c ∈ "function".toList, Lexeme.isNamePart c :=
    List.all_eq_true.mp (by decide)
  have hconst : ∀ c ∈ "const".toList, Lexeme.isNamePart c := List.all_eq_true.mp (by decide)
  rw [Naming.importsNoClasses, Bool.or_eq_false_iff, Option.isSome_eq_false_iff,
    Option.isSome_eq_false_iff, Option.isNone_iff_eq_none, Option.isNone_iff_eq_none]
  exact ⟨n.after?_eq_none hrest hfunction (by decide), n.after?_eq_none hrest hconst (by decide)⟩

theorem ImportKind.importsNoClasses_eq {kind : ImportKind} (hkind : kind ≠ .classes)
    (rest : List Char) : Naming.importsNoClasses (kind.word ++ rest) = true := by
  rw [Naming.importsNoClasses, Text.lower_append, Bool.or_eq_true]
  cases kind with
  | classes => exact absurd rfl hkind
  | functions =>
    have hword : lower ImportKind.functions.word = "function ".toList := by decide
    exact Or.inl (by rw [hword, Text.after?_append_self, Option.isSome_some])
  | constants =>
    have hword : lower ImportKind.constants.word = "const ".toList := by decide
    exact Or.inr (by rw [hword, Text.after?_append_self, Option.isSome_some])

namespace ImportBody

variable (body : ImportBody) (layout : Layout)

def IsTight : ImportBody → Prop
  | .list first more => ∀ i ∈ first :: more, i.IsTight
  | .group common first more _ _ => Text.IsTight common.text ∧ ∀ i ∈ first :: more, i.IsTight

/-- What a group has in common and the backslash after it are not apart. -/
def IsJoined : ImportBody → Prop
  | .list .. => True
  | .group .. => layout.apart = false

instance : (body : ImportBody) → Decidable body.IsTight
  | .list first more => inferInstanceAs (Decidable (∀ i ∈ first :: more, i.IsTight))
  | .group common first more _ _ =>
    inferInstanceAs (Decidable (Text.IsTight common.text ∧ ∀ i ∈ first :: more, i.IsTight))

instance : (body : ImportBody) → Decidable (body.IsJoined layout)
  | .list .. => inferInstanceAs (Decidable True)
  | .group .. => inferInstanceAs (Decidable (layout.apart = false))

def items : ImportBody → List Import
  | .list first more => first :: more
  | .group common first more _ _ => (first :: more).map (Import.inside common)

theorem imports_eq : body.imports = body.items.map fun i => (i.knownAs, i.name.name) := by
  cases body with
  | list first more => rfl
  | group common first more plain trailingComma =>
    rw [imports, items, List.map_map]
    refine List.map_congr_left fun i _ => ?_
    rw [Function.comp_apply, Import.knownAs_inside]
    rfl

variable {body}

theorem IsTight.text (h : body.IsTight) :
    Text.IsTight (body.text layout) ∧ body.text layout ≠ [] := by
  cases body with
  | list first more => exact isTight_items layout h
  | group common first more plain trailingComma =>
    have hclose : Text.IsTight ['\x7d'] := Text.isTight_of_all (by decide)
    have htext : (group common first more plain trailingComma).text layout = common.text ++
        (gap layout.apart ++ '\\' :: gap layout.beforeOpen ++
          '\x7b' :: innerText layout (first :: more) trailingComma) ++ ['\x7d'] := by
      simp [ImportBody.text, outerText]
    rw [htext]
    exact ⟨h.1.enclose common.text_ne_nil hclose (List.cons_ne_nil _ _) _,
      List.append_ne_nil_of_right_ne_nil _ (List.cons_ne_nil _ _)⟩

theorem not_mem_outerText {sign : Char} (hsign : Lexeme.isNamePart sign = false)
    (hne : sign ≠ '\\') (hne' : sign ≠ ' ') (common : ImportName) :
    sign ∉ outerText layout common := by
  simp [outerText, common.not_mem_text hsign hne, Text.not_mem_gap hne', hne]

theorem not_mem_innerText {sign : Char} (hsign : Lexeme.isNamePart sign = false)
    (hne : sign ∉ ['\\', ' ', ',']) (items : List Import) (trailingComma : Bool) :
    sign ∉ innerText layout items trailingComma := by
  have hitems := not_mem_items layout hsign hne items
  simp only [List.mem_cons, List.not_mem_nil, or_false, not_or] at hne
  unfold innerText
  split_ifs <;> simp [Text.not_mem_gap hne.2.1, hitems, hne.2.2]

theorem semicolon_not_mem_text : ';' ∉ body.text layout := by
  cases body with
  | list first more => exact not_mem_items layout (by decide) (by decide) _
  | group common first more plain trailingComma =>
    have houter : ';' ∉ outerText layout common :=
      not_mem_outerText layout (by decide) (by decide) (by decide) common
    have hinner : ';' ∉ innerText layout (first :: more) trailingComma :=
      not_mem_innerText layout (by decide) (by decide) _ _
    simp [ImportBody.text, houter, hinner]

theorem importsNoClasses_text (body : ImportBody) :
    Naming.importsNoClasses (body.text layout) = false := by
  cases body with
  | list first more =>
    obtain ⟨rest, hrest, htext⟩ : ∃ rest, Stops rest ∧
        (list first more).text layout = first.text ++ rest := by
      cases more with
      | nil => exact ⟨[], nofun, by simp [text]⟩
      | cons next more =>
        refine ⟨gap layout.beforeComma ++ ',' :: (gap layout.afterComma ++
          layout.comma.intercalate ((next :: more).map Import.text)), stops_gap (by decide) _ _, ?_⟩
        simp [text, List.intercalate_cons_cons, Layout.comma]
    obtain ⟨rest', hrest', htext'⟩ := first.exists_text_append hrest
    rw [htext, htext', first.name.importsNoClasses_eq hrest']
  | group common first more plain trailingComma =>
    rw [text, outerText, List.append_assoc, List.append_assoc, List.cons_append]
    exact common.importsNoClasses_eq (stops_gap (by decide) layout.apart _)

theorem importItems?_list {first : Import} {more : List Import}
    (h : ∀ i ∈ first :: more, i.IsTight) :
    Naming.importItems? ((list first more).text layout) =
      some ((first :: more).map Import.text) := by
  have hbrace : '\x7b' ∉ (list first more).text layout :=
    not_mem_items layout (by decide) (by decide) _
  have hnil : ∀ c ∈ ([] : List Char), Text.isBlank c := nofun
  have hsplit := map_trim_items layout h hnil hnil (rfl : Text.splitAt ',' [] = [[]])
  rw [Naming.importItems?, Naming.importPieces?_list hbrace]
  simpa [text, Function.comp_def] using hsplit

theorem filter_innerText {first : Import} {more : List Import}
    (h : ∀ i ∈ first :: more, i.IsTight) (trailingComma : Bool) :
    ((Text.splitAt ',' (innerText layout (first :: more) trailingComma)).map Text.trim).filter
      (!·.isEmpty) = (first :: more).map Import.text := by
  have hnil : ∀ space : Bool, Text.trim (gap space) = [] := by decide
  have hitems : ((first :: more).map Import.text).filter (!·.isEmpty) =
      (first :: more).map Import.text := by
    refine List.filter_eq_self.mpr fun p hp => ?_
    obtain ⟨i, -, rfl⟩ := List.mem_map.mp hp
    rw [List.isEmpty_eq_false_iff.mpr i.text_ne_nil]
    rfl
  have hclose := Text.splitAt_of_not_mem
    (Text.not_mem_gap (c := ',') (by decide) layout.beforeClose)
  cases trailingComma with
  | false =>
    have hsplit := map_trim_items layout h (Text.isBlank_of_mem_gap layout.afterOpen)
      (Text.isBlank_of_mem_gap layout.beforeClose) hclose
    rw [innerText, if_neg Bool.false_ne_true, List.nil_append, hsplit, List.map_nil,
      List.append_nil, hitems]
  | true =>
    have hcomma : Text.splitAt ',' (gap layout.beforeComma ++ [','] ++ gap layout.beforeClose) =
        [gap layout.beforeComma, gap layout.beforeClose] := by
      rw [List.append_assoc, List.singleton_append,
        Text.splitAt_append_cons (Text.not_mem_gap (by decide) _), hclose]
    have hsplit := map_trim_items layout h (Text.isBlank_of_mem_gap layout.afterOpen)
      (Text.isBlank_of_mem_gap layout.beforeComma) hcomma
    rw [innerText, if_pos rfl, hsplit, List.filter_append, hitems, List.map_singleton, hnil]
    exact List.append_nil _

theorem dropRight_trim_outerText {common : ImportName} (h : Text.IsTight common.text) :
    Text.dropRight '\\' (Text.trim (outerText layout common)) =
      common.text ++ gap layout.apart := by
  have htight : Text.IsTight (common.text ++ gap layout.apart ++ ['\\']) :=
    h.enclose common.text_ne_nil (Text.isTight_of_all (by decide)) (List.cons_ne_nil _ _) _
  have htrim := htight.trim_padRight (Text.isBlank_of_mem_gap layout.beforeOpen)
  rw [List.append_assoc, List.singleton_append] at htrim
  rw [outerText, htrim]
  refine Text.dropRight_concat fun c hc => ?_
  cases happart : layout.apart with
  | false =>
    rw [happart] at hc
    have hpart := common.getLast?_text c (by simpa [gap] using hc)
    rintro rfl
    cases hpart
  | true =>
    rw [happart, gap, if_pos rfl, List.getLast?_concat] at hc
    obtain rfl := Option.some.inj hc
    decide

theorem importItems?_group {common : ImportName} {first : Import} {more : List Import}
    (hcommon : Text.IsTight common.text) (h : ∀ i ∈ first :: more, i.IsTight)
    (plain : ∀ i ∈ first :: more, i.name.leading = false) (trailingComma : Bool) :
    Naming.importItems? ((group common first more plain trailingComma).text layout) =
      some ((first :: more).map fun i => common.text ++ gap layout.apart ++ '\\' :: i.text) := by
  have houter : '\x7b' ∉ outerText layout common :=
    not_mem_outerText layout (by decide) (by decide) (by decide) common
  have hne : (common.text ++ gap layout.apart).isEmpty = false :=
    List.isEmpty_eq_false_iff.mpr (List.append_ne_nil_of_left_ne_nil common.text_ne_nil _)
  have hprefix : Naming.groupPrefix (Text.trim (outerText layout common)) =
      common.text ++ gap layout.apart ++ ['\\'] := by
    rw [Naming.groupPrefix, dropRight_trim_outerText layout hcommon]
    rw [hne, if_neg Bool.false_ne_true]
  rw [Naming.importItems?, text, Naming.importPieces?_group houter, hprefix,
    filter_innerText layout h trailingComma]
  simp

theorem IsTight.importItems?_eq (h : body.IsTight) (hjoined : body.IsJoined layout) :
    Naming.importItems? (body.text layout) = some (body.items.map Import.text) := by
  cases body with
  | list first more => exact importItems?_list layout h
  | group common first more plain trailingComma =>
    have hgap : gap layout.apart = [] := by
      rw [show layout.apart = false from hjoined]
      rfl
    rw [importItems?_group layout h.1 h.2, items, List.map_map]
    refine congrArg some (List.map_congr_left fun i hi => ?_)
    rw [hgap, List.append_nil, Function.comp_apply, Import.text_inside common (plain i hi)]

theorem IsTight.items (h : body.IsTight) : ∀ i ∈ body.items, i.IsTight := by
  cases body with
  | list first more => exact h
  | group common first more plain trailingComma =>
    intro i hi
    obtain ⟨j, hj, rfl⟩ := List.mem_map.mp hi
    exact (h.2 j hj).inside h.1 (plain j hj)

end ImportBody

namespace Naming

/-- Aliases as they are looked up, with the names in full. -/
def noted (imports : List (Segment × QualifiedName)) : List (List Char × List Char) :=
  imports.map fun i => (lower i.1.text, i.2.text)

theorem foldl_addImport {items : List Import} (h : ∀ i ∈ items, i.IsTight) (n : Naming) :
    (items.map Import.text).foldl addImport n =
      ⟨n.space, noted (items.map fun i => (i.knownAs, i.name.name)).reverse ++ n.imports⟩ := by
  induction items generalizing n with
  | nil => rfl
  | cons i items ih =>
    rw [List.map_cons, List.foldl_cons, (h i List.mem_cons_self).addImport_eq,
      ih fun j hj => h j (List.mem_cons_of_mem _ hj)]
    simp [noted]

end Naming

namespace UseStatement

variable {u : UseStatement}

theorem isTight_phrase (h : u.body.IsTight) :
    IsTight (u.kind.word ++ u.body.text u.layout) ∧ u.kind.word ++ u.body.text u.layout ≠ [] := by
  obtain ⟨hbody, hne⟩ := h.text u.layout
  refine ⟨?_, List.append_ne_nil_of_right_ne_nil _ hne⟩
  cases u.kind with
  | classes => exact hbody
  | functions =>
    have hword : IsTight "function".toList := Text.isTight_of_all (by decide)
    exact hword.enclose (by decide) hbody hne [' ']
  | constants =>
    have hword : IsTight "const".toList := Text.isTight_of_all (by decide)
    exact hword.enclose (by decide) hbody hne [' ']

theorem semicolon_not_mem_phrase : ';' ∉ u.kind.word ++ u.body.text u.layout := by
  rw [List.mem_append, not_or]
  refine ⟨?_, ImportBody.semicolon_not_mem_text u.layout⟩
  cases u.kind <;> decide

theorem importBody_text (h : u.body.IsTight) :
    Naming.importBody u.text = u.kind.word ++ u.body.text u.layout := by
  obtain ⟨hphrase, hne⟩ := isTight_phrase h
  have hsemicolon := semicolon_not_mem_phrase (u := u)
  generalize hp : u.kind.word ++ u.body.text u.layout = phrase at hphrase hne hsemicolon ⊢
  have htext : u.text = "use".toList ++ ' ' :: (phrase ++ gap u.layout.beforeEnd ++ [';']) := by
    have hword : "use ".toList = "use".toList ++ [' '] := by decide
    unfold text
    rw [hword, ← hp]
    simp only [List.append_assoc, List.cons_append, List.nil_append]
  have hstop : IsTight [';'] := Text.isTight_of_all (by decide)
  have htrim : Text.trim u.text = u.text := by
    have huse : IsTight "use".toList := Text.isTight_of_all (by decide)
    rw [htext, ← List.cons_append, ← List.append_assoc]
    exact (huse.enclose (by decide) hstop (List.cons_ne_nil _ _) _).trim_eq
  have hword : Text.dropWord "use" u.text = ' ' :: (phrase ++ gap u.layout.beforeEnd ++ [';']) := by
    rw [htext]
    exact Text.dropWord_append_self rfl (by decide)
  have hrest : Text.trim (' ' :: (phrase ++ gap u.layout.beforeEnd ++ [';'])) =
      phrase ++ gap u.layout.beforeEnd ++ [';'] := by
    have hend := hphrase.enclose hne hstop (List.cons_ne_nil _ _) (gap u.layout.beforeEnd)
    exact hend.trim_padLeft (Text.isBlank_of_mem_gap true)
  have hdrop : Text.dropRight ';' (phrase ++ gap u.layout.beforeEnd ++ [';']) =
      phrase ++ gap u.layout.beforeEnd := by
    refine Text.dropRight_concat fun c hc => ?_
    rintro rfl
    rcases List.mem_append.mp (List.mem_of_getLast? hc) with hmem | hmem
    · exact hsemicolon hmem
    · exact Text.not_mem_gap (by decide) _ hmem
  have hpad : Text.trim (phrase ++ gap u.layout.beforeEnd) = phrase :=
    hphrase.trim_padRight (Text.isBlank_of_mem_gap _)
  rw [Naming.importBody, htrim, hword, hrest, hdrop, hpad]

/-- The classes that a statement names are imported, the last one first. -/
theorem addImports?_text (h : u.body.IsTight)
    (hjoined : u.kind = .classes → u.body.IsJoined u.layout) (n : Naming) :
    n.addImports? u.text = some ⟨n.space, Naming.noted u.imports.reverse ++ n.imports⟩ := by
  rw [Naming.addImports?, importBody_text h, imports]
  by_cases hkind : u.kind = .classes
  · have hphrase : u.kind.word ++ u.body.text u.layout = u.body.text u.layout := by rw [hkind]; rfl
    rw [hphrase, ImportBody.importsNoClasses_text, h.importItems?_eq u.layout (hjoined hkind),
      if_neg Bool.false_ne_true, Option.map_some, Naming.foldl_addImport h.items, if_pos hkind,
      ImportBody.imports_eq]
  · rw [ImportKind.importsNoClasses_eq hkind, if_pos rfl, if_neg hkind]
    rfl

end UseStatement

end FactoryLint.Php
