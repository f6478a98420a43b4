import FactoryLint.Proofs.Php.Layout.Plain

namespace FactoryLint.Php

open Text (lower IsTight)

theorem isBlank_of_isName {cs : List Char} (h : Lexeme.IsName cs) :
    ∀ c ∈ cs, Lexeme.isBlank c = false := by
  intro c hc
  by_contra hblank
  simp only [Lexeme.isBlank, Bool.not_eq_false, Bool.or_eq_true, beq_iff_eq] at hblank
  have hname := h c hc
  rcases hblank with ((((rfl | rfl) | rfl) | rfl) | rfl) | rfl <;> revert hname <;> decide

theorem isName_lower {cs : List Char} (h : Lexeme.IsName cs) : Lexeme.IsName (lower cs) := by
  intro c hc
  obtain ⟨d, hd, rfl⟩ := List.mem_map.mp hc
  rcases h d hd with hpart | rfl
  · exact Or.inl (by rwa [isNamePart_toLower])
  · exact Or.inr (by decide)

theorem lower_of_blank {cs : List Char} (h : ∀ c ∈ cs, Lexeme.isBlank c) : lower cs = cs := by
  refine (List.map_congr_left fun c hc => ?_).trans (List.map_id' cs)
  have hblank := h c hc
  simp only [Lexeme.isBlank, Bool.or_eq_true, beq_iff_eq] at hblank
  rcases hblank with ((((rfl | rfl) | rfl) | rfl) | rfl) | rfl <;> decide

theorem isBlank_of_isAlpha {c : Char} (h : c.isAlpha) : Text.isBlank c = false := by
  delta Char.isAlpha Char.isUpper Char.isLower at h
  simp only [UInt32.le_iff_toNat_le, ge_iff_le, Bool.or_eq_true, Bool.and_eq_true,
    decide_eq_true_eq] at h
  have hn : (65 ≤ c.toNat ∧ c.toNat ≤ 90) ∨ (97 ≤ c.toNat ∧ c.toNat ≤ 122) := h
  simp only [Text.isBlank, Bool.or_eq_false_iff, Bool.and_eq_false_iff, decide_eq_false_iff_not,
    beq_eq_false_iff_ne]
  omega

namespace LaidOut

variable {source : List Char} {t : Token} {ts : List Token}

theorem isNext (h : LaidOut source ts) : ts.IsChain (Token.IsNext source) :=
  h.spaced.imp fun _ _ h => h.next

theorem stops (h : LaidOut source (t :: ts)) (hname : Parser.isAnyName t) {rest : List Char}
    (hrest : rest <+: t.after source ++ laid source ts) : Stops rest := by
  have hbehind := hrest.trans (Token.laid_prefix_behind h.places h.isNext)
  have hstops := (h.places t List.mem_cons_self).stops hname
  obtain ⟨more, hmore⟩ := hbehind
  intro c hc
  refine hstops c ?_
  rw [← hmore, List.head?_append, hc]
  rfl

theorem head_laid (h : LaidOut source (t :: ts)) (hname : Parser.isAnyName t) :
    ∃ c ∈ (laid source (t :: ts)).head?, Text.isBlank c = false := by
  obtain ⟨hne, -⟩ := (h.places t List.mem_cons_self).isName hname
  have hfirst := ((h.plain t List.mem_cons_self).tight hname).first
  rw [laid_cons]
  cases htext : t.text.toList with
  | nil => exact absurd htext hne
  | cons c cs =>
    rw [htext] at hfirst
    exact ⟨c, rfl, hfirst c rfl⟩

theorem trim_laid (h : LaidOut source (t :: ts)) (hname : Parser.isAnyName t) :
    Text.trim (laid source (t :: ts)) =
      t.text.toList ++ Text.trimRight (t.after source ++ laid source ts) := by
  obtain ⟨hne, -⟩ := (h.places t List.mem_cons_self).isName hname
  have htight := (h.plain t List.mem_cons_self).tight hname
  have hfirst : ∀ c ∈ (laid source (t :: ts)).head?, Text.isBlank c = false := by
    obtain ⟨d, hd, hblank⟩ := h.head_laid hname
    intro c hc
    obtain rfl := Option.some.inj (hd.symm.trans hc)
    exact hblank
  obtain ⟨cs, c, hcs⟩ : ∃ cs c, t.text.toList = cs ++ [c] :=
    ⟨_, _, (List.dropLast_append_getLast hne).symm⟩
  have hlast : Text.isBlank c = false := htight.last c (by rw [hcs, List.getLast?_concat]; rfl)
  rw [Text.trim, Text.trimLeft_of_first hfirst, laid_cons, hcs, List.append_assoc, List.append_assoc]
  exact Text.rdropWhile_append_cons hlast cs _

theorem exists_trim_laid {name : Token} (h : LaidOut source (t :: name :: ts))
    (ht : Parser.isAnyName t) (hname : Parser.isAnyName name) :
    ∃ rest, Text.trim (laid source (t :: name :: ts)) =
      t.text.toList ++ (t.after source ++ rest) := by
  obtain ⟨c, hc, hblank⟩ := (h.of_infix (List.suffix_cons _ _).isInfix).head_laid hname
  obtain ⟨cs, hcs⟩ := List.head?_eq_some_iff.mp hc
  refine ⟨c :: cs.rdropWhile Text.isBlank, ?_⟩
  rw [h.trim_laid ht, hcs]
  exact congrArg _ (Text.rdropWhile_append_cons hblank _ cs)

end LaidOut

namespace Naming

theorem importParts_as {name gap word gap' : List Char} (hname : Lexeme.IsName name)
    (hgap : ∀ c ∈ gap, Lexeme.isBlank c) (hword : lower word = " as ".toList)
    (hgap' : ∀ c ∈ gap', Lexeme.isBlank c) (own : List Char) :
    importParts (name ++ gap ++ word ++ (gap' ++ own)) = (Text.trim name, Text.trim own) := by
  have hlen : word.length = 4 := by rw [← Text.length_lower, hword]; rfl
  have hbreak : Text.breakAt? " as ".toList (lower (name ++ gap ++ word ++ (gap' ++ own))) =
      some (lower name ++ gap, lower (gap' ++ own)) := by
    have htext : lower (name ++ gap ++ word ++ (gap' ++ own)) =
        [] ++ lower name ++ (gap ++ [] ++ (" as ".toList ++ lower (gap' ++ own))) := by
      simp only [Text.lower_append, hword, lower_of_blank hgap, List.append_assoc, List.nil_append]
    have hhead : ∀ c ∈ (gap ++ [] ++ (" as ".toList ++ lower (gap' ++ own))).head?,
        Lexeme.isBlank c := by
      cases gap with
      | nil =>
        rintro c ⟨⟩
        decide
      | cons d gap =>
        rintro c ⟨⟩
        exact hgap d List.mem_cons_self
    rw [htext, Text.breakAt?_gap (List.forall_mem_nil (Lexeme.isBlank ·))
      (isBlank_of_isName (isName_lower hname)) hhead fun h => by cases h.2.1]
    rw [Text.breakAt?_gap hgap (List.forall_mem_nil (Lexeme.isBlank · = false))
      (by rintro c ⟨⟩; decide) fun h => absurd h.1 (by decide), Text.breakAt?_append_self]
    simp
  have htake : (name ++ gap ++ word ++ (gap' ++ own)).take (lower name ++ gap).length =
      name ++ gap := by
    rw [List.append_assoc (name ++ gap)]
    exact List.take_left' (by simp [Text.length_lower])
  have hdrop : (name ++ gap ++ word ++ (gap' ++ own)).drop ((lower name ++ gap).length + 4) =
      gap' ++ own := List.drop_left' (by simp [Text.length_lower, hlen, Nat.add_assoc])
  have hblank : ∀ {cs : List Char}, (∀ c ∈ cs, Lexeme.isBlank c) → ∀ c ∈ cs, Text.isBlank c :=
    fun h c hc => Text.isBlank_of_lexeme (h c hc)
  have hfirst := Text.trim_padRight (hblank hgap) name
  have hsecond := Text.trim_padLeft (hblank hgap') own
  simp only [importParts, hbreak, htake, hdrop, hfirst, hsecond]

def itemEntry (common : List Char) : List Token.Sense → Option (List Char × List Char)
  | [name] => recorded? (common ++ name.2)
  | [name, _, own] => recorded? (common ++ name.2 ++ " as ".toList ++ own.2)
  | _ => none

theorem recorded_congr {item item' : List Char} (h : importParts item = importParts item') :
    recorded? item = recorded? item' := by
  rw [recorded?, recorded?, h]

end Naming

namespace LaidOut

variable {source : List Char}

theorem stops_blank {gap : List Char} (h : ∀ c ∈ gap, Lexeme.isBlank c) (hne : gap ≠ [])
    (rest : List Char) : Stops (gap ++ rest) := by
  cases gap with
  | nil => exact absurd rfl hne
  | cons c gap =>
    have hc : Lexeme.isBlank c := h c List.mem_cons_self
    refine stops_cons (Bool.eq_false_iff.mpr fun hpart => ?_) _
    have hname : Lexeme.IsName [c] := by simpa [Lexeme.IsName] using Or.inl hpart
    exact Bool.false_ne_true ((isBlank_of_isName hname c List.mem_cons_self).symm.trans hc)

theorem trim_laid_renamed {name as own : Token} (h : LaidOut source [name, as, own])
    (hname : Parser.isAnyName name) (hown : Parser.isAnyName own) :
    Text.trim (laid source [name, as, own]) = name.text.toList ++
      (name.after source ++ as.text.toList ++ as.after source ++ own.text.toList) := by
  have hat := h.places name (by simp)
  have hat' := h.places own (by simp)
  have htight := ((h.plain name (by simp)).tight hname).enclose (hat.isName hname).1
    ((h.plain own (by simp)).tight hown) (hat'.isName hown).1
    (name.after source ++ as.text.toList ++ as.after source)
  have hpad := htight.trim_padRight fun c hc =>
    Text.isBlank_of_lexeme (Token.isBlank_of_mem_after source own c hc)
  rw [laid_cons, laid_cons, laid_singleton]
  simpa only [List.append_assoc] using hpad

/-- The text of an import without the blanks behind it begins with a name, and what is recorded for it
is what its tokens say. -/
theorem entry {common : List Char} (hcommon : Lexeme.IsName common) {ts : List Token}
    (h : LaidOut source ts) (hentry : IsEntry ts) : ∃ name rest, name ∈ ts.head? ∧
      Parser.isClassName name ∧ Text.trim (laid source ts) = name.text.toList ++ rest ∧ Stops rest ∧
      Naming.recorded? (common ++ Text.trim (laid source ts)) =
        Naming.itemEntry common (ts.map Token.sense) := by
  cases hentry with
  | @plain name hname =>
    have hplain := h.plain name List.mem_cons_self
    have hany := Token.isAnyName_of_isClassName hname
    have htrim : Text.trim (laid source [name]) = name.text.toList := by
      rw [laid_singleton]
      exact (hplain.tight hany).trim_padRight fun c hc =>
        Text.isBlank_of_lexeme (Token.isBlank_of_mem_after source name c hc)
    refine ⟨name, [], rfl, hname, by rw [htrim, List.append_nil], nofun, ?_⟩
    rw [htrim, ← Token.word_of_isClassName hname hplain.canonical]
    rfl
  | @renamed name as own hname has hown =>
    have hat := h.places name List.mem_cons_self
    have hplain := h.plain name List.mem_cons_self
    obtain ⟨hbefore, hchain⟩ := List.isChain_cons_cons.mp h.spaced
    obtain ⟨hbehind, -⟩ := List.isChain_cons_cons.mp hchain
    obtain ⟨gap, hgap⟩ := List.getLast?_eq_some_iff.mp (hbefore.before has)
    obtain ⟨gap', hgap'⟩ := List.head?_eq_some_iff.mp (hbehind.behind has)
    have hblank := Token.isBlank_of_mem_after source name
    have hblank' := Token.isBlank_of_mem_after source as
    rw [hgap] at hblank
    rw [hgap'] at hblank'
    have hany := Token.isAnyName_of_isClassName hname
    have htrim := h.trim_laid_renamed hany (Token.isAnyName_of_isFreeWord hown)
    rw [hgap, hgap'] at htrim
    have hitem : Lexeme.IsName (common ++ name.text.toList) := hcommon.append (hat.isName hany).2
    have hword : lower (' ' :: as.text.toList ++ [' ']) = " as ".toList := by
      rw [Text.lower_append, ← List.singleton_append, Text.lower_append, Token.lower_of_isKeyword has]
      decide
    refine ⟨name, _, rfl, hname, htrim, ?_, ?_⟩
    · rw [List.append_assoc, List.append_assoc]
      exact stops_blank hblank (List.append_ne_nil_of_right_ne_nil _ (List.cons_ne_nil _ _)) _
    · rw [htrim, List.map_cons, List.map_cons, List.map_cons, List.map_nil, Naming.itemEntry]
      refine Naming.recorded_congr ?_
      have hnil : ∀ c ∈ ([] : List Char), Lexeme.isBlank c := List.forall_mem_nil _
      have hlaid := Naming.importParts_as hitem (fun c hc => hblank c (List.mem_append_left _ hc))
        hword (fun c hc => hblank' c (List.mem_cons_of_mem _ hc)) own.text.toList
      have hcanonical := Naming.importParts_as hitem hnil
        (by decide : lower " as ".toList = " as ".toList) hnil own.text.toList
      have hown : own.sense.2 = own.text.toList := Token.word_of_isFreeWord hown
      have hname : name.sense.2 = name.text.toList := Token.word_of_isClassName hname hplain.canonical
      rw [hown, hname, ← List.append_nil (common ++ name.text.toList),
        ← List.nil_append own.text.toList, hcanonical, ← hlaid]
      simp

end LaidOut

section

variable {source : List Char} {name : Token} {rest : List Char}

theorem isNamePart_function : ∀ c ∈ "function".toList, Lexeme.isNamePart c :=
  List.all_eq_true.mp (by decide)

theorem isNamePart_const : ∀ c ∈ "const".toList, Lexeme.isNamePart c :=
  List.all_eq_true.mp (by decide)

theorem Token.IsAt.leadsWith_eq (h : name.IsAt source) (hclass : Parser.isClassName name)
    (hrest : Stops rest) {word : String} (hword : ∀ c ∈ word.toList, Lexeme.isNamePart c)
    (hreserved : word ∈ Parser.reserved) :
    Naming.leadsWith word (name.text.toList ++ rest) = false := by
  by_contra hleads
  rw [Bool.not_eq_false, Naming.leadsWith, Option.any_eq_true] at hleads
  obtain ⟨behind, hafter, hhead⟩ := hleads
  have hhead' : ∀ c ∈ behind.head?, Lexeme.isNamePart c = false ∧ c ≠ '\\' := by
    intro c hc
    rw [hc] at hhead
    simpa using hhead
  refine h.lower_append_ne hclass hword (by rwa [String.ofList_toList]) hrest
    (fun c hc => (hhead' c hc).1) (fun c hc => (hhead' c hc).2) (Text.append_of_after? hafter).symm

theorem Token.IsAt.importsNoClass_eq (h : name.IsAt source) (hclass : Parser.isClassName name)
    (hrest : Stops rest) : Naming.importsNoClass (name.text.toList ++ rest) = false := by
  rw [Naming.importsNoClass, h.leadsWith_eq hclass hrest isNamePart_function (by decide),
    h.leadsWith_eq hclass hrest isNamePart_const (by decide)]
  rfl

theorem Token.IsAt.importsNoClasses_eq (h : name.IsAt source) (hclass : Parser.isClassName name)
    (hrest : Stops rest) : Naming.importsNoClasses (name.text.toList ++ rest) = false := by
  have hnone : ∀ word : String, (∀ c ∈ word.toList, Lexeme.isNamePart c) → word ∈ Parser.reserved →
      Text.after? (word.toList ++ [' ']) (lower (name.text.toList ++ rest)) = none := by
    intro word hword hreserved
    refine Option.eq_none_iff_forall_not_mem.mpr fun behind hafter => ?_
    have htext := (Text.append_of_after? hafter).symm
    rw [List.append_assoc] at htext
    refine h.lower_append_ne hclass hword (by rwa [String.ofList_toList]) hrest
      (stops_cons (by decide) behind) ?_ htext
    rintro c ⟨⟩
    decide
  have hfunction := hnone "function" isNamePart_function (by decide)
  have hconst := hnone "const" isNamePart_const (by decide)
  rw [Naming.importsNoClasses, show "function ".toList = "function".toList ++ [' '] by decide,
    show "const ".toList = "const".toList ++ [' '] by decide, hfunction, hconst]
  rfl

end

theorem leadsWith_of_isKeyword {kind : Token} {word : String} (h : kind.isKeyword word)
    {gap : List Char} (hgap : ∀ c ∈ gap, Lexeme.isBlank c) (hne : gap ≠ []) (rest : List Char) :
    Naming.leadsWith word (kind.text.toList ++ (gap ++ rest)) = true := by
  rw [Naming.leadsWith, Text.lower_append, Token.lower_of_isKeyword h, Text.after?_append_self,
    Text.lower_append, lower_of_blank hgap, Option.any_some]
  cases gap with
  | nil => exact absurd rfl hne
  | cons c gap =>
    have hblank := hgap c List.mem_cons_self
    have hpart : (Lexeme.isNamePart c || c == '\\') = false := by
      by_contra hname
      rw [Bool.not_eq_false, Bool.or_eq_true, beq_iff_eq] at hname
      have hisName : Lexeme.IsName [c] := fun d hd => List.mem_singleton.mp hd ▸ hname
      exact Bool.false_ne_true ((isBlank_of_isName hisName c List.mem_cons_self).symm.trans hblank)
    rw [List.cons_append, List.head?_cons, Option.any_some, hpart]
    rfl

theorem Token.kind_of_isImportKind {kind : Token} (h : isImportKind kind) : kind.kind = .name := by
  rcases Bool.or_eq_true_iff.mp h with h | h <;> exact kind_of_isKeyword h

theorem Token.isAnyName_of_isImportKind {kind : Token} (h : isImportKind kind) :
    Parser.isAnyName kind := by
  rw [Parser.isAnyName, kind_of_isImportKind h]
  rfl

theorem not_isImportKind_of_isClassName {name : Token} (h : Parser.isClassName name) :
    isImportKind name = false := by
  by_contra hkind
  rw [Bool.not_eq_false] at hkind
  have hlowered : name.lowered ∈ Parser.reserved := by
    rcases Bool.or_eq_true_iff.mp hkind with hkind | hkind <;>
      exact Token.lowered_of_isKeyword hkind ▸ (by decide)
  simp only [Parser.isClassName, Token.kind_of_isImportKind hkind, Bool.or_eq_true] at h
  rcases h with (hfree | hname) | hname
  · exact (Token.lowered_of_isFreeWord hfree).2 hlowered
  · cases hname
  · cases hname

theorem importsNoClass_of_isImportKind {kind : Token} (h : isImportKind kind) {gap : List Char}
    (hgap : ∀ c ∈ gap, Lexeme.isBlank c) (hne : gap ≠ []) (rest : List Char) :
    Naming.importsNoClass (kind.text.toList ++ (gap ++ rest)) = true := by
  rw [Naming.importsNoClass, Bool.or_eq_true]
  exact (Bool.or_eq_true_iff.mp h).imp (fun h => leadsWith_of_isKeyword h hgap hne rest)
    fun h => leadsWith_of_isKeyword h hgap hne rest

namespace LaidOut

variable {source common : List Char} {ts : List Token}

theorem item (hcommon : Lexeme.IsName common) (h : LaidOut source ts) (hitem : IsItem ts) :
    Text.trim (laid source ts) ≠ [] ∧
      if Naming.importsNoClass (Text.trim (laid source ts)) then
        Naming.itemEntry common (ts.map Token.sense) = none
      else Naming.recorded? (common ++ Text.trim (laid source ts)) =
        Naming.itemEntry common (ts.map Token.sense) := by
  cases hitem with
  | ofClass hentry =>
    obtain ⟨name, rest, hname, hclass, htrim, hstops, hrecorded⟩ := h.entry hcommon hentry
    have hat := h.places name (List.mem_of_mem_head? hname)
    have hne := (hat.isName (Token.isAnyName_of_isClassName hclass)).1
    refine ⟨by rw [htrim]; exact List.append_ne_nil_of_left_ne_nil hne _, ?_⟩
    have hkeeps := hat.importsNoClass_eq hclass hstops
    rw [← htrim] at hkeeps
    rw [hkeeps]
    exact hrecorded
  | @ofOther kind entry hkind hentry =>
    have hnone : Naming.itemEntry common ((kind :: entry).map Token.sense) = none := by
      cases hentry <;> rfl
    obtain ⟨name, more, rfl, hclass⟩ : ∃ name more, entry = name :: more ∧ Parser.isClassName name := by
      cases hentry with
      | plain hname => exact ⟨_, _, rfl, hname⟩
      | renamed hname _ _ => exact ⟨_, _, rfl, hname⟩
    have hany := Token.isAnyName_of_isClassName hclass
    have hkindName := Token.kind_of_isImportKind hkind
    have hkindAny := Token.isAnyName_of_isImportKind hkind
    have hat := h.places kind List.mem_cons_self
    have hnext := (List.isChain_cons_cons.mp h.spaced).1.next
    have hgap := hnext.after_ne_nil hat (h.places name (by simp)) hkindName hany
    obtain ⟨rest, htrim⟩ := h.exists_trim_laid hkindAny hany
    have hskips := importsNoClass_of_isImportKind hkind (Token.isBlank_of_mem_after source kind) hgap rest
    rw [htrim]
    refine ⟨List.append_ne_nil_of_left_ne_nil (hat.isName hkindAny).1 _, ?_⟩
    rw [hskips, if_pos rfl]
    exact hnone

end LaidOut

theorem IsEntry.isAnyName {ts : List Token} (h : IsEntry ts) : ∀ t ∈ ts, Parser.isAnyName t := by
  cases h with
  | plain hname => simpa using Token.isAnyName_of_isClassName hname
  | renamed hname has hown =>
    simpa using ⟨Token.isAnyName_of_isClassName hname, Token.isAnyName_of_isKeyword has,
      Token.isAnyName_of_isFreeWord hown⟩

theorem IsItem.isAnyName {ts : List Token} (h : IsItem ts) : ∀ t ∈ ts, Parser.isAnyName t := by
  cases h with
  | ofClass h => exact h.isAnyName
  | ofOther hkind h => exact List.forall_mem_cons.mpr ⟨Token.isAnyName_of_isImportKind hkind, h.isAnyName⟩

theorem not_mem_laid {source : List Char} {ts : List Token} {sign : Char}
    (hblank : Lexeme.isBlank sign = false) (h : ∀ t ∈ ts, sign ∉ t.text.toList) :
    sign ∉ laid source ts := by
  intro hmem
  obtain ⟨t, ht, hsign⟩ := List.mem_flatMap.mp hmem
  rcases List.mem_append.mp hsign with hsign | hsign
  · exact h t ht hsign
  · exact Bool.false_ne_true (hblank.symm.trans (Token.isBlank_of_mem_after source t sign hsign))

theorem Token.IsAt.not_mem {source : List Char} {t : Token} (h : t.IsAt source)
    (hname : Parser.isAnyName t) {sign : Char} (hsign : Lexeme.isNamePart sign = false)
    (hne : sign ≠ '\\') : sign ∉ t.text.toList := by
  intro hmem
  rcases (h.isName hname).2 sign hmem with hpart | hback
  · exact Bool.false_ne_true (hsign.symm.trans hpart)
  · exact hne hback

theorem exists_of_append_cons_eq {sign : Char} {before rest text right : List Char}
    (h : before ++ sign :: rest = text ++ right) (hright : sign ∉ right) :
    ∃ text', text = before ++ sign :: text' ∧ rest = text' ++ right := by
  rcases List.append_eq_append_iff.mp h with ⟨more, hmore, hmore'⟩ | ⟨more, -, hmore'⟩
  · cases more with
    | nil =>
      rw [List.nil_append] at hmore'
      exact absurd (hmore' ▸ List.mem_cons_self) hright
    | cons c more =>
      obtain ⟨rfl, hrest⟩ := List.cons.inj hmore'
      exact ⟨more, hmore, hrest⟩
  · exact absurd (hmore' ▸ List.mem_append_right _ List.mem_cons_self) hright

namespace Token

def isComma (s : Sense) : Bool := s == (.symbol, [','])

theorem isComma_of_isAnyName {t : Token} (h : Parser.isAnyName t) : isComma t.sense = false :=
  beq_eq_false_iff_ne.mpr fun he => kind_ne_symbol_of_isAnyName h (congrArg Prod.fst he)

theorem toList_text_of_comma {t : Token} (h : t.isSymbol ",") : t.text.toList = [','] := by
  rw [text_of_isSymbol h]
  rfl

theorem isComma_of_isSymbol {t : Token} (h : t.isSymbol ",") : isComma t.sense = true := by
  rw [isComma, sense, word, kind_of_isSymbol h, toList_text_of_comma h, beq_self_eq_true]

end Token

theorem Listed.exists_parts {source : List Char} {Part : List Token → Prop} {ts : List Token}
    (hnames : ∀ part, Part part → ∀ t ∈ part, Parser.isAnyName t) (h : Listed Part ts)
    (hat : ∀ t ∈ ts, t.IsAt source) :
    ∃ parts : List (List Token), (∀ part ∈ parts, Part part ∧ part <:+: ts) ∧
      (ts.map Token.sense).splitOnP Token.isComma = parts.map (·.map Token.sense) ∧
      ∀ lead text right : List Char, (∀ c ∈ lead, Text.isBlank c) → (∀ c ∈ right, Text.isBlank c) →
        lead ++ laid source ts = text ++ right →
        (Text.splitAt ',' text).map Text.trim = parts.map fun part => Text.trim (laid source part) := by
  have hcommas : ∀ {part : List Token}, Part part → ∀ s ∈ part.map Token.sense,
      Token.isComma s = false := by
    intro part hpart s hs
    obtain ⟨t, ht, rfl⟩ := List.mem_map.mp hs
    exact Token.isComma_of_isAnyName (hnames part hpart t ht)
  have hnone : ∀ {part : List Token}, Part part → (∀ t ∈ part, t.IsAt source) →
      ',' ∉ laid source part := fun hpart hat => not_mem_laid (by decide) fun t ht =>
    (hat t ht).not_mem (hnames _ hpart t ht) (by decide) (by decide)
  have hblank : ∀ {cs : List Char}, (∀ c ∈ cs, Text.isBlank c) → ',' ∉ cs := fun h hmem =>
    absurd (h _ hmem) (by decide)
  induction h with
  | @single part hpart =>
    refine ⟨[part], by simpa using hpart, List.splitOnP_eq_singleton (hcommas hpart), ?_⟩
    intro lead text right hlead hright htext
    have hnot : ',' ∉ text := by
      intro hmem
      have hmem' : ',' ∈ lead ++ laid source part := htext ▸ List.mem_append_left right hmem
      exact (List.mem_append.mp hmem').elim (hblank hlead) (hnone hpart hat)
    rw [Text.splitAt_of_not_mem hnot, List.map_singleton, List.map_singleton,
      ← Text.trim_padLeft hlead (laid source part), htext, Text.trim_padRight hright]
  | @cons part ts comma hpart hcomma hts ih =>
    obtain ⟨parts, hparts, hsenses, htexts⟩ := ih fun t ht => hat t (by simp [ht])
    refine ⟨part :: parts, ?_, ?_, ?_⟩
    · refine List.forall_mem_cons.mpr ⟨⟨hpart, (List.prefix_append _ _).isInfix⟩, fun p hp => ?_⟩
      have hsuffix : ts <:+ part ++ comma :: ts := ⟨part ++ [comma], by simp⟩
      exact ⟨(hparts p hp).1, (hparts p hp).2.trans hsuffix.isInfix⟩
    · have hsplit := Token.isComma_of_isSymbol hcomma
      rw [List.map_append, List.map_cons,
        List.splitOnP_append_cons_of_forall_mem (hcommas hpart) _ hsplit, hsenses, List.map_cons]
    · intro lead text right hlead hright hlaid
      rw [laid_append, laid_cons, Token.toList_text_of_comma hcomma, List.singleton_append,
        ← List.append_assoc] at hlaid
      obtain ⟨text, rfl, hrest⟩ := exists_of_append_cons_eq hlaid (hblank hright)
      have hfirst : ',' ∉ lead ++ laid source part := fun hmem => (List.mem_append.mp hmem).elim
        (hblank hlead) (hnone hpart fun t ht => hat t (List.mem_append_left _ ht))
      rw [Text.splitAt_append_cons hfirst, List.map_cons, List.map_cons, Text.trim_padLeft hlead]
      refine congrArg _ (htexts _ _ _ ?_ hright hrest)
      exact fun c hc => Text.isBlank_of_lexeme (Token.isBlank_of_mem_after source comma c hc)

namespace Naming

/-- What is recorded for some pieces of a statement. -/
def recordedOf (common : List Char) (pieces : List (List Char)) : List (List Char × List Char) :=
  ((pieces.filter (!importsNoClass ·)).map (common ++ ·)).filterMap recorded?

end Naming

namespace LaidOut

variable {source common : List Char} {parts : List (List Token)}

theorem recordedOf_parts (hcommon : Lexeme.IsName common)
    (h : ∀ part ∈ parts, LaidOut source part ∧ (part = [] ∨ IsItem part)) :
    Naming.recordedOf common ((parts.map fun part => Text.trim (laid source part)).filter
        (!·.isEmpty)) =
      (parts.map (·.map Token.sense)).filterMap (Naming.itemEntry common) := by
  induction parts with
  | nil => rfl
  | cons part parts ih =>
    have hparts := ih fun p hp => h p (List.mem_cons_of_mem _ hp)
    obtain ⟨hlaid, hpart⟩ := h part List.mem_cons_self
    rw [List.map_cons, List.map_cons, List.filterMap_cons]
    rcases hpart with rfl | hitem
    · exact hparts
    · obtain ⟨hne, hrecorded⟩ := hlaid.item hcommon hitem
      rw [List.filter_cons_of_pos (by simpa using hne), Naming.recordedOf]
      rw [Naming.recordedOf] at hparts
      cases hskips : Naming.importsNoClass (Text.trim (laid source part)) with
      | true =>
        rw [hskips, if_pos rfl] at hrecorded
        rw [List.filter_cons_of_neg (by simp [hskips]), hrecorded]
        exact hparts
      | false =>
        rw [hskips, if_neg Bool.false_ne_true] at hrecorded
        rw [List.filter_cons_of_pos (by simp [hskips]), List.map_cons, List.filterMap_cons, hrecorded,
          hparts]

end LaidOut

namespace Naming

theorem filterMap_classItems {text common : List Char} {pieces : List (List Char)}
    (hclasses : importsNoClasses (importBody text) = false)
    (hpieces : importPieces? (importBody text) = some (common, pieces)) :
    (classItems text).filterMap recorded? = recordedOf common pieces := by
  rw [classItems, hclasses, if_neg Bool.false_ne_true, hpieces]
  rfl

theorem dropWord_use {gap : List Char} (hgap : ∀ c ∈ gap, Lexeme.isBlank c) (hne : gap ≠ [])
    (rest : List Char) : Text.dropWord "use" ("use".toList ++ (gap ++ rest)) = gap ++ rest := by
  refine Text.dropWord_append_self (Text.after?_eq_none_of_head fun c hc => ?_) (by decide)
  rintro rfl
  cases gap with
  | nil => exact hne rfl
  | cons d gap =>
    have hd := hgap d List.mem_cons_self
    rw [Option.some.inj hc] at hd
    exact absurd hd (by decide)

theorem importBody_of_statement {gap phrase : List Char} (hgap : ∀ c ∈ gap, Lexeme.isBlank c)
    (hne : gap ≠ []) (hfirst : ∃ c ∈ phrase.head?, Text.isBlank c = false)
    (hlast : ∀ c ∈ phrase.getLast?, c ≠ ';') :
    importBody ("use".toList ++ (gap ++ phrase ++ [';'])) = Text.trim phrase := by
  have hstop : IsTight [';'] := Text.isTight_of_all (by decide)
  have htrim : Text.trim ("use".toList ++ (gap ++ phrase ++ [';'])) =
      "use".toList ++ (gap ++ (phrase ++ [';'])) := by
    have huse : IsTight "use".toList := Text.isTight_of_all (by decide)
    rw [← List.append_assoc, ← List.append_assoc gap]
    exact (huse.enclose (by decide) hstop (List.cons_ne_nil _ _) _).trim_eq
  have hrest : Text.trim (gap ++ (phrase ++ [';'])) = phrase ++ [';'] := by
    have htight : IsTight (phrase ++ [';']) := by
      obtain ⟨c, hc, hblank⟩ := hfirst
      refine ⟨fun d hd => ?_, fun d hd => ?_⟩
      · rw [List.head?_append, hc] at hd
        rw [← Option.some.inj hd, hblank]
      · rw [List.getLast?_concat] at hd
        rw [← Option.some.inj hd]
        decide
    exact htight.trim_padLeft fun c hc => Text.isBlank_of_lexeme (hgap c hc)
  rw [importBody, htrim, dropWord_use hgap hne, hrest, Text.dropRight_concat hlast]

theorem exists_importBody_eq {gap phrase : List Char} {sign : Char} (hgap : ∀ c ∈ gap, Lexeme.isBlank c)
    (hne : gap ≠ []) (hfirst : ∃ c ∈ phrase.head?, Text.isBlank c = false)
    (hblank : Text.isBlank sign = false) (hsign : sign ≠ ';') (more : List Char) :
    ∃ rest, importBody ("use".toList ++ (gap ++ (phrase ++ sign :: more))) = phrase ++ sign :: rest := by
  have hright : ∀ cs : List Char, Text.trimRight (phrase ++ sign :: cs) =
      phrase ++ sign :: Text.trimRight cs := Text.rdropWhile_append_cons hblank phrase
  have hhead : ∀ cs, ∀ c ∈ (phrase ++ cs).head?, Text.isBlank c = false := by
    obtain ⟨d, hd, hblank⟩ := hfirst
    intro cs c hc
    rw [List.head?_append, hd] at hc
    rw [← Option.some.inj hc, hblank]
  have hwhole : Text.trim ("use".toList ++ (gap ++ (phrase ++ sign :: more))) =
      "use".toList ++ (gap ++ (phrase ++ sign :: Text.trimRight more)) := by
    have hstart : Text.trimLeft ("use".toList ++ (gap ++ (phrase ++ sign :: more))) = _ :=
      Text.trimLeft_of_first fun c hc => by
        obtain rfl := Option.some.inj hc
        decide
    have hend : Text.trimRight ("use".toList ++ (gap ++ phrase) ++ sign :: more) =
        "use".toList ++ (gap ++ phrase) ++ sign :: Text.trimRight more :=
      Text.rdropWhile_append_cons hblank _ more
    rw [Text.trim, hstart]
    simpa only [List.append_assoc] using hend
  have hrest : ∀ cs : List Char, Text.trim (gap ++ (phrase ++ sign :: cs)) =
      phrase ++ sign :: Text.trimRight cs := by
    intro cs
    rw [Text.trim_padLeft fun c hc => Text.isBlank_of_lexeme (hgap c hc), Text.trim,
      Text.trimLeft_of_first (hhead _), hright]
  have hdrop : ∀ cs : List Char, Text.dropRight ';' (phrase ++ sign :: cs) =
      phrase ++ sign :: Text.dropRight ';' cs :=
    fun cs => Text.rdropWhile_append_cons (by simpa using hsign) phrase cs
  refine ⟨Text.trimRight (Text.dropRight ';' (Text.trimRight (Text.trimRight more))), ?_⟩
  rw [importBody, hwhole, dropWord_use hgap hne, hrest, hdrop, Text.trim, Text.trimLeft_of_first (hhead _),
    hright]

theorem importPieces?_common {common gap : List Char} (hcommon : IsTight common)
    (hne : common ≠ []) (hbrace : '\x7b' ∉ common) (hgap : ∀ c ∈ gap, Lexeme.isBlank c)
    (inner : List Char) :
    importPieces? (common ++ ('\\' :: gap) ++ '\x7b' :: (inner ++ ['\x7d'])) =
      some (groupPrefix common, ((Text.splitAt ',' inner).map Text.trim).filter (!·.isEmpty)) := by
  have hbrace' : '\x7b' ∉ common ++ ('\\' :: gap) := by
    have hgap' : '\x7b' ∉ gap := fun hmem => absurd (hgap _ hmem) (by decide)
    simp [hbrace, hgap']
  have hbehind : Text.dropRight '\\' (Text.trim (common ++ ('\\' :: gap))) =
      Text.dropRight '\\' common := by
    have hback : IsTight ['\\'] := Text.isTight_of_all (by decide)
    have htight := hcommon.enclose hne hback (List.cons_ne_nil _ _) []
    have hpad := htight.trim_padRight fun c hc => Text.isBlank_of_lexeme (hgap c hc)
    rw [List.append_nil, List.append_assoc, List.singleton_append] at hpad
    rw [hpad]
    exact List.rdropWhile_concat_pos _ _ _ (by simp)
  rw [importPieces?_group hbrace', groupPrefix, hbehind]
  rfl

end Naming

namespace Naming

/-- What is recorded for a list or a group of imports, by what its tokens say. -/
def entries (senses : List Token.Sense) : List (List Char × List Char) :=
  if senses[1]? = some (.symbol, ['\\']) then
    ((senses.drop 3).dropLast.splitOnP Token.isComma).filterMap
      (itemEntry (groupPrefix ((senses.head?.map Prod.snd).getD [])))
  else (senses.splitOnP Token.isComma).filterMap (itemEntry [])

def classEntries (senses : List Token.Sense) : List (List Char × List Char) :=
  if senses.head? ∈ [some (.name, "function".toList), some (.name, "const".toList)] then []
  else entries senses

end Naming

/-- A statement of imports of classes is laid out plainly. Its keyword is in lower case, and a
semicolon ends it. -/
structure IsPlainImport (source : List Char) (ts : List Token) : Prop where
  keyword : ts.head?.map (·.text) = some "use"
  last : ∀ t ∈ ts.getLast?, t.isSymbol ";"
  plain : ∀ t ∈ ts, t.IsPlain
  spaced : ts.IsChain (Token.IsSpaced source)

instance (source : List Char) (ts : List Token) : Decidable (IsPlainImport source ts) :=
  decidable_of_iff (ts.head?.map (·.text) = some "use" ∧ (∀ t ∈ ts.getLast?, t.isSymbol ";") ∧
    (∀ t ∈ ts, t.IsPlain) ∧ ts.IsChain (Token.IsSpaced source))
    ⟨fun h => ⟨h.1, h.2.1, h.2.2.1, h.2.2.2⟩, fun h => ⟨h.1, h.2, h.3, h.4⟩⟩

/-- A statement of imports of functions or constants begins plainly. Its keyword is in lower case, and
a space follows the word for what is imported. How it goes on does not count. -/
structure IsPlainOther (source : List Char) (ts : List Token) : Prop where
  keyword : ts.head?.map (·.text) = some "use"
  next : (ts.take 2).IsChain (Token.IsNext source)
  kind : ∀ k ∈ ts[1]?, (k.after source).head? = some ' '
  name : ∀ t ∈ ts[2]?, IsTight t.text.toList

instance (source : List Char) (ts : List Token) : Decidable (IsPlainOther source ts) :=
  decidable_of_iff (ts.head?.map (·.text) = some "use" ∧
    (ts.take 2).IsChain (Token.IsNext source) ∧
    (∀ k ∈ ts[1]?, (k.after source).head? = some ' ') ∧ ∀ t ∈ ts[2]?, IsTight t.text.toList)
    ⟨fun h => ⟨h.1, h.2.1, h.2.2.1, h.2.2.2⟩, fun h => ⟨h.1, h.2, h.3, h.4⟩⟩

def IsPlainUse (source : List Char) (ts : List Token) : Prop :=
  if (ts[1]?).any isImportKind then IsPlainOther source ts else IsPlainImport source ts

instance (source : List Char) (ts : List Token) : Decidable (IsPlainUse source ts) :=
  inferInstanceAs (Decidable
    (if (ts[1]?).any isImportKind then IsPlainOther source ts else IsPlainImport source ts))

section

variable {source : List Char} {keyword last : Token} {used : List Token}

theorem Listed.isAnyName_or {Part : List Token → Prop} {ts : List Token}
    (hnames : ∀ part, Part part → ∀ t ∈ part, Parser.isAnyName t) (h : Listed Part ts) :
    ∀ t ∈ ts, Parser.isAnyName t ∨ t.isSymbol "," := by
  induction h with
  | single hpart => exact fun t ht => Or.inl (hnames _ hpart t ht)
  | cons hpart hcomma _ ih =>
    intro t ht
    rcases List.mem_append.mp ht with ht | ht
    · exact Or.inl (hnames _ hpart t ht)
    · rcases List.mem_cons.mp ht with rfl | ht
      · exact Or.inr hcomma
      · exact ih t ht

theorem IsImports.exists_name (h : IsImports used) :
    ∃ name rest, used = name :: rest ∧ Parser.isClassName name := by
  have hentry : ∀ {ts : List Token}, IsEntry ts → ∃ name rest, ts = name :: rest ∧
      Parser.isClassName name := by
    intro ts h
    cases h with
    | plain hname => exact ⟨_, _, rfl, hname⟩
    | renamed hname _ _ => exact ⟨_, _, rfl, hname⟩
  cases h with
  | group hcommon _ _ _ _ => exact ⟨_, _, rfl, hcommon⟩
  | list hlisted =>
    cases hlisted with
    | single h => exact hentry h
    | cons h _ _ =>
      obtain ⟨name, rest, rfl, hname⟩ := hentry h
      exact ⟨name, _, rfl, hname⟩

theorem exists_append_trim {cs : List Char} (h : ∃ c ∈ cs.head?, Text.isBlank c = false) :
    ∃ right, (∀ c ∈ right, Text.isBlank c) ∧ cs = Text.trim cs ++ right := by
  have hfirst : ∀ c ∈ cs.head?, Text.isBlank c = false := by
    obtain ⟨d, hd, hblank⟩ := h
    intro c hc
    obtain rfl := Option.some.inj (hd.symm.trans hc)
    exact hblank
  refine ⟨cs.rtakeWhile Text.isBlank, fun c hc => List.mem_rtakeWhile_imp hc, ?_⟩
  rw [Text.trim, Text.trimLeft_of_first hfirst]
  exact List.rdropWhile_append_rtakeWhile.symm

/-- The imports can be read off the text, and what is recorded for them is what the tokens say. -/
def Naming.Yields (text : List Char) (senses : List Token.Sense) : Prop :=
  ∃ common pieces, importPieces? text = some (common, pieces) ∧
    recordedOf common pieces = entries senses

theorem LaidOut.yields_list (h : LaidOut source used) (hlisted : Listed IsEntry used) :
    Naming.Yields (Text.trim (laid source used)) (used.map Token.sense) := by
  have hnames : ∀ part, IsEntry part → ∀ t ∈ part, Parser.isAnyName t := fun _ h => h.isAnyName
  obtain ⟨parts, hparts, hsenses, htexts⟩ := hlisted.exists_parts hnames h.places
  have hbrace : '\x7b' ∉ Text.trim (laid source used) := by
    have hnot : '\x7b' ∉ laid source used := not_mem_laid (by decide) fun t ht => by
      rcases hlisted.isAnyName_or hnames t ht with hname | hcomma
      · exact (h.places t ht).not_mem hname (by decide) (by decide)
      · rw [Token.text_of_isSymbol hcomma]
        decide
    exact fun hmem => hnot ((Text.trim_sublist _).subset hmem)
  have hpieces := Naming.importPieces?_list hbrace
  obtain ⟨name, rest, rfl, hclass⟩ := (IsImports.list hlisted).exists_name
  obtain ⟨right, hright, htext⟩ :=
    exists_append_trim (h.head_laid (Token.isAnyName_of_isClassName hclass))
  have hlead := htexts [] _ right (List.forall_mem_nil _) hright htext
  have hnil : Lexeme.IsName [] := List.forall_mem_nil _
  have hitems : ∀ part ∈ parts, LaidOut source part ∧ (part = [] ∨ IsItem part) := fun part hpart =>
    ⟨h.of_infix (hparts part hpart).2, Or.inr (.ofClass (hparts part hpart).1)⟩
  have hfull : (parts.map fun part => Text.trim (laid source part)).filter (!·.isEmpty) =
      parts.map fun part => Text.trim (laid source part) := by
    refine List.filter_eq_self.mpr fun piece hpiece => ?_
    obtain ⟨part, hpart, rfl⟩ := List.mem_map.mp hpiece
    have hne := ((hitems part hpart).1.item hnil (.ofClass (hparts part hpart).1)).1
    rw [List.isEmpty_eq_false_iff.mpr hne]
    rfl
  have hback : ((name :: rest).map Token.sense)[1]? ≠ some (.symbol, ['\\']) := by
    intro he
    obtain ⟨t, ht, hsense⟩ := List.mem_map.mp (List.mem_of_getElem? he)
    rcases hlisted.isAnyName_or hnames t ht with hname | hcomma
    · exact Token.kind_ne_symbol_of_isAnyName hname (congrArg Prod.fst hsense)
    · have hword : t.word = ['\\'] := congrArg Prod.snd hsense
      rw [Token.word_of_isSymbol hcomma] at hword
      exact absurd hword (by decide)
  have hrecorded := LaidOut.recordedOf_parts hnil hitems
  rw [hfull] at hrecorded
  refine ⟨_, _, hpieces, ?_⟩
  rw [hlead, hrecorded, Naming.entries, if_neg hback, hsenses]

theorem isName_groupPrefix {common : List Char} (h : Lexeme.IsName common) :
    Lexeme.IsName (Naming.groupPrefix common) := by
  have hdrop : Text.dropRight '\\' common <+: common := List.rdropWhile_prefix _ _
  rw [Naming.groupPrefix]
  split_ifs
  · exact nofun
  · refine Lexeme.IsName.append (fun c hc => h c (hdrop.subset hc)) fun c hc => Or.inr ?_
    exact List.mem_singleton.mp hc

theorem LaidOut.trim_laid_group {common back opening closing : Token} {inner : List Token}
    (h : LaidOut source (common :: back :: opening :: inner ++ [closing]))
    (hcommon : Parser.isAnyName common) (hback : back.isSymbol "\\")
    (hopening : opening.isSymbol "\x7b") (hclosing : closing.isSymbol "\x7d") :
    Text.trim (laid source (common :: back :: opening :: inner ++ [closing])) =
      common.text.toList ++ ('\\' :: back.after source) ++
        '\x7b' :: (opening.after source ++ laid source inner ++ ['\x7d']) := by
  have hjoined : common.after source = [] := (List.isChain_cons_cons.mp h.spaced).1.joined hback
  have hne := ((h.places common List.mem_cons_self).isName hcommon).1
  have hclose : IsTight ['\x7d'] := Text.isTight_of_all (by decide)
  have htight := ((h.plain common List.mem_cons_self).tight hcommon).enclose hne hclose
    (List.cons_ne_nil _ _)
    (('\\' :: back.after source) ++ '\x7b' :: (opening.after source ++ laid source inner))
  have hpad := htight.trim_padRight fun c hc =>
    Text.isBlank_of_lexeme (Token.isBlank_of_mem_after source closing c hc)
  have hback' : back.text.toList = ['\\'] := by
    rw [Token.text_of_isSymbol hback]
    rfl
  have hopening' : opening.text.toList = ['\x7b'] := by
    rw [Token.text_of_isSymbol hopening]
    rfl
  have hclosing' : closing.text.toList = ['\x7d'] := by
    rw [Token.text_of_isSymbol hclosing]
    rfl
  rw [laid_append, laid_cons, laid_cons, laid_cons, laid_singleton, hjoined, hback', hopening',
    hclosing']
  simpa only [List.append_assoc, List.cons_append, List.nil_append] using hpad

theorem LaidOut.yields_group {common back opening closing : Token} {inner : List Token}
    (h : LaidOut source (common :: back :: opening :: inner ++ [closing]))
    (hcommon : Parser.isClassName common) (hback : back.isSymbol "\\")
    (hopening : opening.isSymbol "\x7b") (hclosing : closing.isSymbol "\x7d")
    (hlisted : Listed (fun part => part = [] ∨ IsItem part) inner) :
    Naming.Yields (Text.trim (laid source (common :: back :: opening :: inner ++ [closing])))
      ((common :: back :: opening :: inner ++ [closing]).map Token.sense) := by
  have hany := Token.isAnyName_of_isClassName hcommon
  have hat := h.places common List.mem_cons_self
  have hplain := h.plain common List.mem_cons_self
  have hnames : ∀ part, (part = [] ∨ IsItem part) → ∀ t ∈ part, Parser.isAnyName t := by
    rintro part (rfl | h)
    · exact nofun
    · exact h.isAnyName
  have hinner : inner <:+: common :: back :: opening :: inner ++ [closing] :=
    ⟨[common, back, opening], [closing], rfl⟩
  obtain ⟨parts, hparts, hsenses, htexts⟩ := hlisted.exists_parts hnames (h.of_infix hinner).places
  obtain ⟨hne, hname⟩ := hat.isName hany
  have hphrase := h.trim_laid_group hany hback hopening hclosing
  have hbrace : '\x7b' ∉ common.text.toList := hat.not_mem hany (by decide) (by decide)
  have hpieces := Naming.importPieces?_common (hplain.tight hany) hne hbrace
    (Token.isBlank_of_mem_after source back) (opening.after source ++ laid source inner)
  have hlead := htexts (opening.after source) (opening.after source ++ laid source inner) []
    (fun c hc => Text.isBlank_of_lexeme (Token.isBlank_of_mem_after source opening c hc)) nofun
    (List.append_nil _).symm
  have hitems : ∀ part ∈ parts, LaidOut source part ∧ (part = [] ∨ IsItem part) := fun part hpart =>
    ⟨h.of_infix ((hparts part hpart).2.trans hinner), (hparts part hpart).1⟩
  have hsecond : ((common :: back :: opening :: inner ++ [closing]).map Token.sense)[1]? =
      some (.symbol, ['\\']) := by
    have hsense : back.sense = (.symbol, ['\\']) :=
      Prod.ext (Token.kind_of_isSymbol hback) (Token.word_of_isSymbol hback)
    exact congrArg some hsense
  have hdrop : (((common :: back :: opening :: inner ++ [closing]).map Token.sense).drop 3).dropLast =
      inner.map Token.sense := by
    simp
  have hhead : ((((common :: back :: opening :: inner ++ [closing]).map Token.sense).head?).map
      Prod.snd).getD [] = common.text.toList := Token.word_of_isClassName hcommon hplain.canonical
  refine ⟨_, _, hphrase ▸ hpieces, ?_⟩
  rw [hlead, LaidOut.recordedOf_parts (isName_groupPrefix hname) hitems, Naming.entries,
    if_pos hsecond, hdrop, hhead, hsenses]

theorem LaidOut.yields_phrase (h : LaidOut source used) (himports : IsImports used) :
    Naming.Yields (Text.trim (laid source used)) (used.map Token.sense) := by
  cases himports with
  | list hlisted => exact h.yields_list hlisted
  | @group common back opening closing inner hcommon hback hopening hclosing hlisted =>
    exact h.yields_group hcommon hback hopening hclosing hlisted

/-- The tokens of imports are names and punctuation. -/
theorem IsImports.isAnyName_or (h : IsImports used) : ∀ t ∈ used,
    Parser.isAnyName t ∨ ∃ sign ∈ [",", "\\", "\x7b", "\x7d"], t.isSymbol sign := by
  have hcomma : ∀ {t : Token}, Parser.isAnyName t ∨ t.isSymbol "," → Parser.isAnyName t ∨
      ∃ sign ∈ [",", "\\", "\x7b", "\x7d"], t.isSymbol sign := fun h =>
    h.imp_right fun h => ⟨",", by decide, h⟩
  cases h with
  | list hlisted => exact fun t ht => hcomma (hlisted.isAnyName_or (fun _ h => h.isAnyName) t ht)
  | @group common back opening closing inner hcommon hback hopening hclosing hlisted =>
    have hinner : ∀ t ∈ inner, Parser.isAnyName t ∨ t.isSymbol "," := by
      refine hlisted.isAnyName_or ?_
      rintro part (rfl | h)
      · exact nofun
      · exact h.isAnyName
    intro t ht
    simp only [List.cons_append, List.mem_cons, List.mem_append, List.not_mem_nil, or_false] at ht
    rcases ht with rfl | rfl | rfl | ht | rfl
    · exact Or.inl (Token.isAnyName_of_isClassName hcommon)
    · exact Or.inr ⟨_, by decide, hback⟩
    · exact Or.inr ⟨_, by decide, hopening⟩
    · exact hcomma (hinner t ht)
    · exact Or.inr ⟨_, by decide, hclosing⟩

theorem IsPlainImport.importBody_eq (h : IsPlainImport source (keyword :: used ++ [last]))
    (hat : ∀ t ∈ keyword :: used ++ [last], t.IsAt source) (hkeyword : keyword.isKeyword "use")
    (himports : IsImports used) :
    Naming.importBody (textOf source (keyword.span.through last.span)) =
      Text.trim (laid source used) := by
  have hlaid : LaidOut source (keyword :: used ++ [last]) := ⟨hat, h.plain, h.spaced⟩
  have hphrase : LaidOut source used := hlaid.of_infix ⟨[keyword], [last], rfl⟩
  have hsemicolon : ';' ∉ laid source used := by
    refine not_mem_laid (by decide) fun t ht => ?_
    rcases himports.isAnyName_or t ht with hname | ⟨sign, hsign, hsymbol⟩
    · exact (hphrase.places t ht).not_mem hname (by decide) (by decide)
    · rw [Token.text_of_isSymbol hsymbol]
      exact (by decide : ∀ sign ∈ [",", "\\", "\x7b", "\x7d"], ';' ∉ sign.toList) sign hsign
  have hlast : last.text.toList = [';'] := by
    rw [Token.text_of_isSymbol (h.last last (by rw [List.getLast?_concat]; rfl))]
    rfl
  have huse : keyword.text.toList = "use".toList := congrArg String.toList (Option.some.inj h.keyword)
  have htext := Token.textOf_laid (by rfl : keyword ∈ _) hat hlaid.isNext
  obtain ⟨name, rest, rfl, hclass⟩ := himports.exists_name
  have hname := Token.isAnyName_of_isClassName hclass
  have hnext := (List.isChain_cons_cons.mp hlaid.spaced).1.next
  have hne := hnext.after_ne_nil (hlaid.places keyword (by simp)) (hlaid.places name (by simp))
    (Token.kind_of_isKeyword hkeyword) hname
  rw [htext, laid_cons, hlast, huse, List.append_assoc]
  refine Naming.importBody_of_statement (Token.isBlank_of_mem_after source keyword) hne
    (hphrase.head_laid hname) fun c hc => ?_
  rintro rfl
  exact hsemicolon (List.mem_of_getLast? hc)

/-- What is recorded for a statement of imports that is laid out plainly is what its tokens say. -/
theorem IsPlainImport.filterMap_classItems (h : IsPlainImport source (keyword :: used ++ [last]))
    (hat : ∀ t ∈ keyword :: used ++ [last], t.IsAt source) (hkeyword : keyword.isKeyword "use")
    (himports : IsImports used) :
    Naming.IsLegible (textOf source (keyword.span.through last.span)) ∧
      (Naming.classItems (textOf source (keyword.span.through last.span))).filterMap
        Naming.recorded? = Naming.classEntries (used.map Token.sense) := by
  have hlaid : LaidOut source (keyword :: used ++ [last]) := ⟨hat, h.plain, h.spaced⟩
  have hphrase : LaidOut source used := hlaid.of_infix ⟨[keyword], [last], rfl⟩
  obtain ⟨name, rest, rfl, hclass⟩ := himports.exists_name
  have hname := Token.isAnyName_of_isClassName hclass
  have hat' := hphrase.places name List.mem_cons_self
  have hkeeps : Naming.importsNoClasses (Text.trim (laid source (name :: rest))) = false := by
    have hstops : Stops (Text.trimRight (name.after source ++ laid source rest)) :=
      hphrase.stops hname (List.rdropWhile_prefix _ _)
    rw [hphrase.trim_laid hname]
    exact hat'.importsNoClasses_eq hclass hstops
  have hhead : ((name :: rest).map Token.sense).head? ∉
      [some (.name, "function".toList), some (.name, "const".toList)] := by
    have hword := Token.word_of_isClassName hclass (hphrase.plain name List.mem_cons_self).canonical
    have hne : ∀ word : String, (∀ c ∈ word.toList, Lexeme.isNamePart c) →
        word ∈ Parser.reserved → lower word.toList = word.toList →
        some name.sense ≠ some (.name, word.toList) := by
      intro word hpart hreserved hlower he
      have htext : name.text.toList = word.toList :=
        hword.symm.trans (congrArg Prod.snd (Option.some.inj he))
      refine hat'.lower_ne_reserved hclass hpart (by rwa [String.ofList_toList]) ?_
      rw [htext, hlower]
    have hfunction := hne "function" isNamePart_function (by decide) (by decide)
    have hconst := hne "const" isNamePart_const (by decide) (by decide)
    simpa using ⟨fun he => hfunction (congrArg some he), fun he => hconst (congrArg some he)⟩
  obtain ⟨common, pieces, hpieces, hentries⟩ := hphrase.yields_phrase himports
  rw [← h.importBody_eq hat hkeyword himports] at hkeeps hpieces
  refine ⟨Or.inr (Option.isSome_of_eq_some hpieces), ?_⟩
  rw [Naming.filterMap_classItems hkeeps hpieces, hentries, Naming.classEntries, if_neg hhead]

theorem importsNoClasses_of_isImportKind {kind : Token} (h : isImportKind kind) (rest : List Char) :
    Naming.importsNoClasses (kind.text.toList ++ ' ' :: rest) = true := by
  have hspaced : ∀ word : String, kind.isKeyword word →
      (Text.after? (word.toList ++ [' ']) (lower (kind.text.toList ++ ' ' :: rest))).isSome = true := by
    intro word hword
    have hlower : lower (kind.text.toList ++ ' ' :: rest) = word.toList ++ [' '] ++ lower rest := by
      have hchar : lower [' '] = [' '] := by decide
      rw [← List.singleton_append, Text.lower_append, Token.lower_of_isKeyword hword,
        Text.lower_append, hchar, List.append_assoc]
    rw [hlower, Text.after?_append_self, Option.isSome_some]
  rw [Naming.importsNoClasses, show "function ".toList = "function".toList ++ [' '] by decide,
    show "const ".toList = "const".toList ++ [' '] by decide, Bool.or_eq_true]
  exact (Bool.or_eq_true_iff.mp h).imp (hspaced "function") (hspaced "const")

theorem Naming.classEntries_of_isImportKind {kind : Token} (h : isImportKind kind)
    (senses : List Token.Sense) : Naming.classEntries (kind.sense :: senses) = [] := by
  have hsense : kind.sense = (.name, "function".toList) ∨ kind.sense = (.name, "const".toList) :=
    (Bool.or_eq_true_iff.mp h).imp (fun h => Token.sense_of_isKeyword h (by decide))
      fun h => Token.sense_of_isKeyword h (by decide)
  exact if_pos (by simpa using hsense)

theorem isBlank_of_isImportKind {kind : Token} (h : isImportKind kind) :
    ∀ c ∈ kind.text.toList, Text.isBlank c = false := by
  have hletter : ∀ word : String, kind.isKeyword word → (∀ c ∈ word.toList, c.isAlpha) →
      ∀ c ∈ kind.text.toList, Text.isBlank c = false := by
    intro word hword halpha c hc
    by_cases hlower : c.toLower = c
    · refine isBlank_of_isAlpha (halpha c ?_)
      rw [← Token.lower_of_isKeyword hword]
      exact List.mem_map.mpr ⟨c, hc, hlower⟩
    · exact isBlank_of_isAlpha (Text.isAlpha_of_toLower_ne hlower).1
  rcases Bool.or_eq_true_iff.mp h with hfunction | hconst
  · exact hletter "function" hfunction (List.all_eq_true.mp (by decide))
  · exact hletter "const" hconst (List.all_eq_true.mp (by decide))

theorem Token.exists_eq_cons_of_head?_after {kind : Token} {gap text rest : List Char}
    (hspace : (kind.after source).head? = some ' ') (hbehind : kind.behind source = gap ++ (text ++ rest))
    (hne : text ≠ []) (htight : IsTight text) : ∃ gap', gap = ' ' :: gap' := by
  have hhead : (gap ++ (text ++ rest)).head? = some ' ' := by
    obtain ⟨more, hmore⟩ := List.takeWhile_prefix Lexeme.isBlank (l := kind.behind source)
    rw [← hbehind, ← hmore, List.head?_append]
    exact congrArg (Option.or · _) hspace
  cases gap with
  | nil =>
    cases text with
    | nil => exact absurd rfl hne
    | cons c text => exact absurd (htight.first ' ' hhead) (by decide)
  | cons c gap => exact ⟨gap, by rw [Option.some.inj hhead]⟩

theorem IsPlainOther.importsNoClasses {kind name further : Token} {rest : List Token}
    (h : IsPlainOther source (keyword :: kind :: name :: rest)) (hkeyword : keyword.IsAt source)
    (hkind : kind.IsAt source) (hname : name.IsAt source) (hfurther : further.IsAt source)
    (husing : keyword.isKeyword "use") (hother : isImportKind kind) (hclass : Parser.isClassName name)
    (hle : kind.span.stop ≤ name.span.start) (hle' : name.span.stop ≤ further.span.stop) :
    Naming.importsNoClasses
      (Naming.importBody (textOf source (keyword.span.through further.span))) = true := by
  have hany := Token.isAnyName_of_isClassName hclass
  have hnext : keyword.IsNext source kind := (List.isChain_cons_cons.mp h.next).1
  have htight : IsTight name.text.toList := h.name name rfl
  obtain ⟨cs, c, hcs⟩ : ∃ cs c, name.text.toList = cs ++ [c] :=
    ⟨_, _, (List.dropLast_append_getLast (hname.isName hany).1).symm⟩
  have hlast : Text.isBlank c = false := htight.last c (by rw [hcs, List.getLast?_concat]; rfl)
  have hsemicolon : c ≠ ';' := by
    have hnot : ';' ∉ name.text.toList := hname.not_mem hany (by decide) (by decide)
    rintro rfl
    exact hnot (by rw [hcs]; simp)
  obtain ⟨gap, hgap, hstart⟩ := hkind.exists_behind hname hle
  obtain ⟨gap, rfl⟩ := Token.exists_eq_cons_of_head?_after (h.kind kind rfl) hgap
    (hname.isName hany).1 htight
  have hbehind := hnext.behind_eq hkeyword hkind
  have huse : keyword.text.toList = "use".toList := congrArg String.toList (Option.some.inj h.keyword)
  obtain ⟨more, hmore⟩ : keyword.text.toList ++ (keyword.after source ++ (kind.text.toList ++
      (' ' :: gap ++ name.text.toList))) <+: textOf source (keyword.span.through further.span) := by
    refine hkeyword.prefix_textOf ⟨name.behind source, ?_⟩ hfurther ?_
    · rw [hbehind, hgap]
      simp only [List.append_assoc]
    · have hnext' : kind.span.start = keyword.span.stop + _ := hnext
      have hstop := hkeyword.stop
      have hstop' := hkind.stop
      have hstop'' := hname.stop
      simp only [Text.byteLength_append] at hstart ⊢
      omega
  have hne := hnext.after_ne_nil hkeyword hkind
    (Token.kind_of_isKeyword husing) (Token.isAnyName_of_isImportKind hother)
  have hfirst : ∃ d ∈ (kind.text.toList ++ (' ' :: gap ++ cs)).head?, Text.isBlank d = false := by
    obtain ⟨d, ds, hd⟩ := List.exists_cons_of_ne_nil
      (hkind.isName (Token.isAnyName_of_isImportKind hother)).1
    refine ⟨d, by rw [hd]; rfl, isBlank_of_isImportKind hother d ?_⟩
    rw [hd]
    exact List.mem_cons_self
  obtain ⟨behind, hbody⟩ := Naming.exists_importBody_eq (Token.isBlank_of_mem_after source keyword) hne
    hfirst hlast hsemicolon more
  have htext : textOf source (keyword.span.through further.span) = "use".toList ++
      (keyword.after source ++ (kind.text.toList ++ (' ' :: gap ++ cs) ++ c :: more)) := by
    rw [← hmore, huse, hcs]
    simp only [List.append_assoc, List.singleton_append]
  rw [htext, hbody, List.append_assoc, List.cons_append, List.cons_append]
  exact importsNoClasses_of_isImportKind hother _

end

end FactoryLint.Php
