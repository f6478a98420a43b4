import FactoryLint.Proofs.Php.ClassLines
import FactoryLint.Proofs.Php.Layout.Declaration
import FactoryLint.Proofs.Php.Layout.Imported
import Mathlib.Data.List.Infix

namespace FactoryLint.Php

open Token (Alike)

/-- The head of a namespace is laid out plainly. Its keyword is in lower case and nothing but blanks
stands between its tokens, the last of which is a brace or a semicolon. -/
structure IsPlainHead (source : List Char) (ts : List Token) : Prop where
  keyword : ts.head?.map (·.text) = some "namespace"
  last : ∀ t ∈ ts.getLast?, t.kind ≠ .closeTag
  canonical : ∀ t ∈ ts, t.kind = .qualifiedName → Token.IsCanonical t.text.toList
  next : ts.IsChain (Token.IsNext source)

instance (source : List Char) (ts : List Token) : Decidable (IsPlainHead source ts) :=
  decidable_of_iff (ts.head?.map (·.text) = some "namespace" ∧
    (∀ t ∈ ts.getLast?, t.kind ≠ .closeTag) ∧
    (∀ t ∈ ts, t.kind = .qualifiedName → Token.IsCanonical t.text.toList) ∧
    ts.IsChain (Token.IsNext source))
    ⟨fun h => ⟨h.1, h.2.1, h.2.2.1, h.2.2.2⟩, fun h => ⟨h.1, h.2, h.3, h.4⟩⟩

/-- The namespace that is entered, by what the tokens behind its keyword say. -/
def spaceOf : List Token.Sense → Option (List Char)
  | [] => none
  | s :: _ =>
    if s.1 ∈ [.name, .qualifiedName] then
      if (Text.trim s.2).isEmpty then none else some (Text.trim s.2)
    else none

theorem Token.isAnyName_of_isSpaceName {t : Token} (h : isSpaceName t) : Parser.isAnyName t := by
  rcases Bool.or_eq_true_iff.mp h with hfree | hqualified
  · exact isAnyName_of_isFreeWord hfree
  · rw [Parser.isAnyName, hqualified, Bool.or_true, Bool.true_or]

theorem Token.sense_of_isSpaceName {t : Token} (h : isSpaceName t)
    (hcanonical : t.kind = .qualifiedName → IsCanonical t.text.toList) :
    t.sense.1 ∈ [TokenKind.name, .qualifiedName] ∧ t.sense.2 = t.text.toList := by
  rw [sense]
  rcases Bool.or_eq_true_iff.mp h with hfree | hqualified
  · have hkind := (lowered_of_isFreeWord hfree).1
    exact ⟨by simp [hkind], word_of_isFreeWord hfree⟩
  · have hkind := beq_iff_eq.mp hqualified
    exact ⟨by simp [hkind], word_of_isCanonical (by simp [hkind]) (hcanonical hkind)⟩

theorem exists_sign_of_isMark {mark : Token} (h : isMark mark) (hkind : mark.kind ≠ .closeTag) :
    ∃ sign, (sign = '\x7b' ∨ sign = ';') ∧ mark.kind = .symbol ∧ mark.text.toList = [sign] := by
  rw [isMark, beq_false_of_ne hkind, Bool.or_false, Bool.or_eq_true] at h
  rcases h with hsign | hsign
  · exact ⟨_, Or.inl rfl, Token.kind_of_isSymbol hsign,
      by rw [Token.text_of_isSymbol hsign]; rfl⟩
  · exact ⟨_, Or.inr rfl, Token.kind_of_isSymbol hsign,
      by rw [Token.text_of_isSymbol hsign]; rfl⟩

section

variable {source : List Char} {keyword mark further : Token} {name : Option Token}

theorem not_mem_head (hat : ∀ n ∈ name, n.IsAt source) (hname : ∀ n ∈ name, isSpaceName n)
    {sign : Char} (hpart : Lexeme.isNamePart sign = false) (hback : sign ≠ '\\')
    (hsign : Lexeme.isBlank sign = false) :
    sign ∉ keyword.after source ++ laid source name.toList := by
  rw [List.mem_append, not_or]
  constructor
  · intro hmem
    exact Bool.false_ne_true (hsign.symm.trans (Token.isBlank_of_mem_after source keyword sign hmem))
  · refine not_mem_laid hsign fun n hn => ?_
    have hn := Option.mem_toList.mp hn
    exact (hat n hn).not_mem (Token.isAnyName_of_isSpaceName (hname n hn)) hpart hback

theorem IsPlainHead.head?_ne (h : IsPlainHead source (keyword :: name.toList ++ [mark]))
    (hat : ∀ t ∈ keyword :: name.toList ++ [mark], t.IsAt source) (hkind : keyword.kind = .name)
    (hname : ∀ n ∈ name, isSpaceName n) :
    ∀ c ∈ (keyword.after source ++ laid source name.toList).head?, c ≠ 'n' := by
  have hblank := Token.isBlank_of_mem_after source keyword
  have hapart : keyword.after source = [] → laid source name.toList = [] := by
    intro hnil
    cases name with
    | none => rfl
    | some n =>
      have hnext := (List.isChain_cons_cons.mp h.next).1
      exact absurd hnil (hnext.after_ne_nil (hat keyword (by simp)) (hat n (by simp)) hkind
        (Token.isAnyName_of_isSpaceName (hname n rfl)))
  rintro c hc rfl
  cases hafter : keyword.after source with
  | nil =>
    rw [hafter, hapart hafter] at hc
    cases hc
  | cons d gap =>
    rw [hafter] at hc hblank
    obtain rfl := Option.some.inj hc
    exact absurd (hblank 'n' List.mem_cons_self) (by decide)

theorem trim_after (source : List Char) (keyword : Token) (text : List Char) {right : List Char}
    (hright : ∀ c ∈ right, Lexeme.isBlank c) :
    Text.trim (keyword.after source ++ text ++ right) = Text.trim text :=
  Text.trim_pad (fun c hc => Text.isBlank_of_lexeme (Token.isBlank_of_mem_after source keyword c hc))
    (fun c hc => Text.isBlank_of_lexeme (hright c hc)) text

theorem IsPlainHead.enterSpace_eq (h : IsPlainHead source (keyword :: name.toList ++ [mark]))
    (hat : ∀ t ∈ keyword :: name.toList ++ [mark], t.IsAt source)
    (hkeyword : keyword.isKeyword "namespace") (hname : ∀ n ∈ name, isSpaceName n)
    (hmark : isMark mark) (hfurther : further.IsAt source)
    (hle : mark.span.stop ≤ further.span.stop) (rest : List Token.Sense) :
    (Naming.enterSpace (textOf source (keyword.span.through further.span))).space =
      spaceOf (name.toList.map Token.sense ++ mark.sense :: rest) := by
  obtain ⟨more, hmore⟩ := Token.prefix_textOf (by rfl : keyword ∈ _) hat h.next hfurther hle
  have huse : keyword.text.toList = "namespace".toList :=
    congrArg String.toList (Option.some.inj h.keyword)
  obtain ⟨sign, hsign, hkind, hsymbol⟩ := exists_sign_of_isMark hmark
    (h.last mark (by rw [List.getLast?_concat]; rfl))
  have hat' : ∀ n ∈ name, n.IsAt source := fun n hn => hat n (by simp [Option.mem_def.mp hn])
  have hmiddle : ∀ c ∈ keyword.after source ++ laid source name.toList, c ≠ '\x7b' ∧ c ≠ ';' := by
    intro c hc
    refine ⟨?_, ?_⟩ <;> rintro rfl <;>
      exact not_mem_head hat' hname (by decide) (by decide) (by decide) hc
  have hfirst := h.head?_ne hat (Token.kind_of_isKeyword hkeyword) hname
  have hspace := enterSpace_of_mark hsign hmiddle hfirst more
  rw [← hmore, laid_cons, huse, hsymbol, List.append_assoc, List.append_assoc, List.singleton_append,
    hspace]
  cases name with
  | none =>
    have htrim := trim_after source keyword [] (List.forall_mem_nil _)
    rw [List.append_nil] at htrim
    rw [Option.toList_none, show laid source [] = [] from rfl, htrim]
    simp [spaceOf, Token.sense, hkind]
    rfl
  | some n =>
    obtain ⟨hkinds, hword⟩ := Token.sense_of_isSpaceName (hname n rfl) (h.canonical n (by simp))
    have htrim := trim_after source keyword n.text.toList (Token.isBlank_of_mem_after source n)
    rw [List.append_assoc] at htrim
    rw [Option.toList_some, laid_singleton, htrim, List.map_singleton, List.singleton_append, spaceOf,
      hword, if_pos hkinds]

end

def upTo (p : Token → Bool) : List Token → List Token
  | [] => []
  | t :: ts => if p t then [t] else t :: upTo p ts

theorem upTo_append {p : Token → Bool} {init : List Token} {last : Token}
    (hinit : ∀ t ∈ init, p t = false) (hlast : p last = true) (rest : List Token) :
    upTo p (init ++ last :: rest) = init ++ [last] := by
  induction init with
  | nil => exact if_pos hlast
  | cons t init ih =>
    obtain ⟨ht, hinit⟩ := List.forall_mem_cons.mp hinit
    rw [List.cons_append, upTo, ht, if_neg Bool.false_ne_true, ih hinit]
    rfl

/-- What the statement at a stop says of names is laid out plainly: its tokens from where its span
starts. -/
def Visited.IsPlain (source : List Char) (tokens : List Token) : Visited → Prop
  | .stmt (.namespaceDecl span _) => ∀ ts ∈ tokens.tails,
    ts.head?.map (·.span.start) = some span.start → IsPlainHead source (upTo isMark ts)
  | .stmt (.useDecl span) => ∀ ts ∈ tokens.tails,
    ts.head?.map (·.span.start) = some span.start → IsPlainUse source (upTo isEnd ts)
  | .stmt (.classDecl _ _ parent _) => ∀ p ∈ parent, Token.IsCanonical p.toList
  | _ => True

instance (source : List Char) (tokens : List Token) : (v : Visited) →
    Decidable (v.IsPlain source tokens)
  | .stmt (.namespaceDecl span _) => inferInstanceAs (Decidable (∀ ts ∈ tokens.tails,
    ts.head?.map (·.span.start) = some span.start → IsPlainHead source (upTo isMark ts)))
  | .stmt (.useDecl span) => inferInstanceAs (Decidable (∀ ts ∈ tokens.tails,
    ts.head?.map (·.span.start) = some span.start → IsPlainUse source (upTo isEnd ts)))
  | .stmt (.classDecl _ _ parent _) =>
    inferInstanceAs (Decidable (∀ p ∈ parent, Token.IsCanonical p.toList))
  | .stmt (.expression ..) | .stmt (.block ..) | .stmt (.ret ..) | .stmt (.control ..)
  | .stmt (.other _) | .expr _ => inferInstanceAs (Decidable True)

def AreAt (source : List Char) (tokens : List Token) : Prop :=
  (∀ t ∈ tokens, t.IsAt source) ∧ tokens.Pairwise fun a b => a.span.stop ≤ b.span.start

theorem isMark_of_isAnyName {t : Token} (h : Parser.isAnyName t) : isMark t = false := by
  rw [Parser.isAnyName] at h
  rw [isMark, Token.isSymbol, Token.isSymbol]
  cases hkind : t.kind <;> simp [hkind] at h ⊢

theorem isEnd_of_isAnyName {t : Token} (h : Parser.isAnyName t) : isEnd t = false := by
  rw [Parser.isAnyName] at h
  rw [isEnd, Token.isSymbol]
  cases hkind : t.kind <;> simp [hkind] at h ⊢

theorem isEnd_of_isSymbol {t : Token} {sign : String} (h : t.isSymbol sign) (hne : sign ≠ ";") :
    isEnd t = false := by
  rw [isEnd, Token.isSymbol, Token.kind_of_isSymbol h, Token.text_of_isSymbol h,
    beq_false_of_ne hne]
  rfl

/-- No token of an import ends the statement. -/
theorem isEnd_of_mem_imports {kind : Option Token} {used : List Token}
    (hkind : ∀ t ∈ kind, isImportKind t) (himports : IsImports used) :
    ∀ t ∈ kind.toList ++ used, isEnd t = false := by
  intro t ht
  rcases List.mem_append.mp ht with hmem | hmem
  · exact isEnd_of_isAnyName
      (Token.isAnyName_of_isImportKind (hkind t (Option.mem_toList.mp hmem)))
  · rcases himports.isAnyName_or t hmem with hname | ⟨sign, hsign, hsymbol⟩
    · exact isEnd_of_isAnyName hname
    · refine isEnd_of_isSymbol hsymbol ?_
      rintro rfl
      exact absurd hsign (by decide)

section

variable {source : List Char} {tokens : List Token} {t : Token} {ts : List Token} {span : Span}

theorem AreAt.stop_le (hat : AreAt source tokens) (hts : t :: ts <:+ tokens) {further : Token}
    (hfurther : further ∈ t :: ts) : t.span.stop ≤ further.span.stop := by
  rcases List.mem_cons.mp hfurther with rfl | hmem
  · exact Nat.le_refl _
  · have hle := (List.pairwise_cons.mp (hat.2.sublist hts.sublist)).1 further hmem
    have hstop := (hat.1 further (hts.subset hfurther)).stop
    omega

theorem IsHead.enterSpace_eq (hat : AreAt source tokens) (hts : t :: ts <:+ tokens)
    (hkeyword : t.isKeyword "namespace") (h : IsHead t ts span)
    (hplain : IsPlainHead source (upTo isMark (t :: ts))) :
    (Naming.enterSpace (textOf source span)).space = spaceOf (ts.map Token.sense) := by
  obtain ⟨name, mark, rest, rfl, hname, hmark, hstart, further, hfurther, hstop⟩ := h
  have hany : ∀ n ∈ t :: name.toList, Parser.isAnyName n :=
    List.forall_mem_cons.mpr ⟨Token.isAnyName_of_isKeyword hkeyword, fun n hn =>
      Token.isAnyName_of_isSpaceName (hname n (Option.mem_toList.mp hn))⟩
  have hupTo := upTo_append (fun n hn => isMark_of_isAnyName (hany n hn)) hmark rest
  rw [List.cons_append] at hupTo
  rw [hupTo] at hplain
  have hspan : span = t.span.through further.span := by
    cases span
    exact congrArg₂ Span.mk hstart hstop
  have hmark' : mark :: rest <:+ tokens :=
    (List.suffix_append (t :: name.toList) (mark :: rest)).trans hts
  have hle := hat.stop_le hmark' hfurther
  have hat' : ∀ t' ∈ t :: name.toList ++ [mark], t'.IsAt source := fun t' ht' =>
    hat.1 t' (hts.subset (by simp at ht' ⊢; tauto))
  rw [hspan, hplain.enterSpace_eq hat' hkeyword hname hmark (hat.1 further (hmark'.subset hfurther))
    hle (rest.map Token.sense), List.map_append, List.map_cons]

theorem IsUse.start_eq {rest : List Token} (h : IsUse t ts rest span) :
    span.start = t.span.start := by
  obtain ⟨-, -, -, -, stop, -, -, -, -, hspan, -, -⟩ := Parser.useFrom_eq_some h.2
  rw [Stmt.useDecl.inj hspan]
  rfl

theorem IsUse.isLegible_and_filterMap (hat : AreAt source tokens) (hts : t :: ts <:+ tokens)
    {rest : List Token} (h : IsUse t ts rest span)
    (hplain : (Visited.stmt (.useDecl span)).IsPlain source tokens) :
    Naming.IsLegible (textOf source span) ∧
      (Naming.classItems (textOf source span)).filterMap Naming.recorded? =
        Naming.classEntries ((ts.takeWhile (!isEnd ·)).map Token.sense) := by
  replace hplain := hplain _ ((List.mem_tails _ _).mpr hts) (congrArg some h.start_eq.symm)
  obtain ⟨hkeyword, huse⟩ := h
  obtain ⟨kind, used, last, more, stop, rfl, hkind, himports, hend, hspan, hstop, hends⟩ :=
    Parser.useFrom_eq_some huse
  have hphrase := isEnd_of_mem_imports hkind himports
  have hfirst : isEnd t = false := isEnd_of_isAnyName (Token.isAnyName_of_isKeyword hkeyword)
  have hupTo := upTo_append (List.forall_mem_cons.mpr ⟨hfirst, hphrase⟩) hend more
  have htake : (kind.toList ++ used ++ last :: more).takeWhile (!isEnd ·) = kind.toList ++ used := by
    rw [List.takeWhile_append_of_pos fun t' ht' => by rw [hphrase t' ht']; rfl,
      List.takeWhile_cons_of_neg (by rw [hend]; exact Bool.false_ne_true), List.append_nil]
  have hsame : span = t.span.through stop := Stmt.useDecl.inj hspan
  obtain ⟨name, imports, rfl, hclass⟩ := himports.exists_name
  rw [List.cons_append] at hupTo
  rw [hupTo] at hplain
  rw [htake]
  cases kind with
  | none =>
    have hother : isImportKind name = false := not_isImportKind_of_isClassName hclass
    replace hplain : IsPlainImport source (t :: (name :: imports) ++ [last]) := by
      rwa [IsPlainUse, if_neg (by simp [hother])] at hplain
    have hat' : ∀ t' ∈ t :: (name :: imports) ++ [last], t'.IsAt source := fun t' ht' =>
      hat.1 t' (hts.subset (by simp at ht' ⊢; tauto))
    rw [hsame, hstop (hplain.last last (by rw [List.getLast?_concat]; rfl))]
    exact hplain.filterMap_classItems hat' hkeyword himports
  | some kind =>
    have hother := hkind kind rfl
    replace hplain : IsPlainOther source (t :: kind :: name :: (imports ++ [last])) := by
      rwa [IsPlainUse, if_pos (by simpa using hother)] at hplain
    replace hts : t :: kind :: name :: (imports ++ last :: more) <:+ tokens := by simpa using hts
    obtain ⟨further, hfurther, hfurtherStop⟩ := hends
    have hsorted := (List.pairwise_cons.mp (hat.2.sublist hts.sublist)).2
    have hle := (List.pairwise_cons.mp hsorted).1 name List.mem_cons_self
    have hname : name :: (imports ++ last :: more) <:+ tokens :=
      ((List.suffix_cons _ _).trans (List.suffix_cons _ _)).trans hts
    have hfurther' : further ∈ name :: (imports ++ last :: more) := by simp at hfurther ⊢; tauto
    have hsame' : span = t.span.through further.span := hsame.trans (congrArg (Span.mk _) hfurtherStop)
    have hmem : ∀ t' ∈ t :: kind :: name :: (imports ++ last :: more), t'.IsAt source := fun t' ht' =>
      hat.1 t' (hts.subset ht')
    have hnone := hplain.importsNoClasses (hmem t (by simp)) (hmem kind (by simp))
      (hmem name (by simp)) (hat.1 further (hname.subset hfurther')) hkeyword hother hclass hle
      (hat.stop_le hname hfurther')
    rw [hsame']
    refine ⟨Or.inl hnone, ?_⟩
    rw [Naming.classItems, if_pos hnone]
    exact (Naming.classEntries_of_isImportKind hother _).symm

end

theorem map_sense_takeWhile {ts ts' : List Token} (h : ts.map Token.sense = ts'.map Token.sense) :
    (ts.takeWhile (!isEnd ·)).map Token.sense = (ts'.takeWhile (!isEnd ·)).map Token.sense := by
  rw [← Token.forall₂_alike_iff] at h ⊢
  have hend : Parser.Respects Alike isEnd := (Parser.Respects.symbol ";").or (.kind .closeTag)
  induction h with
  | nil => exact .nil
  | @cons t t' ts ts' ht _ ih =>
    rw [List.takeWhile_cons, List.takeWhile_cons, hend t t' ht]
    split
    · exact .cons ht ih
    · exact .nil

namespace Naming

theorem foldl_addImport_eq (n : Naming) (items : List (List Char)) :
    items.foldl addImport n = ⟨n.space, (items.filterMap recorded?).reverse ++ n.imports⟩ := by
  induction items generalizing n with
  | nil => rfl
  | cons item items ih =>
    rw [List.foldl_cons, ih, addImport_eq_recorded, List.filterMap_cons]
    cases recorded? item <;> simp

end Naming

section

variable {source source' : List Char} {tokens tokens' : List Token}

theorem SameName.eq {name name' : String} (h : SameName tokens tokens' name name')
    (hname : Token.IsCanonical name.toList) (hname' : Token.IsCanonical name'.toList) :
    name = name' := by
  obtain ⟨t, t', ht, hclass, rfl, rfl⟩ := h
  have hclass' : Parser.isClassName t' := (Parser.Respects.isClassName t t' ht.alike).symm.trans hclass
  refine String.toList_injective ?_
  rw [← Token.word_of_isClassName hclass fun _ => hname, ht.alike.word,
    Token.word_of_isClassName hclass' fun _ => hname']

variable {v v' : Visited}

theorem Visited.IsSilent.classLines_eq (h : v.IsSilent) : v.classLines source = [] := by
  cases v with
  | expr => rfl
  | stmt s =>
    cases s with
    | namespaceDecl | useDecl | classDecl => exact False.elim h
    | expression | block | ret | control | other => rfl

theorem Visited.IsSilent.isLegible (h : v.IsSilent) : v.IsLegible source := by
  cases v with
  | expr => trivial
  | stmt s =>
    cases s with
    | namespaceDecl | useDecl | classDecl => exact False.elim h
    | expression | block | ret | control | other => trivial

/-- The program stops at neither of two stops that are laid out plainly. -/
theorem StopAlike.isLegible (h : StopAlike tokens tokens' v v') (hat : AreAt source tokens)
    (hat' : AreAt source' tokens') (hplain : v.IsPlain source tokens)
    (hplain' : v'.IsPlain source' tokens') : v.IsLegible source ∧ v'.IsLegible source' := by
  cases h with
  | silent h h' => exact ⟨h.isLegible, h'.isLegible⟩
  | enter => exact ⟨trivial, trivial⟩
  | use hts hts' _ huse huse' =>
    exact ⟨(huse.isLegible_and_filterMap hat hts hplain).1,
      (huse'.isLegible_and_filterMap hat' hts' hplain').1⟩
  | declare => exact ⟨trivial, trivial⟩

theorem isLegible_of_alike {vs vs' : List Visited}
    (h : List.Forall₂ (StopAlike tokens tokens') vs vs') (hat : AreAt source tokens)
    (hat' : AreAt source' tokens') (hplain : ∀ v ∈ vs, v.IsPlain source tokens)
    (hplain' : ∀ v ∈ vs', v.IsPlain source' tokens') :
    (∀ v ∈ vs, v.IsLegible source) ∧ ∀ v ∈ vs', v.IsLegible source' := by
  induction h with
  | nil => exact ⟨List.forall_mem_nil _, List.forall_mem_nil _⟩
  | cons hv _ ih =>
    obtain ⟨hfirst, hrest⟩ := List.forall_mem_cons.mp hplain
    obtain ⟨hfirst', hrest'⟩ := List.forall_mem_cons.mp hplain'
    obtain ⟨hlegible, hlegible'⟩ := hv.isLegible hat hat' hfirst hfirst'
    obtain ⟨hall, hall'⟩ := ih hrest hrest'
    exact ⟨List.forall_mem_cons.mpr ⟨hlegible, hall⟩, List.forall_mem_cons.mpr ⟨hlegible', hall'⟩⟩

/-- What two stops say of names makes no difference to how names are resolved behind them. -/
theorem StopAlike.resolve_eq (h : StopAlike tokens tokens' v v') (hat : AreAt source tokens)
    (hat' : AreAt source' tokens') (hplain : v.IsPlain source tokens)
    (hplain' : v'.IsPlain source' tokens') {lines lines' : List ClassLine}
    (hlines : ∀ n : Naming, n.resolve lines = n.resolve lines') (n : Naming) :
    n.resolve (v.classLines source ++ lines) = n.resolve (v'.classLines source' ++ lines') := by
  cases h with
  | silent h h' =>
    rw [h.classLines_eq, h'.classLines_eq]
    exact hlines n
  | @enter t t' ts ts' span span' body body' hts hts' halike hkeyword hhead hhead' =>
    have hkeyword' : t'.isKeyword "namespace" := by
      rw [← (List.forall₂_cons.mp halike).1.isKeyword]
      exact hkeyword
    have hstart : ∀ {t ts span}, IsHead t ts span → (t :: ts).head?.map (·.span.start) =
        some span.start := by
      rintro t ts span ⟨-, -, -, -, -, -, hstart, -⟩
      rw [hstart]
      rfl
    have hspace := hhead.enterSpace_eq hat hts hkeyword
      (hplain _ ((List.mem_tails _ _).mpr hts) (hstart hhead))
    have hspace' := hhead'.enterSpace_eq hat' hts' hkeyword'
      (hplain' _ ((List.mem_tails _ _).mpr hts') (hstart hhead'))
    have hsenses := Token.forall₂_alike_iff.mp (List.forall₂_cons.mp halike).2
    change Naming.resolve ⟨(Naming.enterSpace (textOf source span)).space, []⟩ lines =
      Naming.resolve ⟨(Naming.enterSpace (textOf source' span')).space, []⟩ lines'
    rw [hspace, hspace', hsenses]
    exact hlines _
  | @use t t' ts ts' rest rest' span span' hts hts' halike huse huse' _ =>
    have hitems := (huse.isLegible_and_filterMap hat hts hplain).2
    have hitems' := (huse'.isLegible_and_filterMap hat' hts' hplain').2
    have hsenses := map_sense_takeWhile
      (Token.forall₂_alike_iff.mp (List.forall₂_cons.mp halike).2)
    rw [Visited.classLines, Visited.classLines, Naming.resolve_use, Naming.resolve_use,
      Naming.foldl_addImport_eq, Naming.foldl_addImport_eq, hitems, hitems', hsenses]
    exact hlines _
  | @declare span span' name parent parent' body body' hparent =>
    have hsame : parent = parent' := by
      cases hparent with
      | none => rfl
      | some hp => exact congrArg some (hp.eq (hplain _ rfl) (hplain' _ rfl))
    rw [hsame]
    exact congrArg (List.cons _) (hlines n)

theorem resolve_eq_of_alike {vs vs' : List Visited} (h : List.Forall₂ (StopAlike tokens tokens') vs vs')
    (hat : AreAt source tokens) (hat' : AreAt source' tokens')
    (hplain : ∀ v ∈ vs, v.IsPlain source tokens) (hplain' : ∀ v ∈ vs', v.IsPlain source' tokens')
    (n : Naming) : n.resolve (vs.flatMap (Visited.classLines source)) =
      n.resolve (vs'.flatMap (Visited.classLines source')) := by
  induction h generalizing n with
  | nil => rfl
  | cons hv _ ih =>
    obtain ⟨hfirst, hrest⟩ := List.forall_mem_cons.mp hplain
    obtain ⟨hfirst', hrest'⟩ := List.forall_mem_cons.mp hplain'
    rw [List.flatMap_cons, List.flatMap_cons]
    exact hv.resolve_eq hat hat' hfirst hfirst' (ih hrest hrest') n

end

def Token.senses? (source : String) : Option (List Token.Sense) :=
  (Token.scan? source).map (·.map Token.sense)

namespace Program

def IsPlain (program : Program) (source : String) : Prop :=
  ∀ tokens ∈ Token.scan? source, ∀ v ∈ program.visits entersStatements,
    v.IsPlain source.toList tokens

instance (program : Program) (source : String) : Decidable (program.IsPlain source) :=
  inferInstanceAs (Decidable (∀ tokens ∈ _, ∀ v ∈ _, Visited.IsPlain _ tokens v))

variable {source source' : String}

theorem isSome_parse?_eq (hsenses : Token.senses? source = Token.senses? source') :
    (parse? source).isSome = (parse? source').isSome := by
  rw [Token.senses?, Token.senses?] at hsenses
  rw [parse?, parse?]
  cases hscan : Token.scan? source with
  | none =>
    rw [hscan, Option.map_none, eq_comm, Option.map_eq_none_iff] at hsenses
    rw [hsenses]
  | some tokens =>
    rw [hscan, Option.map_some, eq_comm, Option.map_eq_some_iff] at hsenses
    obtain ⟨tokens', hscan', hsame⟩ := hsenses
    rw [hscan', Option.bind_some, Option.bind_some]
    exact Parser.isSome_eq_of_rel (ofTokens?_alike (Token.forall₂_alike_iff.mpr hsame.symm))

/-- Two sources with the same tokens, where only the case of the keywords and what stands between the
tokens differ, have the same classes with the same parents, if what they say of names is laid out
plainly and no class goes by an alias that is leaked. -/
theorem classNames?_eq_of_senses {program program' : Program}
    (hsenses : Token.senses? source = Token.senses? source') (h : parse? source = some program)
    (h' : parse? source' = some program') (hplain : program.IsPlain source)
    (hplain' : program'.IsPlain source') (havoids : program.AvoidsLeaks source)
    (havoids' : program'.AvoidsLeaks source') :
    ∃ names, program.classNames? source = some names ∧
      program'.classNames? source' = some names := by
  obtain ⟨tokens, hscan, hprogram⟩ := Option.bind_eq_some_iff.mp h
  obtain ⟨tokens', hscan', hprogram'⟩ := Option.bind_eq_some_iff.mp h'
  rw [Token.senses?, Token.senses?, hscan, hscan'] at hsenses
  have halike := Token.forall₂_alike_iff.mpr (Option.some.inj hsenses)
  have hrel := ofTokens?_alike halike
  rw [hprogram, hprogram'] at hrel
  cases hrel with
  | some hvisits =>
    have hat := Token.scan?_isAt hscan
    have hat' := Token.scan?_isAt hscan'
    obtain ⟨hlegible, hlegible'⟩ :=
      isLegible_of_alike hvisits hat hat' (hplain tokens hscan) (hplain' tokens' hscan')
    refine ⟨_, classNames?_eq_resolve hlegible havoids, ?_⟩
    rw [classNames?_eq_resolve hlegible' havoids']
    exact congrArg some (resolve_eq_of_alike hvisits hat hat' (hplain tokens hscan)
      (hplain' tokens' hscan') Naming.initial).symm

def packedSource : String :=
  "<?php namespace A;use L\\\x7bB,C as D\x7d;class E extends D \x7b\x7d"

def spreadSource : String :=
  "<?php\nnamespace A\n;\nuse\tL\\ \x7b B,\n C AS D\x7d;\nclass E\nextends /* L */ D\n\x7b\x7d"

theorem classNames?_eq_of_senses_spread : ∃ program program' names,
    parse? packedSource = some program ∧ parse? spreadSource = some program' ∧
    program.classNames? packedSource = some names ∧
    program'.classNames? spreadSource = some names := by
  have hsenses : Token.senses? packedSource = Token.senses? spreadSource := by decide +kernel
  have hpacked : (parse? packedSource).isSome ∧ ∀ program ∈ parse? packedSource,
      program.IsPlain packedSource ∧ program.AvoidsLeaks packedSource := by decide +kernel
  have hspread : (parse? spreadSource).isSome ∧ ∀ program ∈ parse? spreadSource,
      program.IsPlain spreadSource ∧ program.AvoidsLeaks spreadSource := by decide +kernel
  obtain ⟨program, h⟩ := Option.isSome_iff_exists.mp hpacked.1
  obtain ⟨program', h'⟩ := Option.isSome_iff_exists.mp hspread.1
  obtain ⟨names, hnames⟩ := classNames?_eq_of_senses hsenses h h' (hpacked.2 program h).1
    (hspread.2 program' h').1 (hpacked.2 program h).2 (hspread.2 program' h').2
  exact ⟨program, program', names, h, h', hnames⟩

end Program

end FactoryLint.Php
