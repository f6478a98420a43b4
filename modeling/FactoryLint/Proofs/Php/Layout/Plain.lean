import FactoryLint.Proofs.Php.Layout.Laid
import FactoryLint.Proofs.Php.Layout.Written
import FactoryLint.Proofs.Php.Recorded

namespace FactoryLint.Php

open Text (lower IsTight)

namespace Token

/-- A name has no white space at its ends, which is a letter to the language beyond ASCII, and
`namespace` is not written with capitals in front of one. -/
structure IsPlain (t : Token) : Prop where
  tight : Parser.isAnyName t → IsTight t.text.toList
  canonical : t.kind = .qualifiedName → IsCanonical t.text.toList

instance (t : Token) : Decidable t.IsPlain :=
  decidable_of_iff ((Parser.isAnyName t → IsTight t.text.toList) ∧
    (t.kind = .qualifiedName → IsCanonical t.text.toList)) ⟨fun h => ⟨h.1, h.2⟩, fun h => ⟨h.1, h.2⟩⟩

/-- Nothing but blanks stands between two tokens: nothing at all before the backslash of a group, and
a space on either side of `as`. -/
structure IsSpaced (source : List Char) (a b : Token) : Prop where
  next : a.IsNext source b
  before : b.isKeyword "as" → (a.after source).getLast? = some ' '
  behind : a.isKeyword "as" → (a.after source).head? = some ' '
  joined : b.isSymbol "\\" → a.after source = []

instance (source : List Char) (a b : Token) : Decidable (a.IsSpaced source b) :=
  decidable_of_iff (a.IsNext source b ∧ (b.isKeyword "as" → (a.after source).getLast? = some ' ') ∧
    (a.isKeyword "as" → (a.after source).head? = some ' ') ∧
    (b.isSymbol "\\" → a.after source = []))
    ⟨fun h => ⟨h.1, h.2.1, h.2.2.1, h.2.2.2⟩, fun h => ⟨h.1, h.2, h.3, h.4⟩⟩

end Token

/-- Tokens of a source that are laid out plainly. -/
structure LaidOut (source : List Char) (ts : List Token) : Prop where
  places : ∀ t ∈ ts, t.IsAt source
  plain : ∀ t ∈ ts, t.IsPlain
  spaced : ts.IsChain (Token.IsSpaced source)

variable {source : List Char} {ts ts' : List Token}

theorem LaidOut.of_infix (h : LaidOut source ts) (hsub : ts' <:+: ts) : LaidOut source ts' :=
  ⟨fun t ht => h.places t (hsub.subset ht), fun t ht => h.plain t (hsub.subset ht),
    h.spaced.infix hsub⟩

namespace Token

variable {t : Token}

theorem text_of_isSymbol {text : String} (h : t.isSymbol text) : t.text = text :=
  beq_iff_eq.mp (Bool.and_eq_true_iff.mp h).2

theorem word_of_isSymbol {text : String} (h : t.isSymbol text) : t.word = text.toList := by
  rw [word, kind_of_isSymbol h, text_of_isSymbol h]

theorem lower_of_isKeyword {word : String} (h : t.isKeyword word) :
    lower t.text.toList = word.toList := by
  rw [← lowered_of_isKeyword h, lowered, String.toList_ofList]
  rfl

theorem sense_of_isKeyword {word : String} (h : t.isKeyword word) (hloose : word ∈ looseWords) :
    t.sense = (.name, word.toList) := by
  have hkind := kind_of_isKeyword h
  refine Prod.ext hkind ?_
  rw [sense, Token.word, hkind]
  exact (if_pos (lowered_of_isKeyword h ▸ hloose)).trans (lower_of_isKeyword h)

theorem IsAt.isName (h : t.IsAt source) (hname : Parser.isAnyName t) :
    t.text.toList ≠ [] ∧ Lexeme.IsName t.text.toList := by
  have hfits := h.fits
  have hne : ∀ cs : List Char, Lexeme.HasName cs → cs ≠ [] := by
    rintro cs ⟨c, hc, -⟩ rfl
    cases hc
  cases hkind : t.kind with
  | name =>
    rw [hkind] at hfits
    exact ⟨hne _ hfits.1, fun c hc => Or.inl (hfits.2.1 c hc)⟩
  | qualifiedName =>
    rw [hkind] at hfits
    exact ⟨hne _ hfits.1, hfits.2.1⟩
  | absoluteName =>
    rw [hkind] at hfits
    obtain ⟨⟨cs, hcs, -⟩, hname, -⟩ := hfits
    exact ⟨by simp [hcs], hname⟩
  | _ => simp [Parser.isAnyName, hkind] at hname

theorem kind_ne_symbol_of_isAnyName (h : Parser.isAnyName t) : t.kind ≠ .symbol := by
  intro hkind
  rw [Parser.isAnyName, hkind] at h
  cases h

theorem isAnyName_of_isKeyword {word : String} (h : t.isKeyword word) : Parser.isAnyName t := by
  rw [Parser.isAnyName, kind_of_isKeyword h]
  rfl

theorem isAnyName_of_isFreeWord (h : Parser.isFreeWord t) : Parser.isAnyName t := by
  rw [Parser.isAnyName, (lowered_of_isFreeWord h).1]
  rfl

theorem isAnyName_of_isClassName (h : Parser.isClassName t) : Parser.isAnyName t := by
  simp only [Parser.isClassName, Parser.isFreeWord, Parser.isWord, Bool.or_eq_true,
    Bool.and_eq_true] at h
  simp only [Parser.isAnyName, Bool.or_eq_true]
  exact h.imp_left (Or.imp_left And.left)

theorem word_of_isClassName (hclass : Parser.isClassName t)
    (h : t.kind = .qualifiedName → IsCanonical t.text.toList) : t.word = t.text.toList := by
  simp only [Parser.isClassName, Bool.or_eq_true, beq_iff_eq] at hclass
  rcases hclass with (hfree | hkind) | hkind
  · exact word_of_isFreeWord hfree
  · exact word_of_isCanonical (by simp [hkind]) (h hkind)
  · rw [word, hkind]

theorem IsAt.isName_lower (h : t.IsAt source) (hname : Parser.isAnyName t) :
    Lexeme.IsName (lower t.text.toList) := by
  intro c hc
  obtain ⟨d, hd, rfl⟩ := List.mem_map.mp hc
  rcases (h.isName hname).2 d hd with hpart | rfl
  · exact Or.inl (by rwa [isNamePart_toLower])
  · exact Or.inr (by decide)

theorem IsAt.lower_ne_reserved (h : t.IsAt source) (hclass : Parser.isClassName t)
    {word : List Char} (hword : ∀ c ∈ word, Lexeme.isNamePart c)
    (hreserved : String.ofList word ∈ Parser.reserved) : lower t.text.toList ≠ word := by
  rintro rfl
  have hback : '\\' ∉ t.text.toList := by
    intro hmem
    have hback : '\\' ∈ lower t.text.toList := List.mem_map.mpr ⟨'\\', hmem, by decide⟩
    exact absurd (hword _ hback) (by decide)
  have hfits := h.fits
  simp only [Parser.isClassName, Bool.or_eq_true, beq_iff_eq] at hclass
  rcases hclass with (hfree | hkind) | hkind
  · exact (lowered_of_isFreeWord hfree).2 hreserved
  · rw [hkind] at hfits
    exact hback hfits.2.2.1
  · rw [hkind] at hfits
    obtain ⟨⟨cs, hcs, -⟩, -⟩ := hfits
    rw [hcs] at hback
    exact hback List.mem_cons_self

theorem IsAt.lower_append_ne (h : t.IsAt source) (hclass : Parser.isClassName t) {word : List Char}
    (hword : ∀ c ∈ word, Lexeme.isNamePart c) (hreserved : String.ofList word ∈ Parser.reserved)
    {rest behind : List Char} (hrest : Stops rest) (hstops : Stops behind)
    (hback : ∀ c ∈ behind.head?, c ≠ '\\') : lower (t.text.toList ++ rest) ≠ word ++ behind := by
  intro he
  have hname := h.isName_lower (isAnyName_of_isClassName hclass)
  have hne := h.lower_ne_reserved hclass hword hreserved
  rw [Text.lower_append] at he
  generalize lower t.text.toList = name at he hname hne
  obtain ⟨segment, more, rfl, hsegment, hmore⟩ : ∃ segment more, name = segment ++ more ∧
      (∀ c ∈ segment, Lexeme.isNamePart c) ∧ Stops more := by
    refine ⟨name.takeWhile Lexeme.isNamePart, name.dropWhile Lexeme.isNamePart,
      List.takeWhile_append_dropWhile.symm, fun c hc => List.mem_takeWhile_imp hc, fun c hc => ?_⟩
    have hnot := List.head?_dropWhile_not Lexeme.isNamePart name
    rw [hc] at hnot
    exact hnot
  cases more with
  | nil =>
    rw [List.append_nil] at he hne
    exact hne (Text.append_inj_of_stop hsegment hword hrest.lower hstops he).1
  | cons c more =>
    rw [List.append_assoc] at he
    have hmore' : Stops (c :: more ++ lower rest) := hmore
    obtain ⟨-, hbehind⟩ := Text.append_inj_of_stop hsegment hword hmore' hstops he
    rcases hname c (List.mem_append_right _ List.mem_cons_self) with hpart | rfl
    · exact Bool.false_ne_true ((hmore c rfl).symm.trans hpart)
    · exact hback '\\' (by rw [← hbehind]; rfl) rfl

end Token

end FactoryLint.Php
