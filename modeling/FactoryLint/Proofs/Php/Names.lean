import FactoryLint.Proofs.Php.Written

namespace FactoryLint.Php

open Text (gap lower IsTight)

theorem not_mem_of_isNamePart {cs : List Char} {sign : Char}
    (hcs : ∀ c ∈ cs, Lexeme.isNamePart c) (hsign : Lexeme.isNamePart sign = false) :
    sign ∉ cs := by
  intro hmem
  rw [hcs sign hmem] at hsign
  cases hsign

theorem isNamePart_toLower (c : Char) : Lexeme.isNamePart c.toLower = Lexeme.isNamePart c := by
  by_cases hlower : c.toLower = c
  · rw [hlower]
  · obtain ⟨hc, hc'⟩ := Text.isAlpha_of_toLower_ne hlower
    rw [Lexeme.isNamePart, Lexeme.isNamePart, Lexeme.isNameStart, Lexeme.isNameStart, hc, hc']
    rfl

/-- No name goes on into the text. -/
def Stops (cs : List Char) : Prop := ∀ c ∈ cs.head?, Lexeme.isNamePart c = false

theorem stops_cons {c : Char} (h : Lexeme.isNamePart c = false) (cs : List Char) :
    Stops (c :: cs) := by
  rintro d ⟨⟩
  exact h

theorem stops_gap {c : Char} (h : Lexeme.isNamePart c = false) (space : Bool) (cs : List Char) :
    Stops (gap space ++ c :: cs) := by
  cases space with
  | false => exact stops_cons h cs
  | true => exact stops_cons (by decide) _

theorem Stops.lower {cs : List Char} (h : Stops cs) : Stops (lower cs) := by
  intro c hc
  rw [Text.lower, List.head?_map] at hc
  obtain ⟨d, hd, rfl⟩ := Option.map_eq_some_iff.mp hc
  rw [isNamePart_toLower, h d hd]

namespace Segment

variable (s : Segment)

theorem isNamePart : ∀ c ∈ s.text, Lexeme.isNamePart c := by
  have hwhole := s.whole
  cases htext : s.text with
  | nil => exact absurd htext s.ne_nil
  | cons c cs =>
    rw [htext, Lexeme.segment, List.length_cons] at hwhole
    split_ifs at hwhole with hstart
    have hlen : (cs.takeWhile Lexeme.isNamePart).length = cs.length := by omega
    have hcs : cs.takeWhile Lexeme.isNamePart = cs :=
      (List.takeWhile_prefix _).eq_of_length hlen
    intro d hd
    rcases List.mem_cons.mp hd with rfl | hd
    · rw [Lexeme.isNamePart, hstart, Bool.true_or]
    · exact List.takeWhile_eq_self_iff.mp hcs d hd

theorem not_mem {sign : Char} (hsign : Lexeme.isNamePart sign = false) : sign ∉ s.text :=
  not_mem_of_isNamePart s.isNamePart hsign

theorem isNamePart_lower : ∀ c ∈ lower s.text, Lexeme.isNamePart c := by
  intro c hc
  obtain ⟨d, hd, rfl⟩ := List.mem_map.mp hc
  rw [isNamePart_toLower, s.isNamePart d hd]

end Segment

namespace QualifiedName

variable (name : QualifiedName)

theorem text_ne_nil : name.text ≠ [] :=
  List.append_ne_nil_of_left_ne_nil name.first.ne_nil _

theorem not_mem_text {sign : Char} (hsign : Lexeme.isNamePart sign = false) (hne : sign ≠ '\\') :
    sign ∉ name.text := by
  intro hmem
  rcases List.mem_append.mp hmem with hmem | hmem
  · exact name.first.not_mem hsign hmem
  · obtain ⟨s, -, hs⟩ := List.mem_flatMap.mp hmem
    exact s.not_mem hsign ((List.mem_cons.mp hs).resolve_left hne)

theorem head?_restText : ∀ c ∈ name.restText.head?, c = '\\' := by
  rintro c hc
  unfold restText at hc
  cases hrest : name.rest with
  | nil =>
    rw [hrest] at hc
    cases hc
  | cons s rest =>
    rw [hrest] at hc
    exact (Option.some.inj hc).symm

theorem takeWhile_text : name.text.takeWhile (· ≠ '\\') = name.first.text := by
  have hfirst : ∀ c ∈ name.first.text, decide (c ≠ '\\') = true := by
    intro c hc
    rw [decide_eq_true_eq]
    rintro rfl
    exact name.first.not_mem (by decide) hc
  have hrest : name.restText.takeWhile (· ≠ '\\') = [] := by
    cases htext : name.restText with
    | nil => rfl
    | cons c cs =>
      have hc := name.head?_restText c (by rw [htext]; rfl)
      exact List.takeWhile_cons_of_neg (by simp [hc])
  rw [text, List.takeWhile_append_of_pos hfirst, hrest, List.append_nil]

theorem head?_text : ∀ c ∈ name.text.head?, c ≠ '\\' := by
  rw [text, List.head?_append_of_ne_nil _ name.first.ne_nil]
  rintro c hc rfl
  exact name.first.not_mem (by decide) (List.mem_of_head? hc)

theorem text_extend (more : List Segment) : (name.extend more).text =
    name.text ++ more.flatMap fun s => '\\' :: s.text := by
  rw [text, text, extend, restText, restText, List.flatMap_append, List.append_assoc]

theorem text_append (inner : QualifiedName) :
    (name.append inner).text = name.text ++ '\\' :: inner.text := by
  rw [append, text_extend, List.flatMap_cons, List.cons_append]
  rfl

theorem text_cases : name.text = name.last.text ∨
    ∃ before, name.text = before ++ '\\' :: name.last.text := by
  rcases List.eq_nil_or_concat name.rest with hrest | ⟨init, s, hrest⟩
  · exact Or.inl (by simp [text, restText, last, hrest])
  · exact Or.inr ⟨name.first.text ++ init.flatMap fun s => '\\' :: s.text,
      by simp [text, restText, last, hrest]⟩

theorem getLast?_text : ∀ c ∈ name.text.getLast?, Lexeme.isNamePart c := by
  have hlast : name.text.getLast? = name.last.text.getLast? := by
    rcases name.text_cases with h | ⟨before, h⟩
    · rw [h]
    · rw [h, List.append_cons, List.getLast?_append_of_ne_nil _ name.last.ne_nil]
  intro c hc
  rw [hlast] at hc
  exact name.last.isNamePart c (List.mem_of_getLast? hc)

theorem afterLast_text : Text.afterLast '\\' name.text = name.last.text := by
  have hlast : '\\' ∉ name.last.text := name.last.not_mem (by decide)
  rcases name.text_cases with h | ⟨before, h⟩
  · rw [h, Text.afterLast_eq_self hlast]
  · rw [h, Text.afterLast_append hlast]

theorem afterLast_append (before : List Char) :
    Text.afterLast '\\' (before ++ '\\' :: name.text) = name.last.text := by
  have hlast : '\\' ∉ name.last.text := name.last.not_mem (by decide)
  rcases name.text_cases with h | ⟨more, h⟩
  · rw [h, Text.afterLast_append hlast]
  · rw [h, ← List.cons_append, ← List.append_assoc, Text.afterLast_append hlast]

theorem last_append (inner : QualifiedName) : (name.append inner).last = inner.last := by
  rw [last, last, append, extend, List.getLast?_append_of_ne_nil _ (List.cons_ne_nil _ _),
    List.getLast?_cons]
  rfl

end QualifiedName

theorem enterSpace_of_mark {middle : List Char} {mark : Char} (hmark : mark = '\x7b' ∨ mark = ';')
    (hmiddle : ∀ c ∈ middle, c ≠ '\x7b' ∧ c ≠ ';') (hfirst : ∀ c ∈ middle.head?, c ≠ 'n')
    (rest : List Char) : Naming.enterSpace ("namespace".toList ++ (middle ++ mark :: rest)) =
      ⟨if (Text.trim middle).isEmpty then none else some (Text.trim middle), []⟩ := by
  have htrim : Text.trimLeft ("namespace".toList ++ (middle ++ mark :: rest)) =
      "namespace".toList ++ (middle ++ mark :: rest) := by
    apply Text.trimLeft_of_first
    rintro c ⟨⟩
    decide
  have hword : Text.dropWord "namespace" ("namespace".toList ++ (middle ++ mark :: rest)) =
      middle ++ mark :: rest := by
    refine Text.dropWord_append_self (Text.after?_eq_none_of_head ?_) (by decide)
    cases middle with
    | nil =>
      rintro c ⟨⟩
      rcases hmark with rfl | rfl <;> decide
    | cons c middle => exact hfirst
  have hname : (middle ++ mark :: rest).takeWhile (fun c => c ≠ '\x7b' && c ≠ ';') = middle := by
    rw [List.takeWhile_append_of_pos, List.takeWhile_cons_of_neg, List.append_nil]
    · rcases hmark with rfl | rfl <;> decide
    · exact fun c hc => by simp [hmiddle c hc]
  rw [Naming.enterSpace, htrim, hword, hname]

theorem enterSpace_of_name {name : QualifiedName} (h : IsTight name.text) {mark : Char}
    (hmark : mark = '\x7b' ∨ mark = ';') (space : Bool) (rest : List Char) :
    Naming.enterSpace ("namespace".toList ++ (' ' :: name.text ++ gap space ++ mark :: rest)) =
      ⟨some name.text, []⟩ := by
  have htrim : Text.trim (' ' :: name.text ++ gap space) = name.text :=
    h.trim_pad (Text.isBlank_of_mem_gap true) (Text.isBlank_of_mem_gap space)
  have hmiddle : ∀ c ∈ ' ' :: name.text ++ gap space, c ≠ '\x7b' ∧ c ≠ ';' := by
    have hsign : ∀ sign, Lexeme.isNamePart sign = false → sign ≠ '\\' → sign ≠ ' ' →
        sign ∉ ' ' :: name.text ++ gap space := by
      intro sign hpart hback hspace
      simp [hspace, name.not_mem_text hpart hback, Text.not_mem_gap hspace]
    intro c hc
    constructor
    · rintro rfl
      exact hsign '\x7b' (by decide) (by decide) (by decide) hc
    · rintro rfl
      exact hsign ';' (by decide) (by decide) (by decide) hc
  have hfirst : ∀ c ∈ (' ' :: name.text ++ gap space).head?, c ≠ 'n' := by
    rintro c ⟨⟩
    decide
  rw [enterSpace_of_mark hmark hmiddle hfirst, htrim,
    List.isEmpty_eq_false_iff.mpr name.text_ne_nil, if_neg Bool.false_ne_true]

theorem NamespaceHead.enterSpace_text {head : NamespaceHead}
    (h : ∀ name ∈ head.name?, IsTight name.text) (rest : List Char) :
    Naming.enterSpace (head.text ++ rest) = ⟨head.name?.map QualifiedName.text, []⟩ := by
  cases head with
  | braced name layout =>
    cases name with
    | none =>
      have htext : (braced none layout).text ++ rest =
          "namespace".toList ++ (gap layout.beforeOpen ++ '\x7b' :: rest) := by
        unfold text
        simp only [afterKeyword, List.append_assoc, List.singleton_append]
      have htrim : Text.trim (gap layout.beforeOpen) = [] := by
        cases layout.beforeOpen <;> rfl
      have hmiddle : ∀ c ∈ gap layout.beforeOpen, c ≠ '\x7b' ∧ c ≠ ';' := by
        cases layout.beforeOpen <;> simp [gap]
      have hfirst : ∀ c ∈ (gap layout.beforeOpen).head?, c ≠ 'n' := by
        cases layout.beforeOpen <;> simp [gap]
      rw [htext, enterSpace_of_mark (Or.inl rfl) hmiddle hfirst, htrim]
      rfl
    | some name =>
      have htext : (braced (some name) layout).text ++ rest =
          "namespace".toList ++ (' ' :: name.text ++ gap layout.beforeOpen ++ '\x7b' :: rest) := by
        unfold text
        simp only [afterKeyword, List.append_assoc, List.singleton_append]
      rw [htext, enterSpace_of_name (h name rfl) (Or.inl rfl)]
      rfl
  | unbraced name layout =>
    have htext : (unbraced name layout).text ++ rest =
        "namespace".toList ++ (' ' :: name.text ++ gap layout.beforeEnd ++ ';' :: rest) := by
      unfold text
      simp only [afterKeyword, List.append_assoc, List.singleton_append]
    rw [htext, enterSpace_of_name (h name rfl) (Or.inr rfl)]
    rfl

end FactoryLint.Php
