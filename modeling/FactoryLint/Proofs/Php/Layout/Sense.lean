import FactoryLint.Php.Parser.Expr
import FactoryLint.Proofs.Text.Pieces
import Mathlib.Data.List.Forall2

namespace FactoryLint.Php

open Text (lower)

namespace Token

def looseWords : List String := ["namespace", "use", "as", "function", "const"]

/-- The text of a token, with the keywords that may be written in any case in lower case. -/
def word (t : Token) : List Char :=
  match t.kind with
  | .name => if t.lowered ∈ looseWords then lower t.text.toList else t.text.toList
  | .qualifiedName =>
    if lower (t.text.toList.takeWhile (· ≠ '\\')) = "namespace".toList then
      "namespace".toList ++ t.text.toList.dropWhile (· ≠ '\\')
    else t.text.toList
  | _ => t.text.toList

theorem lower_word (t : Token) : lower t.word = lower t.text.toList := by
  rw [word]
  split
  · split_ifs with hloose
    · have hfix : ∀ w ∈ looseWords, lower w.toList = w.toList := by decide
      have hlower : lower t.text.toList = t.lowered.toList := String.toList_ofList.symm
      rw [hlower, hfix _ hloose]
    · rfl
  · split_ifs with hkeyword
    · have hfix : lower "namespace".toList = "namespace".toList := by decide
      conv_rhs => rw [← List.takeWhile_append_dropWhile (p := (· ≠ '\\')) (l := t.text.toList)]
      rw [Text.lower_append, Text.lower_append, hfix, hkeyword]
    · rfl
  · rfl

/-- Where `namespace` stands in front of a name it has no capitals. -/
def IsCanonical (name : List Char) : Prop :=
  lower (name.takeWhile (· ≠ '\\')) = "namespace".toList →
    name.takeWhile (· ≠ '\\') = "namespace".toList

instance (name : List Char) : Decidable (IsCanonical name) := inferInstanceAs (Decidable (_ → _))

theorem word_of_isCanonical {t : Token} (h : t.kind ≠ .name) (hcanonical : IsCanonical t.text.toList) :
    t.word = t.text.toList := by
  rw [word]
  split
  · exact absurd ‹_› h
  · split_ifs with hkeyword
    · conv_rhs => rw [← List.takeWhile_append_dropWhile (p := (· ≠ '\\')) (l := t.text.toList)]
      rw [hcanonical hkeyword]
    · rfl
  · rfl

theorem kind_of_isSymbol {t : Token} {text : String} (h : t.isSymbol text) : t.kind = .symbol :=
  beq_iff_eq.mp (Bool.and_eq_true_iff.mp h).1

theorem kind_of_isKeyword {t : Token} {keyword : String} (h : t.isKeyword keyword) :
    t.kind = .name :=
  beq_iff_eq.mp (Bool.and_eq_true_iff.mp h).1

theorem lowered_of_isKeyword {t : Token} {keyword : String} (h : t.isKeyword keyword) :
    t.lowered = keyword :=
  beq_iff_eq.mp (Bool.and_eq_true_iff.mp h).2

theorem lowered_of_isFreeWord {t : Token} (h : Parser.isFreeWord t) : t.kind = .name ∧
    t.lowered ∉ Parser.reserved := by
  simpa [Parser.isFreeWord, Parser.isWord] using h

theorem word_of_isFreeWord {t : Token} (h : Parser.isFreeWord t) : t.word = t.text.toList := by
  obtain ⟨hkind, hreserved⟩ := lowered_of_isFreeWord h
  have hloose : ∀ w ∈ looseWords, w ∈ Parser.reserved := by decide
  rw [word, hkind]
  exact if_neg fun hmem => hreserved (hloose _ hmem)

abbrev Sense := TokenKind × List Char

def sense (t : Token) : Sense := (t.kind, t.word)

/-- The tokens say the same. -/
structure Alike (t t' : Token) : Prop where
  kind : t.kind = t'.kind
  word : t.word = t'.word

namespace Alike

variable {t t' : Token}

theorem lowered (h : t.Alike t') : t.lowered = t'.lowered := by
  have hlower := congrArg lower h.word
  rw [lower_word, lower_word] at hlower
  exact congrArg String.ofList hlower

theorem text (h : t.Alike t') (hkind : t.kind ≠ .qualifiedName)
    (hloose : t.kind = .name → t.lowered ∉ looseWords) : t.text = t'.text := by
  have hplain : ∀ t : Token, t.kind ≠ .qualifiedName →
      (t.kind = .name → t.lowered ∉ looseWords) → t.word = t.text.toList := by
    intro t hkind hloose
    rw [Token.word]
    split
    · rename_i hname
      rw [if_neg (hloose hname)]
    · rename_i hname
      exact absurd hname hkind
    · rfl
  have hword := h.word
  rw [hplain t hkind hloose, hplain t' (h.kind ▸ hkind) (h.kind ▸ h.lowered ▸ hloose)] at hword
  exact String.toList_injective hword

theorem isSymbol (h : t.Alike t') (text : String) : t.isSymbol text = t'.isSymbol text := by
  rw [Token.isSymbol, Token.isSymbol, ← h.kind]
  by_cases hkind : t.kind = .symbol
  · rw [h.text (by simp [hkind]) (by simp [hkind])]
  · rw [beq_false_of_ne hkind, Bool.false_and, Bool.false_and]

theorem isKeyword (h : t.Alike t') (word : String) : t.isKeyword word = t'.isKeyword word := by
  rw [Token.isKeyword, Token.isKeyword, h.kind, h.lowered]

end Alike

theorem alike_iff {t t' : Token} : t.Alike t' ↔ t.sense = t'.sense :=
  ⟨fun h => Prod.ext h.kind h.word, fun h => ⟨congrArg Prod.fst h, congrArg Prod.snd h⟩⟩

theorem forall₂_alike_iff {ts ts' : List Token} :
    List.Forall₂ Alike ts ts' ↔ ts.map sense = ts'.map sense := by
  rw [← List.forall₂_eq_eq_eq, List.forall₂_map_left_iff, List.forall₂_map_right_iff]
  exact ⟨fun h => h.imp fun _ _ => alike_iff.mp, fun h => h.imp fun _ _ => alike_iff.mpr⟩

end Token

end FactoryLint.Php
