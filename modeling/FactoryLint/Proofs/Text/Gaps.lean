import FactoryLint.Php.Token.Lexeme
import FactoryLint.Proofs.Text.Pieces

namespace FactoryLint.Text

variable {cs left right rest word : List Char} {mark sep : Char}

theorem dropWhile_append_cons {p : Char → Bool} (hmark : p mark = false) (cs rest : List Char) :
    (cs ++ mark :: rest).dropWhile p = cs.dropWhile p ++ mark :: rest := by
  induction cs with
  | nil => exact List.dropWhile_cons_of_neg (by simp [hmark])
  | cons c cs ih =>
    rw [List.cons_append, List.dropWhile_cons, List.dropWhile_cons]
    split_ifs
    · exact ih
    · rfl

theorem rdropWhile_append_cons {p : Char → Bool} (hmark : p mark = false) (cs rest : List Char) :
    (cs ++ mark :: rest).rdropWhile p = cs ++ mark :: rest.rdropWhile p := by
  have hreverse : (cs ++ mark :: rest).reverse = rest.reverse ++ mark :: cs.reverse := by simp
  rw [List.rdropWhile, hreverse, dropWhile_append_cons hmark, List.rdropWhile]
  simp

open Php (Lexeme.isBlank)

theorem isBlank_of_lexeme {c : Char} (h : Lexeme.isBlank c) : isBlank c := by
  simp only [Lexeme.isBlank, Bool.or_eq_true, beq_iff_eq] at h
  rcases h with ((((rfl | rfl) | rfl) | rfl) | rfl) | rfl <;> decide

theorem breakAt?_cons {c : Char} (h : after? word (c :: cs) = none) : breakAt? word (c :: cs) =
    (breakAt? word cs).map fun found => (c :: found.1, found.2) := by
  rw [breakAt?, h]

variable {gap phrase : List Char}

/-- A phrase is passed, with the blanks before it, unless it is the word between two spaces. -/
theorem breakAt?_gap (hgap : ∀ c ∈ gap, Lexeme.isBlank c)
    (hphrase : ∀ c ∈ phrase, Lexeme.isBlank c = false) (hrest : ∀ c ∈ rest.head?, Lexeme.isBlank c)
    (hne : ¬(phrase = "as".toList ∧ gap.getLast? = some ' ' ∧ rest.head? = some ' ')) :
    breakAt? " as ".toList (gap ++ phrase ++ rest) =
      (breakAt? " as ".toList rest).map fun found => (gap ++ phrase ++ found.1, found.2) := by
  induction gap with
  | nil =>
    have hspace : ' ' ∉ phrase := fun hmem => absurd (hphrase _ hmem) (by decide)
    exact passes_of_not_mem _ hspace rest
  | cons c gap ih =>
    have hafter : after? " as ".toList (c :: (gap ++ phrase ++ rest)) = none := by
      cases h : after? " as ".toList (c :: (gap ++ phrase ++ rest)) with
      | none => rfl
      | some tail =>
        have hword : " as ".toList = ' ' :: ("as".toList ++ [' ']) := by decide
        have htext := append_of_after? h
        rw [hword, List.cons_append, List.append_assoc] at htext
        obtain ⟨hspace, htail⟩ := List.cons.inj htext
        subst hspace
        cases gap with
        | cons d gap =>
          have hletter : "as".toList.head? = some d := congrArg List.head? htail
          exact absurd (hgap d (by simp)) (by rw [← Option.some.inj hletter]; decide)
        | nil =>
          obtain ⟨hphrase', hrest'⟩ := append_inj_of_stop (p := fun c => !Lexeme.isBlank c)
            (by simpa using hphrase) (by simp [Lexeme.isBlank] : ∀ c ∈ "as".toList, _)
            (by simpa using hrest) (by rintro c ⟨⟩; decide : ∀ c ∈ (' ' :: tail).head?, _) htail.symm
          exact absurd ⟨hphrase', rfl, by rw [hrest']; rfl⟩ hne
    rw [List.cons_append, List.cons_append, breakAt?_cons hafter,
      ih (fun d hd => hgap d (List.mem_cons_of_mem _ hd)), Option.map_map]
    · rfl
    · rintro ⟨h₁, h₂, h₃⟩
      refine hne ⟨h₁, ?_, h₃⟩
      rw [List.getLast?_cons, h₂]
      rfl

end FactoryLint.Text
