import FactoryLint.Proofs.Text.Pieces

namespace FactoryLint.Text

variable {mark : Char} {left right : List Char}

theorem breakAt?_append_cons (h : mark ∉ left) (right : List Char) :
    breakAt? [mark] (left ++ mark :: right) = some (left, right) := by
  have hself : breakAt? [mark] (mark :: right) = some ([], right) :=
    breakAt?_append_self [mark] right
  rw [passes_of_not_mem _ h, hself, Option.map_some, List.append_nil]

theorem beforeLast?_append_cons (left : List Char) (h : mark ∉ right) :
    beforeLast? mark (left ++ mark :: right) = some left := by
  have hpass : right.reverse.all (· ≠ mark) := by
    simpa using fun c hc => ne_of_mem_of_not_mem hc h
  rw [beforeLast?, List.reverse_append, List.reverse_cons, List.append_assoc,
    List.singleton_append, List.dropWhile_append_of_pos (List.all_eq_true.mp hpass),
    List.dropWhile_cons_of_neg (by simp)]
  exact congrArg some (List.reverse_reverse left)

theorem beforeLast?_eq_none (h : mark ∉ left) : beforeLast? mark left = none := by
  have hnil : left.reverse.dropWhile (· ≠ mark) = [] :=
    List.dropWhile_eq_nil_iff.mpr fun c hc => by
      simpa using ne_of_mem_of_not_mem (List.mem_reverse.mp hc) h
  rw [beforeLast?, hnil]

theorem exists_eq_append_cons_last (h : mark ∈ left) :
    ∃ before after, left = before ++ mark :: after ∧ mark ∉ after := by
  obtain ⟨after, before, hreverse, hnot⟩ :=
    List.eq_append_cons_of_mem (List.mem_reverse.mpr h)
  refine ⟨before.reverse, after.reverse, ?_, fun hmem => hnot (List.mem_reverse.mp hmem)⟩
  rw [← List.reverse_reverse left, hreverse]
  simp

end FactoryLint.Text

namespace FactoryLint.Php.Naming

variable {body text : List Char}

theorem importPieces?_list (h : '\x7b' ∉ body) :
    importPieces? body = some ([], (Text.splitAt ',' body).map Text.trim) := by
  rw [importPieces?, Text.breakAt?_eq_none h]

theorem importPieces?_group {common : List Char} (h : '\x7b' ∉ common) (inner : List Char) :
    importPieces? (common ++ '\x7b' :: (inner ++ ['\x7d'])) =
      some (groupPrefix (Text.trim common),
        ((Text.splitAt ',' inner).map Text.trim).filter (!·.isEmpty)) := by
  have hclose : Text.beforeLast? '\x7d' (common ++ '\x7b' :: (inner ++ ['\x7d'])) =
      some (common ++ '\x7b' :: inner) := by
    rw [← List.cons_append, ← List.append_assoc, Text.beforeLast?_concat]
  have hlength : (common ++ '\x7b' :: inner).length = common.length + 1 + inner.length := by
    rw [List.length_append, List.length_cons]
    omega
  have htake : (inner ++ ['\x7d']).take ((common ++ '\x7b' :: inner).length -
      (common.length + 1)) = inner := List.take_left' (by omega)
  rw [importPieces?, Text.breakAt?_append_cons h, hclose]
  dsimp only
  rw [if_neg (by omega), htake]

/-- The last closing brace stands before the first opening one. -/
def BracesCross (body : List Char) : Prop :=
  ∃ left middle right, body = left ++ '\x7d' :: (middle ++ '\x7b' :: right) ∧
    '\x7b' ∉ left ∧ '\x7b' ∉ middle ∧ '\x7d' ∉ middle ∧ '\x7d' ∉ right

/-- A list of imports that the program stops at is one with crossed braces. -/
theorem importPieces?_eq_none_iff : importPieces? body = none ↔ BracesCross body := by
  constructor
  · intro hnone
    by_cases hopen : '\x7b' ∈ body
    · by_cases hclose : '\x7d' ∈ body
      · obtain ⟨before, inner, hbody, hbefore⟩ := List.eq_append_cons_of_mem hopen
        obtain ⟨upToLast, after, hbody', hafter⟩ := Text.exists_eq_append_cons_last hclose
        have hlast : Text.beforeLast? '\x7d' body = some upToLast := by
          rw [hbody']
          exact Text.beforeLast?_append_cons upToLast hafter
        have hfirst : Text.breakAt? ['\x7b'] body = some (before, inner) := by
          rw [hbody]
          exact Text.breakAt?_append_cons hbefore inner
        rw [importPieces?, hfirst, hlast] at hnone
        dsimp only at hnone
        split_ifs at hnone with hlt
        rcases List.append_eq_append_iff.mp (hbody'.symm.trans hbody) with
          ⟨between, hbetween, hrest⟩ | ⟨between, hbetween, -⟩
        · obtain ⟨mark, middle, rfl⟩ := List.exists_cons_of_ne_nil (l := between) (by
            rintro rfl
            rw [hbetween, List.append_nil] at hlt
            exact Nat.lt_irrefl _ hlt)
          obtain ⟨rfl, rfl⟩ := List.cons.inj hrest
          rw [hbetween] at hbefore
          refine ⟨upToLast, middle, inner, hbody', ?_, ?_, ?_, ?_⟩ <;> simp_all
        · rw [hbetween, List.length_append] at hlt
          omega
      · rw [importPieces?, Text.beforeLast?_eq_none hclose] at hnone
        split at hnone <;> simp_all
    · rw [importPieces?_list hopen] at hnone
      cases hnone
  · rintro ⟨left, middle, right, rfl, hleft, hmiddle, hmiddle', hright⟩
    have hopen : '\x7b' ∉ left ++ '\x7d' :: middle := by simp [hleft, hmiddle]
    have hclose : '\x7d' ∉ middle ++ '\x7b' :: right := by simp [hmiddle', hright]
    have hfirst := Text.breakAt?_append_cons hopen right
    rw [List.append_assoc, List.cons_append] at hfirst
    rw [importPieces?, hfirst, Text.beforeLast?_append_cons left hclose]
    dsimp only
    rw [if_pos (by simp)]

/-- The program does not stop at the statement of imports. -/
def IsLegible (text : List Char) : Prop :=
  importsNoClasses (importBody text) ∨ (importPieces? (importBody text)).isSome

instance (text : List Char) : Decidable (IsLegible text) :=
  inferInstanceAs (Decidable (_ ∨ _))

theorem isLegible_iff : IsLegible text ↔
    importsNoClasses (importBody text) ∨ ¬BracesCross (importBody text) := by
  rw [IsLegible, ← importPieces?_eq_none_iff, Option.isSome_iff_ne_none]

example : ¬IsLegible "use Foo /* \x7d \x7b */;".toList := by decide

theorem isSome_addImports?_iff (n : Naming) (text : List Char) :
    (n.addImports? text).isSome ↔ IsLegible text := by
  rw [addImports?, IsLegible, importItems?]
  dsimp only
  split_ifs with hother <;> simp [hother]

end FactoryLint.Php.Naming
