import FactoryLint.Php.Token.Lexeme
import FactoryLint.Proofs.Php.Declared

namespace FactoryLint.Php

namespace Naming

def leadsWith (word : String) (piece : List Char) : Bool :=
  (Text.after? word.toList (Text.lower piece)).any fun rest =>
    !rest.head?.any fun c => Lexeme.isNamePart c || c == '\\'

def importsNoClass (piece : List Char) : Bool :=
  leadsWith "function" piece || leadsWith "const" piece

/-- The imports of a statement that import classes, each with what its group has in common. -/
def classItems (text : List Char) : List (List Char) :=
  if importsNoClasses (importBody text) then []
  else
    match importPieces? (importBody text) with
    | none => []
    | some (common, pieces) => (pieces.filter (!importsNoClass ·)).map (common ++ ·)

def recorded? (item : List Char) : Option (List Char × List Char) :=
  if (importParts item).1.isEmpty || (importParts item).2.isEmpty then none
  else some (Text.lower (importParts item).2, (importParts item).1.dropWhile (· = '\\'))

theorem addImport_eq_recorded (n : Naming) (item : List Char) :
    n.addImport item = ⟨n.space, (recorded? item).toList ++ n.imports⟩ := by
  rw [addImport, recorded?]
  simp only
  split_ifs <;> rfl

/-- The aliases under which functions and constants are entered among the classes. -/
def leaked (text : List Char) : List (List Char) :=
  if importsNoClasses (importBody text) then []
  else
    match importPieces? (importBody text) with
    | none => []
    | some (common, pieces) =>
      ((pieces.filter importsNoClass).filterMap fun piece => recorded? (common ++ piece)).map Prod.fst

/-- Both say the same of all names but those that begin with one of some aliases. -/
structure Agree (left : List (List Char)) (n m : Naming) : Prop where
  space : n.space = m.space
  imports : ∀ key ∉ left, n.imports.lookup key = m.imports.lookup key

def Avoids (left : List (List Char)) (name : List Char) : Prop :=
  Text.lower ((Text.trim name).takeWhile (· ≠ '\\')) ∉ left

instance (left : List (List Char)) (name : List Char) : Decidable (Avoids left name) :=
  inferInstanceAs (Decidable (_ ∉ _))

variable {left : List (List Char)} {n m : Naming}

theorem Agree.refl (left : List (List Char)) (n : Naming) : Agree left n n :=
  ⟨rfl, fun _ _ => rfl⟩

theorem Agree.weaken {more : List (List Char)} (h : Agree left n m) (hsub : left ⊆ more) :
    Agree more n m :=
  ⟨h.space, fun key hkey => h.imports key fun hmem => hkey (hsub hmem)⟩

theorem Agree.addImport (h : Agree left n m) (item : List Char) :
    Agree left (n.addImport item) (m.addImport item) := by
  rw [addImport_eq_recorded, addImport_eq_recorded]
  refine ⟨h.space, fun key hkey => ?_⟩
  rw [List.lookup_append, List.lookup_append, h.imports key hkey]

theorem Agree.addImport_left (h : Agree left n m) {item : List Char}
    (hitem : ∀ entry ∈ recorded? item, entry.1 ∈ left) : Agree left (n.addImport item) m := by
  rw [addImport_eq_recorded]
  refine ⟨h.space, fun key hkey => ?_⟩
  cases hentry : recorded? item with
  | none => exact h.imports key hkey
  | some entry =>
    have hne : key ≠ entry.1 := fun he => hkey (he ▸ hitem entry hentry)
    rw [← h.imports key hkey]
    rw [Option.toList_some, List.singleton_append, List.lookup_cons, beq_false_of_ne hne]

theorem Agree.qualify (h : Agree left n m) {name : List Char} (hname : Avoids left name) :
    n.qualify name = m.qualify name := by
  have hspace : ∀ name, n.inSpace name = m.inSpace name := fun name => by
    rw [inSpace, inSpace, h.space]
  simp only [Naming.qualify, hspace, h.imports _ hname]

theorem Agree.foldl_addImport (common : List Char) (pieces : List (List Char)) (h : Agree left n m)
    (hleft : ∀ piece ∈ pieces.filter importsNoClass,
      ∀ entry ∈ recorded? (common ++ piece), entry.1 ∈ left) :
    Agree left ((pieces.map (common ++ ·)).foldl Naming.addImport n)
      (((pieces.filter (!importsNoClass ·)).map (common ++ ·)).foldl Naming.addImport m) := by
  induction pieces generalizing n m with
  | nil => exact h
  | cons piece pieces ih =>
    rw [List.map_cons, List.foldl_cons]
    cases hpiece : importsNoClass piece with
    | false =>
      rw [List.filter_cons_of_pos (by simp [hpiece]), List.map_cons, List.foldl_cons]
      rw [List.filter_cons_of_neg (by simp [hpiece])] at hleft
      exact ih (h.addImport _) hleft
    | true =>
      rw [List.filter_cons_of_neg (by simp [hpiece])]
      rw [List.filter_cons_of_pos hpiece] at hleft
      have hentry := hleft piece List.mem_cons_self
      exact ih (h.addImport_left hentry) fun p hp => hleft p (List.mem_cons_of_mem _ hp)

/-- A statement makes its imports of classes, and no others count but under the aliases that it
leaks. -/
theorem Agree.addImports? (h : Agree left n m) {text : List Char} {n' : Naming}
    (hadd : n.addImports? text = some n') (hleaked : leaked text ⊆ left) :
    Agree left n' ((classItems text).foldl Naming.addImport m) := by
  rw [Naming.addImports?, importItems?] at hadd
  rw [classItems]
  rw [leaked] at hleaked
  dsimp only at hadd
  split_ifs at hadd hleaked ⊢
  · exact Option.some.inj hadd ▸ h
  · cases hpieces : importPieces? (importBody text) with
    | none =>
      rw [hpieces] at hadd
      cases hadd
    | some found =>
      rw [hpieces] at hadd hleaked
      obtain rfl := Option.some.inj hadd
      refine h.foldl_addImport found.1 found.2 fun piece hpiece entry hentry => hleaked ?_
      exact List.mem_map_of_mem (List.mem_filterMap.mpr ⟨piece, hpiece, hentry⟩)

end Naming

end FactoryLint.Php
