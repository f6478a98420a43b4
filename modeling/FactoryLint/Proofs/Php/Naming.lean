import FactoryLint.Php.Naming
import Mathlib.Data.List.TakeWhile

namespace FactoryLint.Text

variable {word cs : List Char} {mark : Char}

theorem after?_append (hmark : mark ∈ cs) (hword : mark ∉ word) (rest : List Char) :
    after? word (cs ++ rest) = (after? word cs).map (· ++ rest) := by
  induction word generalizing cs with
  | nil => rfl
  | cons w word ih =>
    cases cs with
    | nil => cases hmark
    | cons c cs =>
      rw [List.cons_append, after?, after?]
      split_ifs with h
      · have hne : mark ≠ c := fun he => hword (h ▸ he ▸ List.mem_cons_self)
        exact ih ((List.mem_cons.mp hmark).resolve_left hne)
          fun hmem => hword (List.mem_cons_of_mem _ hmem)
      · rfl

theorem append_of_after? {rest : List Char} (h : after? word cs = some rest) :
    word ++ rest = cs := by
  induction word generalizing cs with
  | nil => exact (Option.some.inj h).symm
  | cons w word ih =>
    cases cs with
    | nil => cases h
    | cons c cs =>
      rw [after?] at h
      split_ifs at h with he
      rw [List.cons_append, ih h, he]

theorem mem_of_after? {rest : List Char} (h : after? word cs = some rest) (hmark : mark ∈ cs)
    (hword : mark ∉ word) : mark ∈ rest := by
  rw [← append_of_after? h, List.mem_append] at hmark
  exact hmark.resolve_left hword

theorem dropWordUpTo_append (hmark : mark ∈ cs) (hword : mark ∉ word) (rest : List Char)
    (bound : Nat) : dropWordUpTo word bound (cs ++ rest) = dropWordUpTo word bound cs ++ rest ∧
      mark ∈ dropWordUpTo word bound cs := by
  induction bound generalizing cs with
  | zero => exact ⟨rfl, hmark⟩
  | succ bound ih =>
    rw [dropWordUpTo, dropWordUpTo, after?_append hmark hword]
    cases h : after? word cs with
    | none => exact ⟨rfl, hmark⟩
    | some cs' => exact ih (mem_of_after? h hmark hword)

theorem dropWordUpTo_bound (hword : word ≠ []) {m n : Nat} (hm : cs.length ≤ m)
    (hn : cs.length ≤ n) : dropWordUpTo word m cs = dropWordUpTo word n cs := by
  have hnil : after? word [] = none := by
    cases word with
    | nil => exact absurd rfl hword
    | cons w word => rfl
  induction m generalizing n cs with
  | zero =>
    obtain rfl := List.length_eq_zero_iff.mp (Nat.le_zero.mp hm)
    cases n with
    | zero => rfl
    | succ n => rw [dropWordUpTo, dropWordUpTo, hnil]
  | succ m ih =>
    cases n with
    | zero =>
      obtain rfl := List.length_eq_zero_iff.mp (Nat.le_zero.mp hn)
      rw [dropWordUpTo, dropWordUpTo, hnil]
    | succ n =>
      rw [dropWordUpTo, dropWordUpTo]
      cases h : after? word cs with
      | none => rfl
      | some rest =>
        have hlen := congrArg List.length (append_of_after? h)
        have hpos := List.length_pos_iff.mpr hword
        rw [List.length_append] at hlen
        exact ih (by omega) (by omega)

theorem dropWord_append {word : String} (hmark : mark ∈ cs) (hword : mark ∉ word.toList)
    (hne : word.toList ≠ []) (rest : List Char) :
    dropWord word (cs ++ rest) = dropWord word cs ++ rest ∧ mark ∈ dropWord word cs := by
  obtain ⟨happend, hmem⟩ := dropWordUpTo_append hmark hword rest (cs ++ rest).length
  have hbound : dropWordUpTo word.toList (cs ++ rest).length cs = dropWord word cs :=
    dropWordUpTo_bound hne (by simp) (Nat.le_refl _)
  rw [hbound] at happend hmem
  exact ⟨happend, hmem⟩

theorem trimLeft_append (hmark : mark ∈ cs) (hblank : isBlank mark = false) (rest : List Char) :
    trimLeft (cs ++ rest) = trimLeft cs ++ rest ∧ mark ∈ trimLeft cs := by
  induction cs with
  | nil => cases hmark
  | cons c cs ih =>
    rw [trimLeft, trimLeft, List.cons_append, List.dropWhile_cons, List.dropWhile_cons]
    split_ifs with h
    · refine ih ((List.mem_cons.mp hmark).resolve_left ?_)
      rintro rfl
      rw [h] at hblank
      cases hblank
    · exact ⟨rfl, hmark⟩

theorem takeWhile_append {p : Char → Bool} (hmark : mark ∈ cs) (hp : p mark = false)
    (rest : List Char) : (cs ++ rest).takeWhile p = cs.takeWhile p := by
  induction cs with
  | nil => cases hmark
  | cons c cs ih =>
    rw [List.cons_append, List.takeWhile_cons, List.takeWhile_cons]
    split_ifs with h
    · rw [ih ((List.mem_cons.mp hmark).resolve_left ?_)]
      rintro rfl
      rw [h] at hp
      cases hp
    · rfl

theorem count_dropWhile {p : Char → Bool} {sign : Char} (hp : p sign = false) (cs : List Char) :
    (cs.dropWhile p).count sign = cs.count sign := by
  induction cs with
  | nil => rfl
  | cons c cs ih =>
    rw [List.dropWhile_cons]
    split_ifs with h
    · have hne : c ≠ sign := by
        rintro rfl
        rw [hp] at h
        cases h
      rw [ih, List.count_cons_of_ne hne]
    · rfl

theorem count_trim {sign : Char} (hsign : isBlank sign = false) (cs : List Char) :
    (trim cs).count sign = cs.count sign := by
  rw [trim, trimRight, List.count_reverse, count_dropWhile hsign, List.count_reverse, trimLeft,
    count_dropWhile hsign]

section

variable {keep : Char → Bool} {sign : Char}

theorem count_takeWhile_append (hword : ∀ c ∈ word, keep c) (hsign : sign ∉ word)
    (rest : List Char) :
    ((word ++ rest).takeWhile keep).count sign = (rest.takeWhile keep).count sign := by
  rw [List.takeWhile_append_of_pos hword, List.count_append, List.count_eq_zero.mpr hsign,
    Nat.zero_add]

theorem count_takeWhile_trimLeft (hkeep : ∀ c, isBlank c → keep c) (hsign : isBlank sign = false)
    (cs : List Char) :
    ((trimLeft cs).takeWhile keep).count sign = (cs.takeWhile keep).count sign := by
  have hblank : ∀ c ∈ cs.takeWhile isBlank, isBlank c := fun c => List.mem_takeWhile_imp
  have hnot : sign ∉ cs.takeWhile isBlank := by
    intro hmem
    rw [hblank sign hmem] at hsign
    cases hsign
  have h := count_takeWhile_append (fun c hc => hkeep c (hblank c hc)) hnot (trimLeft cs)
  rw [trimLeft, List.takeWhile_append_dropWhile] at h
  exact h.symm

theorem count_takeWhile_dropWord {word : String} (hword : ∀ c ∈ word.toList, keep c)
    (hsign : sign ∉ word.toList) (cs : List Char) :
    ((dropWord word cs).takeWhile keep).count sign = (cs.takeWhile keep).count sign := by
  have hbound : ∀ (bound : Nat) (cs : List Char),
      ((dropWordUpTo word.toList bound cs).takeWhile keep).count sign =
        (cs.takeWhile keep).count sign := by
    intro bound
    induction bound with
    | zero => exact fun _ => rfl
    | succ bound ih =>
      intro cs
      rw [dropWordUpTo]
      cases h : after? word.toList cs with
      | none => rfl
      | some rest => rw [← append_of_after? h, count_takeWhile_append hword hsign, ih rest]
  exact hbound _ cs

end

end FactoryLint.Text

namespace FactoryLint.Php.Naming

open Text

theorem enterSpace_append {head : List Char} {mark : Char} (hmark : mark ∈ head)
    (hend : mark = '\x7b' ∨ mark = ';') (rest : List Char) :
    enterSpace (head ++ rest) = enterSpace head := by
  have hblank : isBlank mark = false := by rcases hend with rfl | rfl <;> decide
  have hword : mark ∉ "namespace".toList := by rcases hend with rfl | rfl <;> decide
  obtain ⟨htrim, hmem⟩ := trimLeft_append hmark hblank rest
  obtain ⟨hdrop, hmem⟩ := dropWord_append hmem hword (by decide) rest
  have hstop : (mark ≠ '\x7b' && mark ≠ ';') = false := by rcases hend with rfl | rfl <;> decide
  rw [enterSpace, enterSpace, htrim, hdrop, takeWhile_append hmem hstop]

/-- How often the sign of variables occurs in the name of a namespace. -/
theorem count_enterSpace (text : List Char) :
    ((enterSpace text).space.getD []).count '$' =
      (text.takeWhile fun c => c ≠ '\x7b' && c ≠ ';').count '$' := by
  have hspace : ∀ name : List Char, (if name.isEmpty then none else some name).getD [] = name := by
    intro name
    cases name <;> rfl
  have hblank : ∀ c, isBlank c → (c ≠ '\x7b' && c ≠ ';') = true := by
    intro c hc
    by_contra hstop
    have hend : c = '\x7b' ∨ c = ';' := by simpa [Decidable.or_iff_not_imp_left] using hstop
    rcases hend with rfl | rfl <;> cases hc
  have hword : ∀ c ∈ "namespace".toList, (c ≠ '\x7b' && c ≠ ';') = true :=
    List.all_eq_true.mp (by decide)
  rw [enterSpace, hspace, count_trim (by decide), count_takeWhile_dropWord hword (by decide),
    count_takeWhile_trimLeft hblank (by decide)]

/-- Where neither brace nor semicolon comes first, a variable cannot go without changing the
name. -/
theorem enterSpace_ne {head covered new : List Char}
    (hhead : ∀ c ∈ head, c ≠ '\x7b' ∧ c ≠ ';') (hcovered : ∀ c ∈ covered, c ≠ '\x7b' ∧ c ≠ ';')
    (hnew : ∀ c ∈ new, c ≠ '\x7b' ∧ c ≠ ';') (hsign : '$' ∈ covered) (hsign' : '$' ∉ new)
    (tail : List Char) :
    enterSpace (head ++ new ++ tail) ≠ enterSpace (head ++ covered ++ tail) := by
  intro he
  have hcount : ∀ cs : List Char, (∀ c ∈ cs, c ≠ '\x7b' ∧ c ≠ ';') →
      ((enterSpace (head ++ cs ++ tail)).space.getD []).count '$' = head.count '$' +
        (cs.count '$' + (tail.takeWhile fun c => c ≠ '\x7b' && c ≠ ';').count '$') := by
    intro cs hcs
    rw [count_enterSpace, List.append_assoc, List.takeWhile_append_of_pos, List.count_append,
      List.takeWhile_append_of_pos, List.count_append]
    · intro c hc
      simpa using hcs c hc
    · intro c hc
      simpa using hhead c hc
  have hpos : 0 < covered.count '$' := List.count_pos_iff.mpr hsign
  have hzero : new.count '$' = 0 := List.count_eq_zero.mpr hsign'
  have h := hcount new hnew
  rw [he, hcount covered hcovered] at h
  omega

end FactoryLint.Php.Naming
