import FactoryLint.Proofs.Php.Naming
import Mathlib.Data.List.DropRight

namespace FactoryLint.Text

variable {cs left right : List Char}

structure IsTight (cs : List Char) : Prop where
  first : ∀ c ∈ cs.head?, isBlank c = false
  last : ∀ c ∈ cs.getLast?, isBlank c = false

theorem isTight_of_all (h : cs.all fun c => !isBlank c) : IsTight cs := by
  have hcs : ∀ c ∈ cs, isBlank c = false := by simpa using h
  exact ⟨fun c hc => hcs c (List.mem_of_head? hc), fun c hc => hcs c (List.mem_of_getLast? hc)⟩

def gap (space : Bool) : List Char := if space then [' '] else []

theorem isBlank_of_mem_gap (space : Bool) : ∀ c ∈ gap space, isBlank c := by
  cases space with
  | false => exact fun c hc => absurd hc List.not_mem_nil
  | true =>
    intro c hc
    obtain rfl := List.mem_singleton.mp hc
    decide

theorem not_mem_gap {c : Char} (hne : c ≠ ' ') (space : Bool) : c ∉ gap space := by
  cases space with
  | false => exact List.not_mem_nil
  | true => exact fun hmem => hne (List.mem_singleton.mp hmem)

theorem trimLeft_of_blank (h : ∀ c ∈ left, isBlank c) (cs : List Char) :
    trimLeft (left ++ cs) = trimLeft cs :=
  List.dropWhile_append_of_pos h

theorem trimRight_of_blank (h : ∀ c ∈ right, isBlank c) (cs : List Char) :
    trimRight (cs ++ right) = trimRight cs := by
  rw [trimRight, List.reverse_append, List.dropWhile_append_of_pos, trimRight]
  exact fun c hc => h c (List.mem_reverse.mp hc)

theorem trimLeft_of_first (h : ∀ c ∈ cs.head?, isBlank c = false) : trimLeft cs = cs := by
  cases cs with
  | nil => rfl
  | cons c cs => exact List.dropWhile_cons_of_neg (by simp [h c rfl])

theorem trimRight_of_last (h : ∀ c ∈ cs.getLast?, isBlank c = false) : trimRight cs = cs := by
  rw [← List.head?_reverse] at h
  rw [trimRight, ← trimLeft, trimLeft_of_first h, List.reverse_reverse]

theorem IsTight.trim_eq (h : IsTight cs) : trim cs = cs := by
  rw [trim, trimLeft_of_first h.first, trimRight_of_last h.last]

theorem trim_sublist (cs : List Char) : (trim cs).Sublist cs :=
  (List.rdropWhile_prefix (p := isBlank) (trimLeft cs)).sublist.trans
    (List.dropWhile_sublist isBlank)

theorem trim_eq_self_iff : trim cs = cs ↔ IsTight cs := by
  refine ⟨fun h => ?_, IsTight.trim_eq⟩
  have hleft : trimLeft cs = cs := by
    have hlen := (List.rdropWhile_prefix (p := isBlank) (trimLeft cs)).length_le
    refine (List.dropWhile_suffix isBlank).eq_of_length_le ?_
    exact (congrArg List.length h).symm.trans_le hlen
  rw [trim, hleft] at h
  constructor
  · intro c hc
    cases cs with
    | nil => cases hc
    | cons d cs =>
      obtain rfl := Option.some.inj hc
      exact Bool.eq_false_iff.mpr (List.dropWhile_eq_self_iff.mp hleft (Nat.zero_lt_succ _))
  · intro c hc
    have hne : cs ≠ [] := List.ne_nil_of_mem (List.mem_of_getLast? hc)
    rw [List.getLast?_eq_some_getLast hne] at hc
    obtain rfl := Option.some.inj hc
    exact Bool.eq_false_iff.mpr (List.rdropWhile_eq_self_iff.mp h hne)

instance (cs : List Char) : Decidable (IsTight cs) :=
  decidable_of_iff (trim cs = cs) trim_eq_self_iff

theorem trim_pad (hleft : ∀ c ∈ left, isBlank c) (hright : ∀ c ∈ right, isBlank c)
    (cs : List Char) : trim (left ++ cs ++ right) = trim cs := by
  rw [trim, List.append_assoc, trimLeft_of_blank hleft, trim]
  by_cases hcs : ∀ c ∈ cs, isBlank c
  · have hnil : ∀ cs : List Char, (∀ c ∈ cs, isBlank c) → trimLeft cs = [] :=
      fun cs hcs => List.dropWhile_eq_nil_iff.mpr hcs
    rw [hnil cs hcs, hnil (cs ++ right)]
    exact fun c hc => (List.mem_append.mp hc).elim (hcs c) (hright c)
  · have hne : (cs.dropWhile isBlank).isEmpty = false := by
      rw [List.isEmpty_eq_false_iff, Ne, List.dropWhile_eq_nil_iff]
      exact hcs
    rw [trimLeft, List.dropWhile_append, hne, if_neg Bool.false_ne_true, trimRight_of_blank hright]
    rfl

theorem trim_padLeft (hleft : ∀ c ∈ left, isBlank c) (cs : List Char) :
    trim (left ++ cs) = trim cs := by
  have hpad := trim_pad hleft (List.forall_mem_nil (isBlank ·)) cs
  rwa [List.append_nil] at hpad

theorem trim_padRight (hright : ∀ c ∈ right, isBlank c) (cs : List Char) :
    trim (cs ++ right) = trim cs :=
  trim_pad (List.forall_mem_nil (isBlank ·)) hright cs

theorem IsTight.trim_pad (h : IsTight cs) (hleft : ∀ c ∈ left, isBlank c)
    (hright : ∀ c ∈ right, isBlank c) : trim (left ++ cs ++ right) = cs :=
  (Text.trim_pad hleft hright cs).trans h.trim_eq

theorem IsTight.trim_padLeft (h : IsTight cs) (hleft : ∀ c ∈ left, isBlank c) :
    trim (left ++ cs) = cs :=
  (Text.trim_padLeft hleft cs).trans h.trim_eq

theorem IsTight.trim_padRight (h : IsTight cs) (hright : ∀ c ∈ right, isBlank c) :
    trim (cs ++ right) = cs :=
  (Text.trim_padRight hright cs).trans h.trim_eq

theorem IsTight.enclose (hleft : IsTight left) (hne : left ≠ []) (hright : IsTight right)
    (hne' : right ≠ []) (mid : List Char) : IsTight (left ++ mid ++ right) := by
  constructor
  · intro c hc
    rw [List.append_assoc, List.head?_append_of_ne_nil _ hne] at hc
    exact hleft.first c hc
  · intro c hc
    rw [List.getLast?_append_of_ne_nil _ hne'] at hc
    exact hright.last c hc

theorem IsTight.intercalate (sep : List Char) {part : List Char} {parts : List (List Char)}
    (h : ∀ p ∈ part :: parts, IsTight p ∧ p ≠ []) :
    IsTight (sep.intercalate (part :: parts)) ∧ sep.intercalate (part :: parts) ≠ [] := by
  induction parts generalizing part with
  | nil =>
    rw [List.intercalate_singleton]
    exact h part List.mem_cons_self
  | cons next parts ih =>
    obtain ⟨htight, hne⟩ := h part List.mem_cons_self
    obtain ⟨hrest, hne'⟩ := ih fun p hp => h p (List.mem_cons_of_mem _ hp)
    rw [List.intercalate_cons_cons]
    exact ⟨htight.enclose hne hrest hne' sep, List.append_ne_nil_of_right_ne_nil _ hne'⟩

theorem not_mem_intercalate {c : Char} {sep : List Char} (hsep : c ∉ sep)
    {parts : List (List Char)} (h : ∀ part ∈ parts, c ∉ part) : c ∉ sep.intercalate parts := by
  induction parts with
  | nil => exact List.not_mem_nil
  | cons part parts ih =>
    have hpart := h part List.mem_cons_self
    have hparts := ih fun p hp => h p (List.mem_cons_of_mem _ hp)
    cases parts with
    | nil => rwa [List.intercalate_singleton]
    | cons next parts => simp [List.intercalate_cons_cons, hpart, hsep, hparts]

/-- Where the characters of a kind end, a text can be taken apart in one way only. -/
theorem append_inj_of_stop {p : Char → Bool} {cs' rest rest' : List Char} (hcs : ∀ c ∈ cs, p c)
    (hcs' : ∀ c ∈ cs', p c) (hrest : ∀ c ∈ rest.head?, p c = false)
    (hrest' : ∀ c ∈ rest'.head?, p c = false) (h : cs ++ rest = cs' ++ rest') :
    cs = cs' ∧ rest = rest' := by
  have hnil : ∀ r : List Char, (∀ c ∈ r.head?, p c = false) → r.takeWhile p = [] := by
    intro r hr
    cases r with
    | nil => rfl
    | cons c r => exact List.takeWhile_cons_of_neg (by simp [hr c rfl])
  have htake := congrArg (List.takeWhile p) h
  rw [List.takeWhile_append_of_pos hcs, List.takeWhile_append_of_pos hcs', hnil _ hrest,
    hnil _ hrest', List.append_nil, List.append_nil] at htake
  subst htake
  exact ⟨rfl, List.append_cancel_left h⟩

variable {sep : Char}

theorem splitAt_append (h : sep ∉ cs) {rest part : List Char} {parts : List (List Char)}
    (hrest : splitAt sep rest = part :: parts) :
    splitAt sep (cs ++ rest) = (cs ++ part) :: parts := by
  induction cs with
  | nil => exact hrest
  | cons c cs ih =>
    obtain ⟨hc, hcs⟩ := not_or.mp (List.mem_cons.not.mp h)
    rw [List.cons_append, splitAt, if_neg fun he => hc he.symm, ih hcs]
    rfl

theorem splitAt_of_not_mem (h : sep ∉ cs) : splitAt sep cs = [cs] := by
  have hsplit : splitAt sep (cs ++ []) = [cs ++ []] := splitAt_append h rfl
  rwa [List.append_nil] at hsplit

theorem splitAt_ne_nil (sep : Char) (cs : List Char) : splitAt sep cs ≠ [] := by
  cases cs with
  | nil => exact List.cons_ne_nil _ _
  | cons c cs =>
    rw [splitAt]
    split
    · exact List.cons_ne_nil _ _
    · split <;> exact List.cons_ne_nil _ _

theorem splitAt_append_sep (cs rest : List Char) :
    splitAt sep (cs ++ sep :: rest) = splitAt sep cs ++ splitAt sep rest := by
  induction cs with
  | nil =>
    rw [List.nil_append, splitAt, splitAt, if_pos rfl]
    rfl
  | cons c cs ih =>
    rw [List.cons_append, splitAt, ih, splitAt]
    by_cases hc : c = sep
    · rw [if_pos hc, if_pos hc, List.cons_append]
    · obtain ⟨part, parts, hparts⟩ := List.exists_cons_of_ne_nil (splitAt_ne_nil sep cs)
      rw [if_neg hc, if_neg hc, hparts]
      rfl

theorem splitAt_append_cons (h : sep ∉ cs) (rest : List Char) :
    splitAt sep (cs ++ sep :: rest) = cs :: splitAt sep rest := by
  rw [splitAt_append_sep, splitAt_of_not_mem h, List.singleton_append]

/-- Pieces with separators and blanks between them are found again, one after another, before what
follows the last one. -/
theorem map_trim_splitAt_intercalate {before after last : List Char} {parts : List (List Char)}
    (hbefore : ∀ c ∈ before, isBlank c) (hafter : ∀ c ∈ after, isBlank c)
    (hlast : ∀ c ∈ last, isBlank c) (hsep : isBlank sep = false) {rest : List Char}
    (hrest : splitAt sep rest = last :: parts) {piece : List Char} {pieces : List (List Char)}
    (h : ∀ p ∈ piece :: pieces, IsTight p ∧ sep ∉ p) (hleft : ∀ c ∈ left, isBlank c) :
    (splitAt sep
        (left ++ (before ++ sep :: after).intercalate (piece :: pieces) ++ rest)).map trim =
      (piece :: pieces) ++ parts.map trim := by
  have hnot : ∀ {gap : List Char}, (∀ c ∈ gap, isBlank c) → sep ∉ gap := by
    intro gap hgap hmem
    rw [hgap sep hmem] at hsep
    cases hsep
  induction pieces generalizing piece left with
  | nil =>
    obtain ⟨htight, hpiece⟩ := h piece List.mem_cons_self
    have hmem : sep ∉ left ++ piece := by simp [hnot hleft, hpiece]
    rw [List.intercalate_singleton, splitAt_append hmem hrest, List.map_cons,
      htight.trim_pad hleft hlast, List.singleton_append]
  | cons next pieces ih =>
    obtain ⟨htight, hpiece⟩ := h piece List.mem_cons_self
    have hmem : sep ∉ left ++ piece ++ before := by simp [hnot hleft, hpiece, hnot hbefore]
    have htext : left ++ (before ++ sep :: after).intercalate (piece :: next :: pieces) ++ rest =
        (left ++ piece ++ before) ++
          sep :: (after ++ (before ++ sep :: after).intercalate (next :: pieces) ++ rest) := by
      simp [List.intercalate_cons_cons]
    rw [htext, splitAt_append_cons hmem, List.map_cons, htight.trim_pad hleft hbefore,
      ih (fun p hp => h p (List.mem_cons_of_mem _ hp)) hafter]
    rfl

variable {w : Char} {word : List Char}

theorem after?_append_self (word cs : List Char) : after? word (word ++ cs) = some cs := by
  induction word with
  | nil => rfl
  | cons w word ih => rw [List.cons_append, after?, if_pos rfl, ih]

theorem after?_eq_none_of_head (h : ∀ c ∈ cs.head?, c ≠ w) : after? (w :: word) cs = none := by
  cases cs with
  | nil => rfl
  | cons c cs => rw [after?, if_neg fun he => h c rfl he.symm]

theorem after?_eq_none_of_not_mem {word : List Char} (hw : w ∈ word) (h : w ∉ cs) :
    after? word cs = none := by
  cases hafter : after? word cs with
  | none => rfl
  | some rest =>
    rw [← append_of_after? hafter] at h
    exact absurd (List.mem_append_left _ hw) h

/-- No text is broken at the word before all of `cs` is passed. -/
def Passes (word cs : List Char) : Prop :=
  ∀ rest, breakAt? word (cs ++ rest) =
    (breakAt? word rest).map fun found => (cs ++ found.1, found.2)

theorem passes_of_not_mem (word : List Char) (h : w ∉ cs) : Passes (w :: word) cs := by
  intro rest
  induction cs with
  | nil => simp
  | cons c cs ih =>
    obtain ⟨hc, hcs⟩ := not_or.mp (List.mem_cons.not.mp h)
    have hhead : after? (w :: word) (c :: (cs ++ rest)) = none := by
      apply after?_eq_none_of_head
      rintro d ⟨⟩
      exact fun he => hc he.symm
    rw [List.cons_append, breakAt?, hhead, ih hcs, Option.map_map]
    rfl

theorem Passes.append {cs' : List Char} (h : Passes word cs) (h' : Passes word cs') :
    Passes word (cs ++ cs') := by
  intro rest
  rw [List.append_assoc, h, h', Option.map_map]
  refine Option.map_congr fun found _ => ?_
  rw [Function.comp_apply, List.append_assoc]

theorem breakAt?_eq_none (h : w ∉ cs) : breakAt? (w :: word) cs = none := by
  have hbreak : breakAt? (w :: word) (cs ++ []) = none := passes_of_not_mem word h []
  rwa [List.append_nil] at hbreak

theorem breakAt?_append_self (word cs : List Char) :
    breakAt? word (word ++ cs) = some ([], cs) := by
  have hafter := after?_append_self word cs
  cases hcs : word ++ cs with
  | nil =>
    rw [hcs] at hafter
    rw [breakAt?, hafter]
    rfl
  | cons c rest =>
    rw [hcs] at hafter
    rw [breakAt?, hafter]

theorem afterLast_eq_self (h : sep ∉ cs) : afterLast sep cs = cs := by
  refine List.rtakeWhile_eq_self_iff.mpr fun c hc => ?_
  rw [decide_eq_true_eq]
  rintro rfl
  exact h hc

theorem afterLast_append (h : sep ∉ right) (left : List Char) :
    afterLast sep (left ++ sep :: right) = right := by
  have hreverse : (left ++ sep :: right).reverse = right.reverse ++ sep :: left.reverse := by simp
  rw [afterLast, hreverse, List.takeWhile_append_of_pos, List.takeWhile_cons_of_neg (by simp),
    List.append_nil, List.reverse_reverse]
  intro c hc
  rw [decide_eq_true_eq]
  rintro rfl
  exact h (List.mem_reverse.mp hc)

theorem beforeLast?_concat (sep : Char) (cs : List Char) :
    beforeLast? sep (cs ++ [sep]) = some cs := by
  rw [beforeLast?, List.reverse_append, List.reverse_singleton, List.singleton_append,
    List.dropWhile_cons_of_neg (by simp)]
  exact congrArg some (List.reverse_reverse cs)

theorem dropRight_concat (h : ∀ c ∈ cs.getLast?, c ≠ sep) : dropRight sep (cs ++ [sep]) = cs := by
  refine (List.rdropWhile_concat_pos _ _ _ (by simp)).trans ?_
  refine List.rdropWhile_eq_self_iff.mpr fun hne => ?_
  simpa using h _ (List.getLast?_eq_some_getLast hne)

theorem dropWord_append_self {word : String} (h : after? word.toList cs = none)
    (hne : word.toList ≠ []) : dropWord word (word.toList ++ cs) = cs := by
  obtain ⟨n, hn⟩ : ∃ n, (word.toList ++ cs).length = n + 1 := by
    have hpos := List.length_pos_iff.mpr hne
    exact Nat.exists_eq_add_one.mpr (by rw [List.length_append]; omega)
  rw [dropWord, hn, dropWordUpTo, after?_append_self]
  cases n with
  | zero => rfl
  | succ n => simp only [dropWordUpTo, h]

theorem not_mem_of_mem_splitAt {sep : Char} {cs part : List Char} (h : part ∈ splitAt sep cs) :
    sep ∉ part := by
  induction cs generalizing part with
  | nil =>
    obtain rfl := List.mem_singleton.mp h
    exact List.not_mem_nil
  | cons c cs ih =>
    rw [splitAt] at h
    split at h
    · cases h with
      | head => exact List.not_mem_nil
      | tail _ h => exact ih h
    · rename_i hc
      split at h
      · obtain rfl := List.mem_singleton.mp h
        simpa using Ne.symm hc
      · rename_i first rest hsplit
        rw [hsplit] at ih
        cases h with
        | head =>
          have hfirst := ih List.mem_cons_self
          simp [Ne.symm hc, hfirst]
        | tail _ h => exact ih (List.mem_cons_of_mem _ h)

theorem isSome_after?_iff {word cs : List Char} : (after? word cs).isSome ↔ word <+: cs := by
  constructor
  · intro h
    obtain ⟨rest, hrest⟩ := Option.isSome_iff_exists.mp h
    exact ⟨rest, append_of_after? hrest⟩
  · rintro ⟨rest, rfl⟩
    rw [after?_append_self, Option.isSome_some]

theorem isSome_breakAt?_iff {word cs : List Char} : (breakAt? word cs).isSome ↔ word <:+: cs := by
  induction cs with
  | nil => rw [breakAt?, Option.isSome_map, isSome_after?_iff, List.prefix_nil, List.infix_nil]
  | cons c cs ih =>
    rw [List.infix_cons_iff, ← isSome_after?_iff, ← ih, breakAt?]
    cases after? word (c :: cs) with
    | none => simp
    | some rest => simp

theorem infix_append_iff_of_not_mem {sep : Char} {cs : List Char} (h : sep ∉ cs)
    (word rest : List Char) : sep :: word <:+: cs ++ rest ↔ sep :: word <:+: rest := by
  induction cs with
  | nil => rfl
  | cons c cs ih =>
    obtain ⟨hc, hcs⟩ := not_or.mp (List.mem_cons.not.mp h)
    rw [List.cons_append, List.infix_cons_iff, ih hcs]
    simp [hc]

theorem lower_append (cs cs' : List Char) : lower (cs ++ cs') = lower cs ++ lower cs' :=
  List.map_append

theorem length_lower (cs : List Char) : (lower cs).length = cs.length :=
  List.length_map _

/-- Letters only are lowered, and to letters. -/
theorem isAlpha_of_toLower_ne {c : Char} (h : c.toLower ≠ c) : c.isAlpha ∧ c.toLower.isAlpha := by
  unfold Char.toLower at h ⊢
  split at h
  · rename_i hupper
    rw [dif_pos hupper]
    obtain ⟨hA, hZ⟩ := hupper
    delta Char.isAlpha Char.isUpper Char.isLower
    simp [UInt32.le_iff_toNat_le] at hA hZ ⊢
    omega
  · exact absurd rfl h

theorem not_mem_lower {sign : Char} (hsign : sign.isAlpha = false) (h : sign ∉ cs) :
    sign ∉ lower cs := by
  intro hmem
  obtain ⟨c, hc, he⟩ := List.mem_map.mp hmem
  by_cases hlower : c.toLower = c
  · exact h (he ▸ hlower.symm ▸ hc)
  · rw [← he, (isAlpha_of_toLower_ne hlower).2] at hsign
    cases hsign

end FactoryLint.Text
