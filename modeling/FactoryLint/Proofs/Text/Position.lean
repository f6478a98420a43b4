import FactoryLint.Proofs.Text.Cut
import FactoryLint.Text.Position
import Mathlib.Data.List.DropRight

namespace FactoryLint.Text.Position

def Before (p q : Position) : Prop :=
  p.line < q.line ∨ p.line = q.line ∧ p.column < q.column

/-- The number of bytes up to the place behind so many line feeds and then so many characters of the
next line. There is none past the end of the text or of the line. -/
def seek? : Nat → Nat → List Char → Option Nat
  | 0, 0, _ => some 0
  | 0, _ + 1, [] => none
  | 0, characters + 1, c :: cs =>
    if c = '\n' then none else (seek? 0 characters cs).map (c.utf8Size + ·)
  | _ + 1, _, [] => none
  | feeds + 1, characters, c :: cs =>
    (seek? (if c = '\n' then feeds else feeds + 1) characters cs).map (c.utf8Size + ·)

def offset? : Position → String → Option Nat
  | ⟨line + 1, column + 1⟩, source => seek? line column source.toList
  | _, _ => none

variable {p q r : Position} {before rest : List Char} {source : String}

theorem after_length (p : Position) (before rest : List Char) :
    p.after (byteLength before) (before ++ rest) = before.foldl advance p := by
  induction before generalizing p with
  | nil => rw [byteLength, after, List.foldl_nil]
  | cons c before ih =>
    obtain ⟨k, hk⟩ := Nat.exists_eq_add_of_lt c.utf8Size_pos
    have hlength : byteLength (c :: before) = k + byteLength before + 1 := by
      rw [byteLength]
      omega
    have hrest : k + byteLength before + 1 - c.utf8Size = byteLength before := by omega
    rw [hlength, List.cons_append, after, hrest, ih, List.foldl_cons]

theorem foldl_advance_first (before : List Char) : before.foldl advance first =
    ⟨before.count '\n' + 1, (before.rtakeWhile (· ≠ '\n')).length + 1⟩ := by
  induction before using List.reverseRecOn with
  | nil => rfl
  | append_singleton before c ih =>
    rw [List.foldl_append, ih, List.foldl_cons, List.foldl_nil, advance, List.count_append]
    split_ifs with hc
    · rw [hc, List.rtakeWhile_concat_neg _ _ _ (by simp)]
      rfl
    · rw [List.rtakeWhile_concat_pos _ _ _ (by simpa using hc)]
      simp [hc]

theorem ofOffset_length (h : source.toList = before ++ rest) :
    ofOffset source (byteLength before) =
      ⟨before.count '\n' + 1, (before.rtakeWhile (· ≠ '\n')).length + 1⟩ := by
  rw [ofOffset, h, after_length, foldl_advance_first]

theorem seek?_line {line : List Char} (hline : '\n' ∉ line) (rest : List Char) :
    seek? 0 line.length (line ++ rest) = some (byteLength line) := by
  induction line with
  | nil => rw [List.length_nil, seek?, byteLength]
  | cons c line ih =>
    rw [List.mem_cons, not_or] at hline
    rw [List.length_cons, List.cons_append, seek?, if_neg (Ne.symm hline.1), ih hline.2]
    rfl

/-- Whole lines are passed. -/
theorem seek?_lines {lines : List Char} (hlines : ∀ c ∈ lines.getLast?, c = '\n')
    (characters : Nat) (rest : List Char) : seek? (lines.count '\n') characters (lines ++ rest) =
      (seek? 0 characters rest).map (byteLength lines + ·) := by
  induction lines with
  | nil => simp [byteLength]
  | cons c lines ih =>
    have hlines' : ∀ c ∈ lines.getLast?, c = '\n' := by
      intro d hd
      rw [List.getLast?_cons, Option.mem_def.mp hd] at hlines
      exact hlines d rfl
    have hfeeds : ∃ feeds, (c :: lines).count '\n' = feeds + 1 ∧
        (if c = '\n' then feeds else feeds + 1) = lines.count '\n' := by
      by_cases hc : c = '\n'
      · exact ⟨lines.count '\n', by rw [hc, List.count_cons_self], if_pos hc⟩
      · -- The last line feed comes later.
        have hmem : '\n' ∈ lines := by
          cases hlast : lines.getLast? with
          | none =>
            rw [List.getLast?_cons, hlast] at hlines
            exact absurd (hlines c rfl) hc
          | some d =>
            obtain rfl := hlines' d hlast
            exact List.mem_of_getLast? hlast
        obtain ⟨feeds, hcount⟩ := Nat.exists_eq_add_of_lt (List.count_pos_iff.mpr hmem)
        rw [Nat.zero_add] at hcount
        exact ⟨feeds, by rw [List.count_cons_of_ne hc, hcount], by rw [if_neg hc, hcount]⟩
    obtain ⟨feeds, hcount, hstep⟩ := hfeeds
    rw [hcount, List.cons_append, seek?, hstep, ih hlines', Option.map_map, byteLength]
    simp only [Function.comp_def, Nat.add_assoc]

theorem seek?_append {lines line : List Char} (hlines : ∀ c ∈ lines.getLast?, c = '\n')
    (hline : '\n' ∉ line) (rest : List Char) :
    seek? ((lines ++ line).count '\n') line.length (lines ++ line ++ rest) =
      some (byteLength (lines ++ line)) := by
  rw [List.count_append, List.count_eq_zero.mpr hline, Nat.add_zero, List.append_assoc,
    seek?_lines hlines, seek?_line hline, byteLength_append]
  rfl

theorem seek?_position (before rest : List Char) :
    seek? (before.count '\n') (before.rtakeWhile (· ≠ '\n')).length (before ++ rest) =
      some (byteLength before) := by
  have hlines : ∀ c ∈ (before.rdropWhile (· ≠ '\n')).getLast?, c = '\n' := by
    intro c hc
    obtain ⟨hne, rfl⟩ := List.mem_getLast?_eq_getLast hc
    simpa using List.rdropWhile_last_not (· ≠ '\n') before hne
  have hline : '\n' ∉ before.rtakeWhile (· ≠ '\n') := fun hmem => by
    simpa using List.mem_rtakeWhile_imp hmem
  have h := seek?_append hlines hline rest
  rwa [List.rdropWhile_append_rtakeWhile] at h

theorem offset?_ofOffset (h : source.toList = before ++ rest) :
    (ofOffset source (byteLength before)).offset? source = some (byteLength before) := by
  rw [ofOffset_length h, offset?, h, seek?_position]

theorem Before.trans (hpq : p.Before q) (hqr : q.Before r) : p.Before r := by
  unfold Before at *
  omega

theorem before_advance (p : Position) (c : Char) : p.Before (p.advance c) := by
  rw [advance]
  split_ifs
  · exact Or.inl (Nat.lt_succ_self _)
  · exact Or.inr ⟨rfl, Nat.lt_succ_self _⟩

theorem before_foldl_advance (p : Position) {cs : List Char} (hcs : cs ≠ []) :
    p.Before (cs.foldl advance p) := by
  induction cs generalizing p with
  | nil => exact absurd rfl hcs
  | cons c cs ih =>
    cases cs with
    | nil => exact before_advance p c
    | cons d cs => exact (before_advance p c).trans (ih _ (List.cons_ne_nil d cs))

theorem ofOffset_before {a b : Nat} (ha : IsBoundary source.toList a)
    (hb : IsBoundary source.toList b) (hab : a < b) :
    (ofOffset source a).Before (ofOffset source b) := by
  obtain ⟨before, rest, htext, rfl⟩ := ha
  obtain ⟨before', rest', htext', rfl⟩ := hb
  obtain ⟨between, rfl⟩ := prefix_of_byteLength_le (htext.symm.trans htext') (Nat.le_of_lt hab)
  have hbetween : between ≠ [] := by
    rintro rfl
    rw [List.append_nil] at hab
    exact Nat.lt_irrefl _ hab
  have hposition : ofOffset source (byteLength before) = before.foldl advance first := by
    rw [ofOffset, htext, after_length]
  rw [hposition, ofOffset, htext', after_length, List.foldl_append]
  exact before_foldl_advance _ hbetween

end FactoryLint.Text.Position
