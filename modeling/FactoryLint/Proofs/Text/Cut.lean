import FactoryLint.Text.Bytes
import Mathlib.Data.List.Basic

namespace FactoryLint.Text

/-- The offset is in the text, and no character of it lies around the offset. -/
def IsBoundary (cs : List Char) (n : Nat) : Prop :=
  ∃ before rest, cs = before ++ rest ∧ byteLength before = n

theorem cut?_length_add (as bs : List Char) (n : Nat) :
    cut? (byteLength as + n) (as ++ bs) =
      (cut? n bs).map fun (before, rest) => (as ++ before, rest) := by
  induction as with
  | nil => simp [byteLength]
  | cons a as ih =>
    obtain ⟨k, hk⟩ := Nat.exists_eq_add_of_lt a.utf8Size_pos
    have hlen : byteLength (a :: as) + n = k + byteLength as + n + 1 := by
      rw [byteLength]
      omega
    have hrest : k + byteLength as + n + 1 - a.utf8Size = byteLength as + n := by omega
    rw [hlen, List.cons_append, cut?, if_pos (by omega), hrest, ih, Option.map_map]
    rfl

theorem cut?_length (as bs : List Char) : cut? (byteLength as) (as ++ bs) = some (as, bs) := by
  have h := cut?_length_add as bs 0
  simpa [cut?] using h

/-- Texts that are equal are cut in one way at one offset. -/
theorem append_inj_of_byteLength {as bs as' bs' : List Char} (h : as ++ bs = as' ++ bs')
    (hlen : byteLength as = byteLength as') : as = as' ∧ bs = bs' := by
  have hcut := cut?_length as bs
  rw [h, hlen, cut?_length] at hcut
  exact Prod.mk.inj (Option.some.inj hcut.symm)

theorem prefix_of_byteLength_le {as bs as' bs' : List Char} (h : as ++ bs = as' ++ bs')
    (hlen : byteLength as ≤ byteLength as') : as <+: as' := by
  rcases List.append_eq_append_iff.mp h with ⟨more, rfl, -⟩ | ⟨more, rfl, -⟩
  · exact List.prefix_append as more
  · have hmore : byteLength more = byteLength [] := by
      rw [byteLength_append] at hlen
      rw [byteLength]
      omega
    have hnil : more ++ [] = [] ++ more := List.append_nil more
    obtain ⟨rfl, -⟩ := append_inj_of_byteLength hnil hmore
    exact ⟨[], by rw [List.append_nil, List.append_nil]⟩

theorem cut?_of_le {n : Nat} {as : List Char} (h : n ≤ byteLength as) (bs : List Char) :
    cut? n (as ++ bs) = (cut? n as).map fun (before, rest) => (before, rest ++ bs) := by
  induction as generalizing n with
  | nil =>
    obtain rfl : n = 0 := Nat.le_zero.mp h
    simp [cut?]
  | cons a as ih =>
    cases n with
    | zero => simp [cut?]
    | succ n =>
      rw [byteLength] at h
      rw [List.cons_append, cut?, cut?]
      split_ifs with ha
      · rw [ih (by omega), Option.map_map, Option.map_map]
        rfl
      · rfl

theorem slice?_eq (cs : List Char) (s : Span) : slice? cs s = if s.start ≤ s.stop then
    (cut? s.start cs).bind fun p => (cut? (s.stop - s.start) p.2).map Prod.fst else none := by
  rw [slice?]
  split_ifs
  · cases cut? s.start cs with
    | none => rfl
    | some p => cases hq : cut? (s.stop - s.start) p.2 <;> simp [hq]
  · rfl

theorem slice?_eq_some {cs middle : List Char} {s : Span} (h : slice? cs s = some middle) :
    ∃ before rest, cs = before ++ middle ++ rest ∧ byteLength before = s.start ∧
      s.start + byteLength middle = s.stop := by
  rw [slice?_eq] at h
  split_ifs at h with hs
  obtain ⟨⟨before, rest⟩, hcut, h⟩ := Option.bind_eq_some_iff.mp h
  obtain ⟨⟨middle', rest'⟩, hcut', rfl⟩ := Option.map_eq_some_iff.mp h
  refine ⟨before, rest', ?_, byteLength_of_cut? hcut, ?_⟩
  · rw [List.append_assoc, append_of_cut? hcut', append_of_cut? hcut]
  · rw [byteLength_of_cut? hcut']
    omega

theorem slice?_of_le {as : List Char} {s : Span} (h : s.stop ≤ byteLength as) (bs : List Char) :
    slice? (as ++ bs) s = slice? as s := by
  rw [slice?_eq, slice?_eq]
  split_ifs with hs
  · rw [cut?_of_le (Nat.le_trans hs h)]
    cases hcut : cut? s.start as with
    | none => rfl
    | some p =>
      have hlen := congrArg byteLength (append_of_cut? hcut)
      rw [byteLength_append, byteLength_of_cut? hcut] at hlen
      have hrest : s.stop - s.start ≤ byteLength p.2 := by omega
      simp only [Option.map_some, Option.bind_some, cut?_of_le hrest, Option.map_map]
      rfl
  · rfl

theorem slice?_length_add (as bs : List Char) (s : Span) :
    slice? (as ++ bs) ⟨byteLength as + s.start, byteLength as + s.stop⟩ = slice? bs s := by
  rw [slice?_eq, slice?_eq, cut?_length_add, Nat.add_sub_add_left]
  simp only [Nat.add_le_add_iff_left, Option.bind_map]
  rfl

theorem slice?_around (as middle bs : List Char) {m n : Nat} (hm : m ≤ byteLength as) :
    slice? (as ++ middle ++ bs) ⟨m, byteLength (as ++ middle) + n⟩ =
      (cut? m as).bind fun p => (cut? n bs).map fun q => p.2 ++ middle ++ q.1 := by
  rw [slice?_eq, byteLength_append, if_pos (by simp only; omega), List.append_assoc,
    cut?_of_le hm]
  cases hcut : cut? m as with
  | none => rfl
  | some p =>
    have hlen := congrArg byteLength (append_of_cut? hcut)
    rw [byteLength_append, byteLength_of_cut? hcut] at hlen
    have hstop : byteLength as + byteLength middle + n - m = byteLength (p.2 ++ middle) + n := by
      rw [byteLength_append]
      omega
    simp only [Option.map_some, Option.bind_some, hstop, ← List.append_assoc, cut?_length_add,
      Option.map_map]
    rfl

theorem slice?_length {before middle : List Char} {s : Span} (hstart : byteLength before = s.start)
    (hstop : s.start + byteLength middle = s.stop) (rest : List Char) :
    slice? (before ++ middle ++ rest) s = some middle := by
  have hcut := cut?_length before []
  rw [List.append_nil] at hcut
  have h := slice?_around before middle rest (n := 0) (Nat.le_refl (byteLength before))
  rw [hcut, byteLength_append, hstart, Nat.add_zero, hstop] at h
  rw [h, cut?]
  simp

/-- What can be sliced is what lies between two boundaries that are in order. -/
theorem isSome_slice?_iff {cs : List Char} {s : Span} : (slice? cs s).isSome ↔
    s.start ≤ s.stop ∧ IsBoundary cs s.start ∧ IsBoundary cs s.stop := by
  constructor
  · intro h
    obtain ⟨middle, hmiddle⟩ := Option.isSome_iff_exists.mp h
    obtain ⟨before, rest, rfl, hstart, hstop⟩ := slice?_eq_some hmiddle
    refine ⟨by omega, ⟨before, middle ++ rest, List.append_assoc .., hstart⟩, ?_⟩
    exact ⟨before ++ middle, rest, rfl, by rw [byteLength_append, hstart, hstop]⟩
  · rintro ⟨hle, ⟨before, rest, rfl, hstart⟩, ⟨before', rest', h, hstop⟩⟩
    obtain ⟨middle, rfl⟩ := prefix_of_byteLength_le h (by omega)
    rw [byteLength_append, hstart] at hstop
    rw [h, slice?_length hstart hstop, Option.isSome_some]

theorem replace?_eq (cs new : List Char) (s : Span) : replace? cs s new =
    if s.start ≤ s.stop then (cut? s.start cs).bind fun p =>
      (cut? (s.stop - s.start) p.2).map fun q => p.1 ++ new ++ q.2 else none := by
  rw [replace?]
  split_ifs
  · cases cut? s.start cs with
    | none => rfl
    | some p => cases hq : cut? (s.stop - s.start) p.2 <;> simp [hq]
  · rfl

theorem isSome_replace? (cs new : List Char) (s : Span) :
    (replace? cs s new).isSome = (slice? cs s).isSome := by
  rw [replace?, slice?]
  split_ifs
  · cases cut? s.start cs with
    | none => rfl
    | some p => cases hq : cut? (s.stop - s.start) p.2 <;> simp [hq]
  · rfl

theorem replace?_length (before covered rest new : List Char) :
    replace? (before ++ covered ++ rest)
      ⟨byteLength before, byteLength before + byteLength covered⟩ new =
      some (before ++ new ++ rest) := by
  rw [replace?, if_pos (Nat.le_add_right _ _), Nat.add_sub_cancel_left, List.append_assoc,
    cut?_length]
  simp [cut?_length]

theorem replace?_within (before cs after new : List Char) {m n : Nat} (hn : n ≤ byteLength cs) :
    replace? (before ++ cs ++ after) ⟨byteLength before + m, byteLength before + n⟩ new =
      (replace? cs ⟨m, n⟩ new).map fun out => before ++ out ++ after := by
  rw [replace?_eq, replace?_eq]
  simp only [Nat.add_le_add_iff_left, Nat.add_sub_add_left]
  split_ifs with hmn
  · rw [List.append_assoc, cut?_length_add, cut?_of_le (Nat.le_trans hmn hn)]
    cases hcut : cut? m cs with
    | none => rfl
    | some p =>
      have hlen := congrArg byteLength (append_of_cut? hcut)
      rw [byteLength_append, byteLength_of_cut? hcut] at hlen
      have hrest : n - m ≤ byteLength p.2 := by omega
      simp only [Option.map_some, Option.bind_some, cut?_of_le hrest, Option.map_map]
      refine Option.map_congr fun q _ => ?_
      simp only [Function.comp_apply, List.append_assoc]
  · rfl

theorem replace?_eq_some {cs new out : List Char} {s : Span} (h : replace? cs s new = some out) :
    ∃ before covered rest, cs = before ++ covered ++ rest ∧ out = before ++ new ++ rest ∧
      byteLength before = s.start ∧ s.start + byteLength covered = s.stop := by
  rw [replace?] at h
  split_ifs at h with hs
  obtain ⟨⟨before, rest⟩, hcut, h⟩ := Option.bind_eq_some_iff.mp h
  obtain ⟨⟨covered, after⟩, hcut', h⟩ := Option.bind_eq_some_iff.mp h
  obtain rfl := Option.some.inj h
  refine ⟨before, covered, after, ?_, rfl, byteLength_of_cut? hcut, ?_⟩
  · rw [List.append_assoc, append_of_cut? hcut', append_of_cut? hcut]
  · rw [byteLength_of_cut? hcut']
    omega

end FactoryLint.Text
