import FactoryLint.Proofs.Text.Cut

namespace FactoryLint.Span

/-- Where an offset comes to lie when `place` gets `length` bytes. Offsets inside of `place` come to
lie at its end. -/
def shift (place : Span) (length n : Nat) : Nat :=
  if n ≤ place.start then n else place.start + length + (n - place.stop)

/-- Where a span comes to lie when `place` gets `length` bytes. -/
def moved (place : Span) (length : Nat) (s : Span) : Span :=
  ⟨place.shift length s.start, place.shift length s.stop⟩

/-- The span lies before `place`, after it or around it. -/
def Clear (place s : Span) : Prop :=
  s.stop ≤ place.start ∨ place.stop ≤ s.start ∨ place.Inside s

variable {place s t : Span} {length m n : Nat}

theorem shift_of_le (h : n ≤ place.start) : place.shift length n = n := if_pos h

theorem shift_of_ge (hplace : place.start < place.stop) (h : place.stop ≤ n) :
    place.shift length n = place.start + length + (n - place.stop) :=
  if_neg (Nat.not_le.mpr (Nat.lt_of_lt_of_le hplace h))

theorem shift_le_shift (h : m ≤ n) : place.shift length m ≤ place.shift length n := by
  unfold shift
  split_ifs <;> omega

theorem le_of_shift_le_shift (hlength : 0 < length) (hn : n ≤ place.start ∨ place.stop ≤ n)
    (h : place.shift length m ≤ place.shift length n) : m ≤ n := by
  unfold shift at h
  split_ifs at h <;> omega

theorem moved_place (hplace : place.start < place.stop) :
    place.moved length place = ⟨place.start, place.start + length⟩ := by
  rw [moved, shift_of_le (Nat.le_refl _), shift_of_ge hplace (Nat.le_refl _), Nat.sub_self,
    Nat.add_zero]

theorem moved_of_le (hs : s.start ≤ s.stop) (h : s.stop ≤ place.start) :
    place.moved length s = s := by
  rw [moved, shift_of_le h, shift_of_le (Nat.le_trans hs h)]

theorem Inside.moved (h : s.Inside t) : (place.moved length s).Inside (place.moved length t) :=
  ⟨shift_le_shift h.1, shift_le_shift h.2⟩

theorem Clear.endpoints (hs : s.start ≤ s.stop)
    (h : place.Clear s) : (s.start ≤ place.start ∨ place.stop ≤ s.start) ∧
      (s.stop ≤ place.start ∨ place.stop ≤ s.stop) := by
  unfold Clear Inside at h
  omega

section

variable (hlength : 0 < length) (hs : s.start ≤ s.stop) (hsc : place.Clear s)
  (ht : t.start ≤ t.stop) (htc : place.Clear t)
include hlength hs hsc ht htc

theorem moved_inside_moved : (place.moved length s).Inside (place.moved length t) ↔ s.Inside t := by
  obtain ⟨hs₁, -⟩ := hsc.endpoints hs
  obtain ⟨-, ht₂⟩ := htc.endpoints ht
  constructor
  · rintro ⟨h₁, h₂⟩
    exact ⟨le_of_shift_le_shift hlength hs₁ h₁, le_of_shift_le_shift hlength ht₂ h₂⟩
  · exact Inside.moved

theorem length_moved_lt (hplace : place.start < place.stop) (h : s.Inside t ∨ t.Inside s) :
    (place.moved length s).length < (place.moved length t).length ↔ s.length < t.length := by
  obtain ⟨hs₁, hs₂⟩ := hsc.endpoints hs
  obtain ⟨ht₁, ht₂⟩ := htc.endpoints ht
  simp only [moved, Span.length, shift, Inside] at *
  split_ifs <;> omega

end

end FactoryLint.Span

namespace FactoryLint.Text

variable {place s : Span} {before covered : List Char}

theorem slice?_moved (new rest : List Char) (hplace : place.start < place.stop)
    (hbefore : byteLength before = place.start)
    (hcovered : place.start + byteLength covered = place.stop) (hs : s.start ≤ s.stop)
    (h : s.stop ≤ place.start ∨ place.stop ≤ s.start) :
    slice? (before ++ new ++ rest) (place.moved (byteLength new) s) =
      slice? (before ++ covered ++ rest) s := by
  rcases h with h | h
  · rw [Span.moved_of_le hs h, List.append_assoc, List.append_assoc,
      slice?_of_le (hbefore ▸ h), slice?_of_le (hbefore ▸ h)]
  · have hnew := slice?_length_add (before ++ new) rest
      ⟨s.start - place.stop, s.stop - place.stop⟩
    have hold := slice?_length_add (before ++ covered) rest
      ⟨s.start - place.stop, s.stop - place.stop⟩
    simp only [byteLength_append, hbefore] at hnew hold
    rw [hcovered, Nat.add_sub_cancel' h, Nat.add_sub_cancel' (Nat.le_trans h hs)] at hold
    rw [Span.moved, Span.shift_of_ge hplace h, Span.shift_of_ge hplace (Nat.le_trans h hs), hnew]
    exact hold.symm

theorem slice?_moved_around (new rest : List Char) (hplace : place.start < place.stop)
    (hbefore : byteLength before = place.start)
    (hcovered : place.start + byteLength covered = place.stop) (h : place.Inside s) :
    (slice? (before ++ covered ++ rest) s = none ∧
      slice? (before ++ new ++ rest) (place.moved (byteLength new) s) = none) ∨
    ∃ head tail, slice? (before ++ covered ++ rest) ⟨s.start, place.start⟩ = some head ∧
      slice? (before ++ covered ++ rest) s = some (head ++ covered ++ tail) ∧
      slice? (before ++ new ++ rest) (place.moved (byteLength new) s) =
        some (head ++ new ++ tail) := by
  have hstart : s.start ≤ byteLength before := hbefore ▸ h.1
  have hold := slice?_around before covered rest (n := s.stop - place.stop) hstart
  have hnew := slice?_around before new rest (n := s.stop - place.stop) hstart
  rw [byteLength_append, hbefore] at hold hnew
  rw [hcovered, Nat.add_sub_cancel' h.2] at hold
  rw [Span.moved, Span.shift_of_le h.1, Span.shift_of_ge hplace h.2, hnew]
  change slice? _ s = _ at hold
  rw [hold]
  cases hhead : cut? s.start before with
  | none => exact Or.inl ⟨rfl, rfl⟩
  | some p =>
    cases htail : cut? (s.stop - place.stop) rest with
    | none => exact Or.inl ⟨rfl, rfl⟩
    | some q =>
      refine Or.inr ⟨p.2, q.1, ?_, rfl, rfl⟩
      have hsplit := append_of_cut? hhead
      have hlen := congrArg byteLength hsplit
      rw [byteLength_append, byteLength_of_cut? hhead, hbefore] at hlen
      rw [← hsplit, List.append_assoc]
      exact slice?_length (s := ⟨s.start, place.start⟩) (byteLength_of_cut? hhead) hlen _

end FactoryLint.Text
