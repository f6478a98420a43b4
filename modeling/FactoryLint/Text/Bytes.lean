import FactoryLint.Text.Span

namespace FactoryLint.Text

def byteLength : List Char → Nat
  | [] => 0
  | c :: cs => c.utf8Size + byteLength cs

@[simp] theorem byteLength_append (as bs : List Char) :
    byteLength (as ++ bs) = byteLength as + byteLength bs := by
  induction as with
  | nil => simp [byteLength]
  | cons a as ih => simp [byteLength, ih, Nat.add_assoc]

/-- Cut a text at a byte offset. There is no cut inside a character or past the end. -/
def cut? : Nat → List Char → Option (List Char × List Char)
  | 0, cs => some ([], cs)
  | _ + 1, [] => none
  | n + 1, c :: cs =>
    if c.utf8Size ≤ n + 1 then
      (cut? (n + 1 - c.utf8Size) cs).map fun (before, rest) => (c :: before, rest)
    else none

theorem append_of_cut? {n : Nat} {cs before rest : List Char}
    (h : cut? n cs = some (before, rest)) : before ++ rest = cs := by
  fun_induction cut? n cs generalizing before rest with
  | case1 => simp_all
  | case2 => simp at h
  | case3 n c cs hc ih =>
    obtain ⟨⟨b, r⟩, hb, he⟩ := Option.map_eq_some_iff.1 h
    cases he
    simp [ih hb]
  | case4 => simp at h

theorem byteLength_of_cut? {n : Nat} {cs before rest : List Char}
    (h : cut? n cs = some (before, rest)) : byteLength before = n := by
  fun_induction cut? n cs generalizing before rest with
  | case1 => simp_all [byteLength]
  | case2 => simp at h
  | case3 n c cs hc ih =>
    obtain ⟨⟨b, r⟩, hb, he⟩ := Option.map_eq_some_iff.1 h
    cases he
    simp [byteLength, ih hb]
    omega
  | case4 => simp at h

/-- The characters of a span, if it is in order, within the text and on character boundaries. -/
def slice? (cs : List Char) (s : Span) : Option (List Char) :=
  if s.start ≤ s.stop then do
    let (_, rest) ← cut? s.start cs
    let (middle, _) ← cut? (s.stop - s.start) rest
    return middle
  else none

/-- Put `new` in the place of a span, under the conditions of `slice?`. -/
def replace? (cs : List Char) (s : Span) (new : List Char) : Option (List Char) :=
  if s.start ≤ s.stop then do
    let (before, rest) ← cut? s.start cs
    let (_, after) ← cut? (s.stop - s.start) rest
    return before ++ new ++ after
  else none

end FactoryLint.Text
