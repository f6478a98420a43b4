namespace FactoryLint

/-- The bytes from offset `start` up to, but not including, offset `stop`. -/
structure Span where
  start : Nat
  stop : Nat
  deriving DecidableEq, Repr, Inhabited

namespace Span

def Inside (s t : Span) : Prop :=
  t.start ≤ s.start ∧ s.stop ≤ t.stop

instance (s t : Span) : Decidable (s.Inside t) :=
  inferInstanceAs (Decidable (_ ∧ _))

def length (s : Span) : Nat :=
  s.stop - s.start

/-- The span from the start of `s` to the end of `t`. -/
def through (s t : Span) : Span :=
  ⟨s.start, t.stop⟩

theorem Inside.refl (s : Span) : s.Inside s :=
  ⟨Nat.le_refl _, Nat.le_refl _⟩

theorem Inside.trans {s t u : Span} (h : s.Inside t) (h' : t.Inside u) : s.Inside u :=
  ⟨Nat.le_trans h'.1 h.1, Nat.le_trans h.2 h'.2⟩

end Span

end FactoryLint
