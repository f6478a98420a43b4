import FactoryLint.Proofs.Edit.Faults
import Mathlib.Algebra.BigOperators.Group.List.Basic
import Mathlib.Algebra.Ring.Int.Defs

namespace FactoryLint.Edit

open Text

variable {cs : List Char} {es : List Edit}

/-- Both ends of the span lie between characters. -/
def OnBoundaries (cs : List Char) (e : Edit) : Prop :=
  IsBoundary cs e.span.start ∧ IsBoundary cs e.span.stop

theorem spliceAll_cases (cs : List Char) (es : List Edit) : (∃ out, spliceAll cs es = .ok out) ∨
    ∃ span, spliceAll cs es = .error (.offBoundary span) := by
  induction es generalizing cs with
  | nil => exact Or.inl ⟨cs, rfl⟩
  | cons e es ih =>
    rw [spliceAll]
    split
    · exact ih _
    · exact Or.inr ⟨e.span, rfl⟩

theorem exists_spliceAll_iff (h : es.Pairwise fun e e' => e'.EndsBefore e) :
    (∃ out, spliceAll cs es = .ok out) ↔ ∀ e ∈ es, (slice? cs e.span).isSome := by
  induction es generalizing cs with
  | nil => simp [spliceAll]
  | cons e es ih =>
    obtain ⟨he, hes⟩ := List.pairwise_cons.mp h
    rw [List.forall_mem_cons, ← isSome_replace? cs e.replacement.toList, spliceAll]
    cases hreplace : replace? cs e.span e.replacement.toList with
    | none => simp
    | some cs' =>
      obtain ⟨before, covered, rest, rfl, rfl, hstart, -⟩ := replace?_eq_some hreplace
      have hsame : ∀ x ∈ es, slice? (before ++ e.replacement.toList ++ rest) x.span =
          slice? (before ++ covered ++ rest) x.span := by
        intro x hx
        have hstop : x.span.stop ≤ byteLength before := hstart ▸ he x hx
        rw [List.append_assoc, slice?_of_le hstop, List.append_assoc, slice?_of_le hstop]
      simp only [Option.isSome_some, true_and]
      rw [ih hes]
      exact forall₂_congr fun x hx => by rw [hsame x hx]

theorem Spliced.length_eq {offset : Nat} {rest out : List Char} (h : Spliced offset rest es out) :
    (byteLength out : Int) = byteLength rest +
      (es.map fun e => (byteLength e.replacement.toList : Int) - e.span.length).sum := by
  induction h with
  | nil => simp
  | cons offset gap covered rest e es out hstart hstop _ ih =>
    have hlength : (e.span.length : Int) = byteLength covered := by
      rw [Span.length]
      omega
    rw [List.map_cons, List.sum_cons, hlength]
    simp only [byteLength_append]
    omega

/-- What comes of edits that are all made at once, or not at all. -/
structure AllAtOnce (source : String) (es : List Edit) : Prop where
  fault_iff : (∃ fault, apply source es = .error fault ∧ ∀ span, fault ≠ .offBoundary span) ↔
    ¬Fits (byteLength source.toList) es
  /-- The fault is that of the first edit, back to front, that has one. -/
  first_fault : ¬Fits (byteLength source.toList) es → ∃ before e after fault,
    backToFront es = before ++ e :: after ∧ Fits (byteLength source.toList) before ∧
      Faulty (byteLength source.toList) before e fault ∧ apply source es = .error fault
  offBoundary_iff : Fits (byteLength source.toList) es →
    ((∃ span, apply source es = .error (.offBoundary span)) ↔
      ∃ e ∈ es, ¬e.OnBoundaries source.toList)
  spliced : Fits (byteLength source.toList) es → (∀ e ∈ es, e.OnBoundaries source.toList) →
    ∃ ascending text, ascending.Perm es ∧ ascending.Pairwise EndsBefore ∧
      apply source es = .ok text ∧ Spliced 0 source.toList ascending text.toList ∧
      (byteLength text.toList : Int) = byteLength source.toList +
        (es.map fun e => (byteLength e.replacement.toList : Int) - e.span.length).sum
  perm : ∀ es' : List Edit, es'.Perm es → ∀ text, apply source es' = .ok text ↔
    apply source es = .ok text

theorem apply_of_fits {source : String} (halone : InsertsAlone es)
    (hfits : Fits (byteLength source.toList) es) :
    apply source es = (spliceAll source.toList (backToFront es)).map String.ofList := by
  rw [apply]
  rcases firstFault_backToFront (byteLength source.toList) halone with
    ⟨hnone, -⟩ | ⟨before, e, after, fault, horder, -, hfault, -⟩
  · simp only [hnone]
  · have hordered := hfits.perm (backToFront_perm es).symm
    exact absurd (horder ▸ hordered) hfault.not_fits

theorem exists_fault {source : String} (halone : InsertsAlone es)
    (hfits : ¬Fits (byteLength source.toList) es) : ∃ before e after fault,
      backToFront es = before ++ e :: after ∧ Fits (byteLength source.toList) before ∧
        Faulty (byteLength source.toList) before e fault ∧ apply source es = .error fault := by
  rcases firstFault_backToFront (byteLength source.toList) halone with
    ⟨-, hfits'⟩ | ⟨before, e, after, fault, horder, hbefore, hfault, hsome⟩
  · exact absurd hfits' hfits
  · exact ⟨before, e, after, fault, horder, hbefore, hfault, by rw [apply, hsome]⟩

theorem Faulty.ne_offBoundary {length : Nat} {before : List Edit} {e : Edit} {fault : EditError}
    (h : Faulty length before e fault) (span : Span) : fault ≠ .offBoundary span := by
  cases h <;> simp

theorem slice?_iff_onBoundaries {length : Nat} (hfits : Fits length es) :
    (∀ e ∈ backToFront es, (slice? cs e.span).isSome) ↔ ∀ e ∈ es, e.OnBoundaries cs := by
  simp only [(backToFront_perm es).mem_iff]
  refine forall₂_congr fun e he => ?_
  rw [isSome_slice?_iff, OnBoundaries]
  exact and_iff_right (hfits.inBounds e he).1

theorem exists_spliced {source : String} (halone : InsertsAlone es)
    (hfits : Fits (byteLength source.toList) es)
    (hon : ∀ e ∈ es, e.OnBoundaries source.toList) :
    ∃ text, apply source es = .ok text ∧
      Spliced 0 source.toList (backToFront es).reverse text.toList := by
  have hslices := (slice?_iff_onBoundaries hfits).mpr hon
  obtain ⟨out, hout, hspliced⟩ := exists_spliceAll (hfits.pairwise_endsBefore halone)
    fun e he => hslices e (List.mem_reverse.mp he)
  rw [List.reverse_reverse] at hout
  refine ⟨.ofList out, ?_, by rwa [String.toList_ofList]⟩
  rw [apply_of_fits halone hfits, hout]
  rfl

theorem exists_offBoundary_iff {source : String} (halone : InsertsAlone es)
    (hfits : Fits (byteLength source.toList) es) :
    (∃ span, apply source es = .error (.offBoundary span)) ↔
      ∃ e ∈ es, ¬e.OnBoundaries source.toList := by
  have hiff : (∃ out, spliceAll source.toList (backToFront es) = .ok out) ↔
      ∀ e ∈ backToFront es, (slice? source.toList e.span).isSome :=
    exists_spliceAll_iff (List.pairwise_reverse.mp (hfits.pairwise_endsBefore halone))
  rw [slice?_iff_onBoundaries hfits] at hiff
  rw [apply_of_fits halone hfits]
  constructor
  · rintro ⟨span, herror⟩
    by_contra hnone
    have hon : ∀ e ∈ es, e.OnBoundaries source.toList := fun e he =>
      Classical.not_not.mp fun hoff => hnone ⟨e, he, hoff⟩
    obtain ⟨out, hout⟩ := hiff.mpr hon
    rw [hout] at herror
    cases herror
  · rintro ⟨e, he, hoff⟩
    rcases spliceAll_cases source.toList (backToFront es) with hok | ⟨span, herror⟩
    · exact absurd (hiff.mp hok e he) hoff
    · exact ⟨span, by rw [herror]; rfl⟩

/-- A list in which no edit with an empty span shares its start with another one is applied as
a whole. -/
theorem apply_allAtOnce (source : String) (es : List Edit) (halone : InsertsAlone es) :
    AllAtOnce source es where
  fault_iff := by
    constructor
    · rintro ⟨fault, herror, hne⟩ hfits
      rw [apply_of_fits halone hfits] at herror
      rcases spliceAll_cases source.toList (backToFront es) with ⟨out, hout⟩ | ⟨span, hspan⟩
      · rw [hout] at herror
        cases herror
      · rw [hspan] at herror
        cases herror
        exact hne span rfl
    · intro hfits
      obtain ⟨before, e, after, fault, -, -, hfault, herror⟩ := exists_fault halone hfits
      exact ⟨fault, herror, hfault.ne_offBoundary⟩
  first_fault := exists_fault halone
  offBoundary_iff := exists_offBoundary_iff halone
  spliced hfits hon := by
    obtain ⟨text, htext, hspliced⟩ := exists_spliced halone hfits hon
    have hperm := (backToFront es).reverse_perm.trans (backToFront_perm es)
    refine ⟨_, text, hperm, hfits.pairwise_endsBefore halone, htext, hspliced, ?_⟩
    rw [hspliced.length_eq, (hperm.map _).sum_eq]
  perm es' hperm text := by
    by_cases hfits : Fits (byteLength source.toList) es
    · rw [apply, apply, hfits.backToFront_eq halone hperm]
    · -- Neither list is applied, though not always for the same reason.
      have hfits' : ¬Fits (byteLength source.toList) es' := fun h => hfits (h.perm hperm)
      obtain ⟨_, _, _, _, -, -, -, herror⟩ := exists_fault halone hfits
      obtain ⟨_, _, _, _, -, -, -, herror'⟩ := exists_fault (halone.perm hperm.symm) hfits'
      rw [herror, herror']
      simp

def touching : List Edit :=
  [⟨⟨3, 3⟩, "!", ""⟩, ⟨⟨5, 7⟩, "fake()", ""⟩, ⟨⟨1, 3⟩, "e", ""⟩]

theorem apply_allAtOnce_touching : InsertsAlone touching ∧ AllAtOnce "[é, $x]" touching ∧
    apply "[é, $x]" touching = .ok "[e!, fake()]" := by
  have halone : InsertsAlone touching := by
    unfold InsertsAlone
    decide
  have horder : backToFront touching =
      [⟨⟨5, 7⟩, "fake()", ""⟩, ⟨⟨3, 3⟩, "!", ""⟩, ⟨⟨1, 3⟩, "e", ""⟩] := by
    simp [touching, backToFront, List.mergeSort, List.MergeSort.Internal.splitInTwo]
  refine ⟨halone, apply_allAtOnce "[é, $x]" touching halone, ?_⟩
  rw [apply, horder]
  rfl

end FactoryLint.Edit
