import FactoryLint.Proofs.Edit.Splice

namespace FactoryLint.Edit

/-- The spans have a byte in common, or an empty one lies within the other. -/
def Overlaps (a b : Edit) : Prop :=
  a.span.start < b.span.stop ∧ b.span.start < a.span.stop

def InBounds (length : Nat) (e : Edit) : Prop :=
  e.span.start ≤ e.span.stop ∧ e.span.stop ≤ length

/-- Every edit is in bounds, and no two overlap. -/
structure Fits (length : Nat) (es : List Edit) : Prop where
  inBounds : ∀ e ∈ es, e.InBounds length
  apart : es.Pairwise fun a b => ¬a.Overlaps b

/-- An edit with an empty span shares its start with no other edit. -/
def InsertsAlone (es : List Edit) : Prop :=
  es.Pairwise fun a b =>
    a.span.start = a.span.stop ∨ b.span.start = b.span.stop → a.span.start ≠ b.span.start

inductive Faulty (length : Nat) (before : List Edit) (e : Edit) : EditError → Prop
  | outOfBounds : ¬e.InBounds length → Faulty length before e (.outOfBounds e.span length)
  | overlap (x : Edit) : e.InBounds length → x ∈ before → x.Overlaps e →
    Faulty length before e (.overlap e.span.start)

variable {length : Nat} {a b e : Edit} {before after es es' : List Edit} {fault : EditError}

theorem Overlaps.symm (h : a.Overlaps b) : b.Overlaps a := ⟨h.2, h.1⟩

theorem Fits.perm (h : Fits length es) (hperm : es.Perm es') : Fits length es' where
  inBounds e he := h.inBounds e (hperm.mem_iff.mpr he)
  apart := (hperm.pairwise_iff fun hab => mt Overlaps.symm hab).mp h.apart

theorem Fits.concat (h : Fits length es) (he : e.InBounds length)
    (hapart : ∀ x ∈ es, ¬x.Overlaps e) : Fits length (es ++ [e]) where
  inBounds := List.forall_mem_append.mpr ⟨h.inBounds, List.forall_mem_singleton.mpr he⟩
  apart := by
    refine List.pairwise_append.mpr ⟨h.apart, List.pairwise_singleton _ _, fun x hx y hy => ?_⟩
    rw [List.mem_singleton.mp hy]
    exact hapart x hx

theorem InsertsAlone.perm (h : InsertsAlone es) (hperm : es.Perm es') : InsertsAlone es' :=
  (hperm.pairwise_iff fun hab hempty => (hab hempty.symm).symm).mp h

theorem Faulty.not_fits (h : Faulty length before e fault) :
    ¬Fits length (before ++ e :: after) := by
  intro hfits
  cases h with
  | outOfBounds hout =>
    exact hout (hfits.inBounds e (List.mem_append_right _ List.mem_cons_self))
  | overlap x _ hx hxe =>
    exact (List.pairwise_append.mp hfits.apart).2.2 x hx e List.mem_cons_self hxe

theorem overlaps_iff (hafter : a.StartsAfter b) (ha : a.InBounds length)
    (halone : a.span.start = a.span.stop ∨ b.span.start = b.span.stop →
      a.span.start ≠ b.span.start) : a.Overlaps b ↔ a.span.start < b.span.stop := by
  unfold StartsAfter at hafter
  unfold InBounds at ha
  unfold Overlaps
  omega

theorem firstFault_cases {next : Option Nat} (hdesc : (before ++ es).Pairwise StartsAfter)
    (halone : InsertsAlone (before ++ es)) (hfits : Fits length before)
    (hnext : ∀ k, next.any (· < k) ↔ ∃ x ∈ before, x.span.start < k) :
    (firstFault length next es = none ∧ Fits length (before ++ es)) ∨
      ∃ mid e after fault, es = mid ++ e :: after ∧ Fits length (before ++ mid) ∧
        Faulty length (before ++ mid) e fault ∧ firstFault length next es = some fault := by
  induction es generalizing before next with
  | nil =>
    rw [List.append_nil]
    exact Or.inl ⟨rfl, hfits⟩
  | cons e es ih =>
    have hafter : ∀ x ∈ before, x.StartsAfter e := fun x hx =>
      (List.pairwise_append.mp hdesc).2.2 x hx e List.mem_cons_self
    have hoverlaps : ∀ x ∈ before, x.Overlaps e ↔ x.span.start < e.span.stop := fun x hx =>
      overlaps_iff (hafter x hx) (hfits.inBounds x hx)
        ((List.pairwise_append.mp halone).2.2 x hx e List.mem_cons_self)
    rw [firstFault]
    split_ifs with hout hnear
    · refine Or.inr ⟨[], e, es, _, rfl, (List.append_nil before).symm ▸ hfits, ?_, rfl⟩
      refine .outOfBounds fun hin => ?_
      unfold InBounds at hin
      omega
    · have hin : e.InBounds length := ⟨by omega, by omega⟩
      obtain ⟨x, hx, hlt⟩ := (hnext _).mp hnear
      refine Or.inr ⟨[], e, es, _, rfl, (List.append_nil before).symm ▸ hfits, ?_, rfl⟩
      rw [List.append_nil]
      exact .overlap x hin hx ((hoverlaps x hx).mpr hlt)
    · have hin : e.InBounds length := ⟨by omega, by omega⟩
      have hfits' : Fits length (before ++ [e]) := hfits.concat hin fun x hx hover =>
        hnear ((hnext _).mpr ⟨x, hx, (hoverlaps x hx).mp hover⟩)
      have hnext' : ∀ k, (some e.span.start).any (· < k) ↔
          ∃ x ∈ before ++ [e], x.span.start < k := by
        intro k
        rw [Option.any_some, decide_eq_true_eq]
        constructor
        · exact fun hk => ⟨e, by simp, hk⟩
        · rintro ⟨x, hx, hk⟩
          rcases List.mem_append.mp hx with hx | hx
          · exact Nat.lt_of_le_of_lt (hafter x hx) hk
          · rwa [List.mem_singleton.mp hx] at hk
      rw [List.append_cons] at hdesc halone ⊢
      rcases ih hdesc halone hfits' hnext' with h | ⟨mid, x, after, fault, hes, h⟩
      · exact Or.inl h
      · refine Or.inr ⟨e :: mid, x, after, fault, by rw [hes, List.cons_append], ?_⟩
        rwa [List.append_cons]

/-- Either the edits fit, or the fault is that of the first edit, back to front, that is out of
bounds or overlaps one before it. -/
theorem firstFault_backToFront (length : Nat) (halone : InsertsAlone es) :
    (firstFault length none (backToFront es) = none ∧ Fits length es) ∨
      ∃ before e after fault, backToFront es = before ++ e :: after ∧ Fits length before ∧
        Faulty length before e fault ∧
        firstFault length none (backToFront es) = some fault := by
  have hnone : ∀ k, (none : Option Nat).any (· < k) ↔ ∃ x ∈ ([] : List Edit), x.span.start < k := by
    simp
  have hnil : Fits length [] := ⟨by simp, .nil⟩
  have hcases := firstFault_cases (pairwise_backToFront es)
    (halone.perm (backToFront_perm es).symm) hnil hnone
  exact hcases.imp_left fun h => ⟨h.1, h.2.perm (backToFront_perm es)⟩

theorem Fits.pairwise_apart (hfits : Fits length es) (halone : InsertsAlone es) :
    (backToFront es).Pairwise fun a b => (a.StartsAfter b ∧ (a.span.start = a.span.stop ∨
      b.span.start = b.span.stop → a.span.start ≠ b.span.start)) ∧
      b.span.stop ≤ a.span.start := by
  have hordered := hfits.perm (backToFront_perm es).symm
  have hdesc := (pairwise_backToFront es).and (halone.perm (backToFront_perm es).symm)
  refine (hdesc.and hordered.apart).imp_of_mem fun ha _ h => ⟨h.1, ?_⟩
  rw [overlaps_iff h.1.1 (hordered.inBounds _ ha) h.1.2] at h
  exact Nat.le_of_not_lt h.2

theorem Fits.pairwise_endsBefore (hfits : Fits length es) (halone : InsertsAlone es) :
    (backToFront es).reverse.Pairwise EndsBefore :=
  List.pairwise_reverse.mpr ((hfits.pairwise_apart halone).imp fun h => h.2)

theorem Fits.backToFront_eq (hfits : Fits length es) (halone : InsertsAlone es)
    (hperm : es'.Perm es) : backToFront es' = backToFront es := by
  refine backToFront_eq_of_perm (hperm.trans (backToFront_perm es).symm) ?_
  have hordered := hfits.perm (backToFront_perm es).symm
  refine (hfits.pairwise_apart halone).imp_of_mem fun ha hb h => ?_
  have hin := hordered.inBounds _ ha
  have hin' := hordered.inBounds _ hb
  unfold StartsAfter at h
  unfold InBounds at hin hin'
  omega

end FactoryLint.Edit
