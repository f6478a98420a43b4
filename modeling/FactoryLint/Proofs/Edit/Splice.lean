import FactoryLint.Edit.Apply
import FactoryLint.Proofs.Text.Cut
import Mathlib.Data.List.Pairwise

namespace FactoryLint.Edit

open Text

/-- `out` is the text with the edits made one after another. The text begins at `offset`. -/
inductive Spliced : Nat → List Char → List Edit → List Char → Prop
  | nil (offset : Nat) (rest : List Char) : Spliced offset rest [] rest
  | cons (offset : Nat) (gap covered rest : List Char) (e : Edit) (es : List Edit)
    (out : List Char) :
    offset + byteLength gap = e.span.start → e.span.start + byteLength covered = e.span.stop →
    Spliced e.span.stop rest es out →
      Spliced offset (gap ++ covered ++ rest) (e :: es) (gap ++ e.replacement.toList ++ out)

def EndsBefore (e e' : Edit) : Prop := e.span.stop ≤ e'.span.start

def StartsAfter (a b : Edit) : Prop := b.span.start ≤ a.span.start

theorem backToFront_perm (es : List Edit) : (backToFront es).Perm es :=
  List.mergeSort_perm es _

theorem pairwise_backToFront (es : List Edit) : (backToFront es).Pairwise StartsAfter := by
  have hsorted : (backToFront es).Pairwise fun a b => decide (b.span.start ≤ a.span.start) := by
    refine List.pairwise_mergeSort (fun a b c => ?_) (fun a b => ?_) es
    · simp only [decide_eq_true_eq]
      omega
    · simp only [Bool.or_eq_true, decide_eq_true_eq]
      omega
  exact hsorted.imp fun hab => of_decide_eq_true hab

theorem backToFront_eq_of_perm {es ordered : List Edit} (hperm : es.Perm ordered)
    (h : ordered.Pairwise fun a b => b.span.start < a.span.start) : backToFront es = ordered := by
  have hinj : ∀ ⦃a⦄, a ∈ ordered → ∀ ⦃b⦄, b ∈ ordered → a.span.start = b.span.start → a = b :=
    List.Pairwise.forall_of_forall_of_flip (R := fun a b => a.span.start = b.span.start → a = b)
      (fun _ _ _ => rfl) (h.imp fun hab he => absurd he (Nat.ne_of_gt hab))
      (h.imp fun hab he => absurd he.symm (Nat.ne_of_gt hab))
  have hperm' := (backToFront_perm es).trans hperm
  refine hperm'.eq_of_pairwise (fun a b ha hb hab hba => ?_) (pairwise_backToFront es)
    (h.imp fun hab => Nat.le_of_lt hab)
  exact hinj (hperm'.mem_iff.mp ha) hb (Nat.le_antisymm hba hab)

theorem backToFront_eq_reverse {es : List Edit} (h : es.Pairwise EndsBefore)
    (hpos : ∀ e ∈ es, e.span.start < e.span.stop) : backToFront es = es.reverse := by
  have hlt : es.Pairwise fun a b => a.span.start < b.span.start :=
    h.imp_of_mem fun {a b} ha _ hab => Nat.lt_of_lt_of_le (hpos a ha) hab
  exact backToFront_eq_of_perm es.reverse_perm.symm (List.pairwise_reverse.mpr hlt)

theorem firstFault_eq_none {length : Nat} {next : Option Nat} {es : List Edit}
    (h : es.Pairwise fun e e' => e'.EndsBefore e)
    (hfit : ∀ e ∈ es, e.span.start ≤ e.span.stop ∧ e.span.stop ≤ length)
    (hnext : ∀ n ∈ next, ∀ e ∈ es, e.span.stop ≤ n) : firstFault length next es = none := by
  induction es generalizing next with
  | nil => rfl
  | cons e es ih =>
    obtain ⟨he, hes⟩ := List.pairwise_cons.mp h
    obtain ⟨hstart, hstop⟩ := hfit e List.mem_cons_self
    have hn : ¬next.any (· < e.span.stop) := by
      rw [Option.any_eq_true]
      rintro ⟨n, hn, hlt⟩
      exact Nat.not_lt.mpr (hnext n hn e List.mem_cons_self) (of_decide_eq_true hlt)
    rw [firstFault, if_neg (by omega), if_neg hn]
    exact ih hes (fun x hx => hfit x (List.mem_cons_of_mem _ hx)) fun n hn x hx =>
      Option.some.inj hn ▸ he x hx

/-- Edits without a fault end before those that come ahead of them. -/
theorem pairwise_of_firstFault {length : Nat} {next : Option Nat} {es : List Edit}
    (h : firstFault length next es = none) : es.Pairwise (fun e e' => e'.EndsBefore e) ∧
      (∀ e ∈ es, e.span.start ≤ e.span.stop ∧ e.span.stop ≤ length) ∧
      ∀ n ∈ next, ∀ e ∈ es, e.span.stop ≤ n := by
  induction es generalizing next with
  | nil => exact ⟨.nil, by simp, by simp⟩
  | cons e es ih =>
    rw [firstFault] at h
    split_ifs at h with hout hnear
    obtain ⟨hpairwise, hfit, hnext⟩ := ih h
    refine ⟨hpairwise.cons fun x hx => hnext _ rfl x hx, ?_, ?_⟩
    · exact List.forall_mem_cons.mpr ⟨⟨by omega, by omega⟩, hfit⟩
    · intro n hn
      have hle : e.span.stop ≤ n := by
        by_contra hlt
        exact hnear ((Option.any_eq_true ..).mpr ⟨n, hn, decide_eq_true (by omega)⟩)
      refine List.forall_mem_cons.mpr ⟨hle, fun x hx => ?_⟩
      have hx := hnext _ rfl x hx
      omega

theorem spliceAll_append (cs : List Char) (es fs : List Edit) :
    spliceAll cs (es ++ fs) = (spliceAll cs es).bind fun out => spliceAll out fs := by
  induction es generalizing cs with
  | nil => rfl
  | cons e es ih =>
    rw [List.cons_append, spliceAll, spliceAll]
    split
    · exact ih _
    · rfl

theorem of_apply_eq_ok {source text : String} {es : List Edit} (h : apply source es = .ok text) :
    firstFault (byteLength source.toList) none (backToFront es) = none ∧
      spliceAll source.toList (backToFront es) = .ok text.toList := by
  rw [apply] at h
  cases hfault : firstFault (byteLength source.toList) none (backToFront es) with
  | some fault =>
    simp only [hfault] at h
    cases h
  | none =>
    simp only [hfault] at h
    cases hs : spliceAll source.toList (backToFront es) with
    | error fault =>
      rw [hs] at h
      cases h
    | ok out =>
      rw [hs] at h
      cases h
      rw [String.toList_ofList]
      exact ⟨rfl, rfl⟩

theorem exists_spliceAll_reverse {before rest : List Char} {es : List Edit}
    (h : es.Pairwise EndsBefore) (hstart : ∀ e ∈ es, byteLength before ≤ e.span.start)
    (hfit : ∀ e ∈ es, (slice? (before ++ rest) e.span).isSome) :
    ∃ out, spliceAll (before ++ rest) es.reverse = .ok (before ++ out) ∧
      Spliced (byteLength before) rest es out := by
  induction es generalizing before rest with
  | nil => exact ⟨rest, rfl, .nil _ _⟩
  | cons e es ih =>
    obtain ⟨he, hes⟩ := List.pairwise_cons.mp h
    obtain ⟨covered, hcovered⟩ := Option.isSome_iff_exists.mp (hfit e List.mem_cons_self)
    have hle := hstart e List.mem_cons_self
    have hforward : e.span.start ≤ e.span.stop := by
      obtain ⟨_, _, -, -, hstop⟩ := slice?_eq_some hcovered
      omega
    -- The span is read off what comes after `before`.
    have hspan : e.span = ⟨byteLength before + (e.span.start - byteLength before),
        byteLength before + (e.span.stop - byteLength before)⟩ := by
      rw [Nat.add_sub_cancel' hle, Nat.add_sub_cancel' (Nat.le_trans hle hforward)]
    rw [hspan, slice?_length_add before rest ⟨_, _⟩] at hcovered
    obtain ⟨gap, rest, rfl, hgap, hlen⟩ := slice?_eq_some hcovered
    simp only at hgap hlen
    have hsplit : before ++ (gap ++ covered ++ rest) = before ++ gap ++ covered ++ rest := by
      simp only [List.append_assoc]
    have hstop : byteLength (before ++ gap ++ covered) = e.span.stop := by
      simp only [byteLength_append]
      omega
    rw [hsplit] at hfit ⊢
    obtain ⟨out, hout, hspliced⟩ := ih hes (fun x hx => hstop ▸ he x hx)
      fun x hx => hfit x (List.mem_cons_of_mem _ hx)
    have hreplace : replace? (before ++ gap ++ covered ++ out) e.span e.replacement.toList =
        some (before ++ gap ++ e.replacement.toList ++ out) := by
      have hspan' : e.span = ⟨byteLength (before ++ gap),
          byteLength (before ++ gap) + byteLength covered⟩ := by
        rw [← byteLength_append, hstop, byteLength_append, hgap, Nat.add_sub_cancel' hle]
      rw [hspan']
      exact replace?_length _ _ _ _
    refine ⟨gap ++ e.replacement.toList ++ out, ?_, .cons _ _ _ _ _ _ _ ?_ ?_ (hstop ▸ hspliced)⟩
    · rw [List.reverse_cons, spliceAll_append, hout]
      change spliceAll (before ++ gap ++ covered ++ out) [e] = _
      rw [spliceAll, hreplace]
      simp only [spliceAll, List.append_assoc]
    · omega
    · omega

theorem exists_spliceAll {cs : List Char} {es : List Edit} (h : es.Pairwise EndsBefore)
    (hfit : ∀ e ∈ es, (slice? cs e.span).isSome) :
    ∃ out, spliceAll cs es.reverse = .ok out ∧ Spliced 0 cs es out := by
  have hstart : ∀ e ∈ es, byteLength [] ≤ e.span.start := fun _ _ => Nat.zero_le _
  exact exists_spliceAll_reverse h hstart hfit

/-- Edits that stand in the text one after another are made, all of them. -/
theorem exists_apply_eq {source : String} {es : List Edit} (h : es.Pairwise EndsBefore)
    (hpos : ∀ e ∈ es, e.span.start < e.span.stop)
    (hfit : ∀ e ∈ es, (slice? source.toList e.span).isSome) :
    ∃ text, apply source es = .ok text ∧ Spliced 0 source.toList es text.toList := by
  obtain ⟨out, hout, hspliced⟩ := exists_spliceAll h hfit
  have hbounds : ∀ e ∈ es.reverse, e.span.start ≤ e.span.stop ∧
      e.span.stop ≤ byteLength source.toList := by
    intro e he
    obtain ⟨covered, hcovered⟩ := Option.isSome_iff_exists.mp (hfit e (List.mem_reverse.mp he))
    obtain ⟨before, rest, htext, hstart, hstop⟩ := slice?_eq_some hcovered
    rw [htext, byteLength_append, byteLength_append]
    omega
  have hfault : firstFault (byteLength source.toList) none es.reverse = none :=
    firstFault_eq_none (List.pairwise_reverse.mpr h) hbounds (by simp)
  refine ⟨.ofList out, ?_, ?_⟩
  · rw [apply]
    simp only [backToFront_eq_reverse h hpos, hfault, hout]
    rfl
  · rwa [String.toList_ofList]

end FactoryLint.Edit
