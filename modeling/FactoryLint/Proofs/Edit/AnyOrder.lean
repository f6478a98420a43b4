import FactoryLint.Proofs.Edit.Canonical
import FactoryLint.Proofs.Edit.Relabelled
import FactoryLint.Proofs.Text.ByteOrder
import Mathlib.Data.List.Sort
import Mathlib.Data.Prod.Basic

namespace FactoryLint.Edit

open Text

variable {a b e : Edit} {es es' : List Edit}

def key (e : Edit) : Nat × Nat × List UInt8 :=
  (e.span.start, e.span.stop, bytes e.replacement)

/-- Ordered by the start, then by the end, then by the bytes. -/
def KeyLt : Nat × Nat × List UInt8 → Nat × Nat × List UInt8 → Prop :=
  Prod.Lex (· < ·) (Prod.Lex (· < ·) (· < ·))

/-- `out` has the keys of `es` in ascending order, each with the edit that had it first. -/
structure Canonical (es out : List Edit) : Prop where
  ascending : (out.map key).Pairwise KeyLt
  mem_iff : ∀ k, k ∈ out.map key ↔ k ∈ es.map key
  first : ∀ e ∈ out, es.find? (fun x => x.key = e.key) = some e

theorem same_iff_key : a.Same b ↔ a.key = b.key := by
  rw [Same, key, key, Prod.mk.injEq, Prod.mk.injEq, bytes_injective.eq_iff]
  constructor
  · rintro ⟨hspan, htext⟩
    exact ⟨by rw [hspan], by rw [hspan], htext⟩
  · rintro ⟨hstart, hstop, htext⟩
    exact ⟨span_eq hstart hstop, htext⟩

theorem Before.keyLt (h : Before a b) : KeyLt a.key b.key := by
  obtain ⟨hprec, hne⟩ := h
  rw [KeyLt, key, key]
  rcases precedes_iff.mp hprec with hlt | ⟨hstart, hlt | ⟨hstop, hle⟩⟩
  · exact Prod.Lex.left _ _ hlt
  · rw [hstart]
    exact Prod.Lex.right _ (Prod.Lex.left _ _ hlt)
  · have hlt : a.replacement < b.replacement := by
      refine String.not_le.mp fun hle' => hne (same_of_precedes hprec (precedes_iff.mpr ?_))
      exact Or.inr ⟨hstart.symm, Or.inr ⟨hstop.symm, hle'⟩⟩
    rw [hstart, hstop]
    exact Prod.Lex.right _ (Prod.Lex.right _ (bytes_lt_of_lt hlt))

instance : Std.Asymm KeyLt :=
  inferInstanceAs (Std.Asymm (Prod.Lex _ (Prod.Lex _ _)))

theorem pairwise_map_key_canonical (es : List Edit) :
    ((canonical es).map key).Pairwise KeyLt :=
  List.pairwise_map.mpr ((pairwise_canonical es).imp Before.keyLt)

theorem mem_map_key_canonical (es : List Edit) (k : Nat × Nat × List UInt8) :
    k ∈ (canonical es).map key ↔ k ∈ es.map key := by
  simp only [List.mem_map]
  constructor
  · rintro ⟨e, he, rfl⟩
    exact ⟨e, mem_of_mem_canonical he, rfl⟩
  · rintro ⟨e, he, rfl⟩
    obtain ⟨x, hx, hs⟩ := exists_same_of_mem he
    exact ⟨x, hx, same_iff_key.mp hs⟩

/-- Sorting is stable: elements none of which comes before another keep their order. -/
theorem filter_mergeSort (p : Edit → Bool)
    (h : (es.filter p).Pairwise fun a b => precedes a b) :
    (es.mergeSort precedes).filter p = es.filter p := by
  have hsub := (List.sublist_mergeSort precedes_trans precedes_total h List.filter_sublist).filter p
  simp only [List.filter_filter, Bool.and_self] at hsub
  have hperm := (List.mergeSort_perm es precedes).filter p
  exact (hsub.eq_of_length hperm.length_eq.symm).symm

theorem find?_of_mem_dropRepeated (last : Option Edit) (es : List Edit)
    (hlast : ∀ x ∈ last, ∀ e ∈ es, precedes x e) (hes : es.Pairwise fun a b => precedes a b)
    (h : e ∈ dropRepeated last es) : es.find? (fun x => x.key = e.key) = some e := by
  fun_induction dropRepeated last es with
  | case1 => cases h
  | case2 last y es hy ih =>
    obtain ⟨x, hx, hs⟩ := (Option.any_eq_true ..).mp hy
    have hlast' : ∀ x ∈ last, ∀ e ∈ es, precedes x e := fun x hx e he =>
      hlast x hx e (List.mem_cons_of_mem _ he)
    have hbefore := (pairwise_dropRepeated last es hlast' hes.of_cons).2 x hx e h
    have hxy : x.key = y.key := same_iff_key.mp (of_decide_eq_true hs)
    have hne : y.key ≠ e.key := fun heq => hbefore.2 (same_iff_key.mpr (hxy.trans heq))
    rw [List.find?_cons_of_neg (by simpa using hne)]
    exact ih hlast' hes.of_cons h
  | case3 last y es hy ih =>
    obtain ⟨hys, hes⟩ := List.pairwise_cons.mp hes
    have hlast' : ∀ x ∈ some y, ∀ e ∈ es, precedes x e := fun x hx e he =>
      Option.some.inj hx ▸ hys e he
    rcases List.mem_cons.mp h with rfl | h
    · exact List.find?_cons_of_pos (by simp)
    · have hbefore := (pairwise_dropRepeated (some y) es hlast' hes).2 y rfl e h
      have hne : y.key ≠ e.key := fun heq => hbefore.2 (same_iff_key.mpr heq)
      rw [List.find?_cons_of_neg (by simpa using hne)]
      exact ih hlast' hes h

theorem find?_of_mem_canonical (h : e ∈ canonical es) :
    es.find? (fun x => x.key = e.key) = some e := by
  have hsorted := find?_of_mem_dropRepeated none (es.mergeSort precedes) (by simp)
    (List.pairwise_mergeSort precedes_trans precedes_total es) h
  have hties : (es.filter fun x => x.key = e.key).Pairwise fun a b => precedes a b := by
    refine List.pairwise_of_forall_mem_list fun a ha b hb => ?_
    have hkey : b.key = a.key :=
      (of_decide_eq_true (List.mem_filter.mp hb).2).trans
        (of_decide_eq_true (List.mem_filter.mp ha).2).symm
    exact (same_iff_key.mpr hkey).precedes
  rw [← List.head?_filter] at hsorted ⊢
  rwa [filter_mergeSort _ hties] at hsorted

theorem exists_relabel_eq (message : String) :
    ∃ f : Nat × Nat × List UInt8 → Edit, ∀ e : Edit, e.relabel message = f e.key := by
  obtain ⟨text, htext⟩ := bytes_injective.hasLeftInverse
  refine ⟨fun k => ⟨⟨k.1, k.2.1⟩, text k.2.2, message⟩, fun e => ?_⟩
  simp only [relabel, key, htext e.replacement]

theorem apply_eq_of_map_key_eq (h : es.map key = es'.map key) (source : String) :
    apply source es = apply source es' := by
  obtain ⟨f, hf⟩ := exists_relabel_eq ""
  have hmap : ∀ l : List Edit, l.map (relabel "") = (l.map key).map f := fun l => by
    rw [List.map_map]
    exact List.map_congr_left fun e _ => hf e
  rw [← apply_map_relabel "" es, ← apply_map_relabel "" es', hmap, hmap, h]

theorem map_key_canonical_eq (h : ∀ k, k ∈ es.map key ↔ k ∈ es'.map key) :
    (canonical es).map key = (canonical es').map key := by
  refine (pairwise_map_key_canonical es).eq_of_mem_iff (pairwise_map_key_canonical es') fun k => ?_
  rw [mem_map_key_canonical, mem_map_key_canonical, h]

theorem canonical_eq_of_mem_iff {message : String} (hmessage : ∀ e ∈ es, e.message = message)
    (h : ∀ e, e ∈ es' ↔ e ∈ es) : canonical es' = canonical es := by
  obtain ⟨f, hf⟩ := exists_relabel_eq message
  have hread : ∀ l : List Edit, l ⊆ es → l = (l.map key).map f := fun l hl => by
    have hid : ∀ e ∈ l, id e = (f ∘ key) e := fun e he => by
      rw [Function.comp_apply, ← hf, ← hmessage e (hl he)]
      rfl
    rw [List.map_map, ← List.map_congr_left hid, List.map_id]
  have hkeys : (canonical es').map key = (canonical es).map key :=
    map_key_canonical_eq fun k => by simp only [List.mem_map, h]
  rw [hread (canonical es') fun e he => (h e).mp (mem_of_mem_canonical he),
    hread (canonical es) fun e he => mem_of_mem_canonical he, hkeys]

/-- The canonical form is in order and complete, and what it does is the same for all lists that
hold the same edits, in whatever order and however often. -/
theorem canonical_anyOrder (es : List Edit) :
    Canonical es (canonical es) ∧ canonical (canonical es) = canonical es ∧
      ∀ es' : List Edit, (∀ e, e ∈ es' ↔ e ∈ es) → ∀ source,
        apply source (canonical es') = apply source (canonical es) := by
  refine ⟨⟨?_, ?_, ?_⟩, ?_, ?_⟩
  · exact pairwise_map_key_canonical es
  · exact mem_map_key_canonical es
  · exact fun e he => find?_of_mem_canonical he
  · exact canonical_of_pairwise (pairwise_canonical es)
  · intro es' hmem source
    have hkeys : ∀ k, k ∈ es'.map key ↔ k ∈ es.map key := fun k => by
      simp only [List.mem_map, hmem]
    exact apply_eq_of_map_key_eq (map_key_canonical_eq hkeys) source

def interleaved : List Edit :=
  [⟨⟨1, 13⟩, "fake()", "a"⟩, ⟨⟨1, 13⟩, "other()", "b"⟩, ⟨⟨1, 13⟩, "fake()", "c"⟩]

theorem canonical_anyOrder_interleaved :
    (∀ e, e ∈ interleaved.reverse ++ interleaved ↔ e ∈ interleaved) ∧
      canonical interleaved = [⟨⟨1, 13⟩, "fake()", "a"⟩, ⟨⟨1, 13⟩, "other()", "b"⟩] ∧
      apply "[$this->faker]" (canonical (interleaved.reverse ++ interleaved)) =
        .error (.overlap 1) := by
  have hmem : ∀ e, e ∈ interleaved.reverse ++ interleaved ↔ e ∈ interleaved := fun e => by
    rw [List.mem_append, List.mem_reverse, or_self]
  have hsorted : interleaved.mergeSort precedes =
      [⟨⟨1, 13⟩, "fake()", "a"⟩, ⟨⟨1, 13⟩, "fake()", "c"⟩, ⟨⟨1, 13⟩, "other()", "b"⟩] := by
    simp [interleaved, precedes, List.mergeSort, List.MergeSort.Internal.splitInTwo]
  have hcanonical : canonical interleaved =
      [⟨⟨1, 13⟩, "fake()", "a"⟩, ⟨⟨1, 13⟩, "other()", "b"⟩] := by
    rw [canonical, hsorted]
    decide +kernel
  have horder : backToFront (canonical interleaved) = canonical interleaved := by
    simp [hcanonical, backToFront, List.mergeSort, List.MergeSort.Internal.splitInTwo]
  refine ⟨hmem, hcanonical, ?_⟩
  rw [(canonical_anyOrder interleaved).2.2 _ hmem, apply, horder, hcanonical]
  rfl

end FactoryLint.Edit
