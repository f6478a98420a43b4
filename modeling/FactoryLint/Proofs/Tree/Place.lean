import FactoryLint.Proofs.Tree
import Mathlib.Data.List.Infix

namespace FactoryLint

abbrev Place := List Nat

namespace Tree

variable {α : Type}

def at? : Tree α → Place → Option α
  | node x _, [] => some x
  | node _ ts, i :: p => ts[i]?.bind fun t => t.at? p

/-- The label at a place of several trees, of which the first number chooses one. -/
def among? (ts : List (Tree α)) : Place → Option α
  | [] => none
  | i :: p => ts[i]?.bind fun t => t.at? p

mutual

def places : Tree α → List Place
  | node _ ts => [] :: placesFrom 0 ts

def placesFrom : Nat → List (Tree α) → List Place
  | _, [] => []
  | i, t :: ts => t.places.map (i :: ·) ++ placesFrom (i + 1) ts

end

def placesAmong (ts : List (Tree α)) : List Place := placesFrom 0 ts

/-- The labels that a walk comes to which goes on below those that it enters. -/
def walk (enter : α → Bool) : Tree α → List α
  | node x ts => x :: if enter x then ts.flatMap fun t => t.walk enter else []

/-- Every label above the place is entered. -/
def Entered (enter : α → Bool) (label? : Place → Option α) (p : Place) : Prop :=
  ∀ q, q <+: p → q ≠ p → ∀ x ∈ label? q, enter x

instance (enter : α → Bool) (label? : Place → Option α) : DecidablePred (Entered enter label?) :=
  fun p => decidable_of_iff (∀ q ∈ p.inits, q ≠ p → ∀ x ∈ label? q, enter x)
    (by simp only [List.mem_inits, Entered])

@[simp] theorem walk_node (enter : α → Bool) (x : α) (ts : List (Tree α)) : (node x ts).walk enter =
    x :: if enter x then ts.flatMap (walk enter) else [] := by
  rw [walk]

theorem placesFrom_eq (i : Nat) (ts : List (Tree α)) :
    placesFrom i ts = (ts.zipIdx i).flatMap fun t => t.1.places.map (t.2 :: ·) := by
  induction ts generalizing i with
  | nil => rw [placesFrom]; rfl
  | cons t ts ih => rw [placesFrom, ih, List.zipIdx_cons, List.flatMap_cons]

theorem places_node (x : α) (ts : List (Tree α)) :
    (node x ts).places = [] :: placesAmong ts := by
  rw [places, placesAmong]

theorem at?_node_cons (x : α) (ts : List (Tree α)) (i : Nat) (p : Place) :
    (node x ts).at? (i :: p) = among? ts (i :: p) := by
  rw [at?, among?]

theorem among?_cons {ts : List (Tree α)} {t : Tree α} {i : Nat} (h : ts[i]? = some t) (p : Place) :
    among? ts (i :: p) = t.at? p := by
  rw [among?, h, Option.bind_some]

theorem mem_placesAmong {ts : List (Tree α)}
    (ih : ∀ t ∈ ts, ∀ p, p ∈ t.places ↔ (t.at? p).isSome) (p : Place) :
    p ∈ placesAmong ts ↔ (among? ts p).isSome := by
  rw [placesAmong, placesFrom_eq, List.mem_flatMap]
  constructor
  · rintro ⟨⟨t, i⟩, ht, hp⟩
    obtain ⟨q, hq, rfl⟩ := List.mem_map.mp hp
    have hget := List.mem_zipIdx_iff_getElem?.mp ht
    rw [among?_cons hget]
    exact (ih t (List.mem_of_getElem? hget) q).mp hq
  · intro hp
    cases p with
    | nil => cases hp
    | cons i q =>
      cases hget : ts[i]? with
      | none =>
        rw [among?, hget] at hp
        cases hp
      | some t =>
        rw [among?_cons hget] at hp
        have hq := (ih t (List.mem_of_getElem? hget) q).mpr hp
        exact ⟨(t, i), List.mem_zipIdx_iff_getElem?.mpr hget, List.mem_map_of_mem hq⟩

theorem mem_places (t : Tree α) (p : Place) : p ∈ t.places ↔ (t.at? p).isSome := by
  induction t generalizing p with
  | node x ts ih =>
    rw [places_node, List.mem_cons]
    cases p with
    | nil => simp [at?]
    | cons i q =>
      rw [at?_node_cons, or_iff_right (List.cons_ne_nil i q)]
      exact mem_placesAmong ih (i :: q)

theorem exists_eq_cons_of_mem_placesAmong {ts : List (Tree α)} {p : Place}
    (h : p ∈ placesAmong ts) : ∃ i q, p = i :: q := by
  cases p with
  | nil =>
    have hsome := (mem_placesAmong (fun t _ => t.mem_places) []).mp h
    cases hsome
  | cons i q => exact ⟨i, q, rfl⟩

theorem pairwise_lt_placesFrom {ts : List (Tree α)} (ih : ∀ t ∈ ts, t.places.Pairwise (· < ·))
    (i : Nat) : (placesFrom i ts).Pairwise (· < ·) := by
  induction ts generalizing i with
  | nil =>
    rw [placesFrom]
    exact .nil
  | cons t ts iht =>
    rw [placesFrom, List.pairwise_append]
    refine ⟨?_, iht (fun u hu => ih u (List.mem_cons_of_mem _ hu)) (i + 1), ?_⟩
    · rw [List.pairwise_map]
      exact (ih t List.mem_cons_self).imp fun hlt => List.cons_lt_cons_iff.mpr (Or.inr ⟨rfl, hlt⟩)
    · intro p hp q hq
      obtain ⟨p, -, rfl⟩ := List.mem_map.mp hp
      rw [placesFrom_eq, List.mem_flatMap] at hq
      obtain ⟨⟨u, j⟩, hu, hq⟩ := hq
      obtain ⟨q, -, rfl⟩ := List.mem_map.mp hq
      have hle := List.le_snd_of_mem_zipIdx hu
      exact List.cons_lt_cons_iff.mpr (Or.inl hle)

theorem pairwise_lt_places (t : Tree α) : t.places.Pairwise (· < ·) := by
  induction t with
  | node x ts ih =>
    rw [places_node, List.pairwise_cons]
    refine ⟨fun p hp => ?_, pairwise_lt_placesFrom ih 0⟩
    obtain ⟨i, q, rfl⟩ := exists_eq_cons_of_mem_placesAmong hp
    exact List.nil_lt_cons i q

theorem mem_placesAmong_iff (ts : List (Tree α)) (p : Place) :
    p ∈ placesAmong ts ↔ (among? ts p).isSome :=
  mem_placesAmong (fun t _ => t.mem_places) p

theorem pairwise_lt_placesAmong (ts : List (Tree α)) : (placesAmong ts).Pairwise (· < ·) :=
  pairwise_lt_placesFrom (fun t _ => t.pairwise_lt_places) 0

theorem entered_among_cons {enter : α → Bool} {ts : List (Tree α)} {t : Tree α} {i : Nat}
    (h : ts[i]? = some t) (p : Place) :
    Entered enter (among? ts) (i :: p) ↔ Entered enter t.at? p := by
  constructor
  · intro hp q hq hne x hx
    refine hp (i :: q) (List.cons_prefix_cons.mpr ⟨rfl, hq⟩) (by simpa using hne) x ?_
    rwa [among?_cons h]
  · intro hp q hq hne x hx
    cases q with
    | nil => cases hx
    | cons j q =>
      obtain ⟨rfl, hpre⟩ := List.cons_prefix_cons.mp hq
      rw [among?_cons h] at hx
      exact hp q hpre (by simpa using hne) x hx

theorem entered_node_cons {enter : α → Bool} {x : α} {ts : List (Tree α)} (i : Nat) (p : Place) :
    Entered enter (node x ts).at? (i :: p) ↔ enter x ∧ Entered enter (among? ts) (i :: p) := by
  constructor
  · intro hp
    refine ⟨hp [] (List.nil_prefix) (List.cons_ne_nil i p).symm x rfl, fun q hq hne y hy => ?_⟩
    cases q with
    | nil => cases hy
    | cons j q => exact hp (j :: q) hq hne y (by rwa [at?_node_cons])
  · rintro ⟨hx, hp⟩ q hq hne y hy
    cases q with
    | nil =>
      obtain rfl := Option.some.inj hy
      exact hx
    | cons j q => exact hp (j :: q) hq hne y (by rwa [at?_node_cons] at hy)

theorem walk_among {enter : α → Bool} {ts : List (Tree α)}
    (ih : ∀ t ∈ ts, (t.walk enter).map some =
      (t.places.filter (Entered enter t.at?)).map t.at?) :
    (ts.flatMap (walk enter)).map some =
      ((placesAmong ts).filter (Entered enter (among? ts))).map (among? ts) := by
  have hfst : ts.flatMap (walk enter) = ts.zipIdx.flatMap fun t => t.1.walk enter := by
    conv_lhs => rw [← List.zipIdx_map_fst 0 ts, List.flatMap_map]
  rw [hfst, placesAmong, placesFrom_eq, List.filter_flatMap, List.map_flatMap, List.map_flatMap]
  refine List.flatMap_congr fun t ht => ?_
  have hget := List.mem_zipIdx_iff_getElem?.mp ht
  rw [ih t.1 (List.mem_of_getElem? hget), List.filter_map, List.map_map]
  have hfilter : t.1.places.filter ((fun p => decide (Entered enter (among? ts) p)) ∘ (t.2 :: ·)) =
      t.1.places.filter (Entered enter t.1.at?) :=
    List.filter_congr fun p _ => decide_eq_decide.mpr (entered_among_cons hget p)
  rw [hfilter]
  exact List.map_congr_left fun p _ => (among?_cons hget p).symm

theorem walk_eq (enter : α → Bool) (t : Tree α) : (t.walk enter).map some =
    (t.places.filter (Entered enter t.at?)).map t.at? := by
  induction t with
  | node x ts ih =>
    have hroot : Entered enter (node x ts).at? [] := by
      intro q hq hne
      exact absurd (List.prefix_nil.mp hq) hne
    rw [places_node, List.filter_cons, if_pos (decide_eq_true hroot), walk_node, List.map_cons,
      List.map_cons]
    refine congrArg _ ?_
    split_ifs with hx
    · rw [walk_among ih]
      have hfilter : (placesAmong ts).filter (Entered enter (node x ts).at?) =
          (placesAmong ts).filter (Entered enter (among? ts)) := by
        refine List.filter_congr fun p hp => decide_eq_decide.mpr ?_
        obtain ⟨i, q, rfl⟩ := exists_eq_cons_of_mem_placesAmong hp
        rw [entered_node_cons, and_iff_right hx]
      rw [hfilter]
      refine List.map_congr_left fun p hp => ?_
      obtain ⟨i, q, rfl⟩ := exists_eq_cons_of_mem_placesAmong (List.mem_filter.mp hp).1
      exact (at?_node_cons x ts i q).symm
    · have hfilter : (placesAmong ts).filter (Entered enter (node x ts).at?) = [] := by
        refine List.filter_eq_nil_iff.mpr fun p hp => ?_
        obtain ⟨i, q, rfl⟩ := exists_eq_cons_of_mem_placesAmong hp
        rw [decide_eq_true_eq, entered_node_cons]
        exact fun h => hx h.1
      rw [hfilter]
      rfl

/-- A walk comes to the places below no label that it does not enter. -/
theorem walkAmong_eq (enter : α → Bool) (ts : List (Tree α)) :
    (ts.flatMap (walk enter)).map some =
      ((placesAmong ts).filter (Entered enter (among? ts))).map (among? ts) :=
  walk_among fun t _ => t.walk_eq enter

end Tree

end FactoryLint
