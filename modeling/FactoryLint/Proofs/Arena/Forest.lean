import FactoryLint.Proofs.Arena.Acyclic
import FactoryLint.Proofs.Arena.Preorder
import Mathlib.Data.List.Pairwise

namespace FactoryLint

def NestsSpans : Term → Prop
  | .node l ts => (∀ t ∈ ts, ∀ s ∈ t.label.span, ∀ outer ∈ l.span, s.Inside outer) ∧
      (ts.Pairwise fun t u => ∀ s ∈ t.label.span, ∀ s' ∈ u.label.span, s.stop ≤ s'.start) ∧
      ∀ t ∈ ts, NestsSpans t

theorem nestsSpans_node {l : Label} {ts : List Term} : NestsSpans (.node l ts) ↔
    (∀ t ∈ ts, ∀ s ∈ t.label.span, ∀ outer ∈ l.span, s.Inside outer) ∧
      (ts.Pairwise fun t u => ∀ s ∈ t.label.span, ∀ s' ∈ u.label.span, s.stop ≤ s'.start) ∧
      ∀ t ∈ ts, NestsSpans t := by
  rw [NestsSpans]

namespace Arena

open Relation (ReflTransGen TransGen)

variable {a : Arena} {x y : NodeId} {t : Tree NodeId} {ts : List (Tree NodeId)}

/-- Nodes refer to nodes that exist. Each of these fills one slot at most, and none lies below
itself. -/
structure IsForest (a : Arena) : Prop where
  acyclic : a.Acyclic
  lt_size : ∀ x y, a.Child x y → y < a.size
  nodup : ∀ x, (a.children x).Nodup
  unique : ∀ x x' y, a.Child x y → a.Child x' y → x = x'

def IsRoot (a : Arena) (x : NodeId) : Prop := ∀ parent, ¬a.Child parent x

theorem Holds.children_eq {us : List (Tree NodeId)} (h : a.Holds (.node x us)) :
    a.children x = us.map Tree.label := by
  obtain ⟨⟨n, hn, hchildren⟩, -⟩ := holds_node.mp h
  rw [Arena.children_eq hn, hchildren]

theorem map_append_flatMap_perm {α β : Type} (f : α → β) (g : α → List β) (l : List α) :
    (l.map f ++ l.flatMap g).Perm (l.flatMap fun x => f x :: g x) := by
  rw [List.map_eq_flatMap]
  exact List.flatMap_append_perm l (fun x => [f x]) g

theorem Holds.slots_perm (h : a.Holds t) :
    (t.label :: t.labels.flatMap a.children).Perm t.labels := by
  induction t with
  | node x us ih =>
    have hus : (us.flatMap fun u => u.label :: u.labels.flatMap a.children).Perm
        (us.flatMap Tree.labels) :=
      List.Perm.flatMap_left us fun u hu => ih u hu ((holds_node.mp h).2 u hu)
    rw [Tree.label_node, Tree.labels_node, List.flatMap_cons, h.children_eq, List.flatMap_assoc]
    exact ((map_append_flatMap_perm _ _ us).trans hus).cons x

theorem slots_perm (h : ∀ t ∈ ts, a.Holds t) :
    (ts.map Tree.label ++ (ts.flatMap Tree.labels).flatMap a.children).Perm
      (ts.flatMap Tree.labels) := by
  rw [List.flatMap_assoc]
  exact (map_append_flatMap_perm _ _ ts).trans
    (List.Perm.flatMap_left ts fun t ht => (h t ht).slots_perm)

/-- Where trees make up the arena and nodes refer to earlier ones, no node is shared, and the roots
of the trees fill no slot. -/
theorem isForest_of_trees (h : ∀ t ∈ ts, a.Holds t) (hn : (ts.flatMap Tree.labels).Nodup)
    (hall : ∀ x < a.size, x ∈ ts.flatMap Tree.labels)
    (hlt : ∀ x < a.size, ∀ y ∈ a.children x, y < x) :
    a.IsForest ∧ ∀ t ∈ ts, a.IsRoot t.label := by
  have hslots := (slots_perm h).nodup_iff.mpr hn
  obtain ⟨-, hchildren, hdisjoint⟩ := List.nodup_append'.mp hslots
  obtain ⟨hnodup, hapart⟩ := List.nodup_flatMap.mp hchildren
  have hmem : ∀ {x y}, a.Child x y → x ∈ ts.flatMap Tree.labels := fun hc => hall _ hc.lt_size
  constructor
  · refine ⟨acyclic_of_children_lt hlt, fun x y hc => ?_, fun x => ?_, fun x x' y hc hc' => ?_⟩
    · exact Nat.lt_trans (hlt x hc.lt_size y hc) hc.lt_size
    · by_cases hx : x < a.size
      · exact hnodup x (hall x hx)
      · rw [children_of_size_le (Nat.le_of_not_lt hx)]
        exact List.nodup_nil
    · by_contra hne
      have hsymm : Std.Symm (Function.onFun List.Disjoint a.children) := ⟨fun _ _ hd => hd.symm⟩
      exact hapart.forall (hmem hc) (hmem hc') hne hc hc'
  · intro t ht x hc
    exact hdisjoint (List.mem_map_of_mem ht) (List.mem_flatMap.mpr ⟨x, hmem hc, hc⟩)

structure NestsAt (a : Arena) (covers : NodeId → Option Span) (x : NodeId) : Prop where
  inside : ∀ y ∈ a.children x, ∀ s ∈ covers y, ∀ t ∈ covers x, s.Inside t
  ordered : (a.children x).Pairwise fun y z => ∀ s ∈ covers y, ∀ t ∈ covers z, s.stop ≤ t.start

/-- The place of a node in the source: where it stands, or where that stood in whose place it was
built. -/
def place? (a : Arena) (x : NodeId) : Option Span :=
  (a.node? x).bind fun n => n.span.or <| match n.origin with
    | .source => none
    | .built replaces => replaces

theorem mem_place?_of_mem_span? {span : Span} (h : span ∈ a.span? x) : span ∈ a.place? x := by
  obtain ⟨n, hn, hs⟩ := Option.bind_eq_some_iff.mp h
  rw [place?, hn, Option.bind_some, hs, Option.some_or]
  rfl

theorem nestsAt_of_children_eq_nil {covers : NodeId → Option Span} (h : a.children x = []) :
    a.NestsAt covers x where
  inside y hy := by
    rw [h] at hy
    cases hy
  ordered := by
    rw [h]
    exact .nil

theorem NestsAt.of_map {b : Arena} {covers covers' : NodeId → Option Span} (f : NodeId → NodeId)
    (h : a.NestsAt covers x) (hchildren : (b.children x).map f = a.children x)
    (hcovers : ∀ y ∈ b.children x, ∀ s ∈ covers' y, s ∈ covers (f y))
    (hx : ∀ s ∈ covers' x, s ∈ covers x) : b.NestsAt covers' x where
  inside y hy s hs t ht :=
    h.inside (f y) (hchildren ▸ List.mem_map_of_mem hy) s (hcovers y hy s hs) t (hx t ht)
  ordered := by
    have ho := h.ordered
    rw [← hchildren, List.pairwise_map] at ho
    exact ho.imp_of_mem fun hy hz hyz s hs t ht => hyz s (hcovers _ hy s hs) t (hcovers _ hz t ht)

theorem Holds.nestsAt (h : a.Holds t) (hn : NestsSpans (a.term t)) :
    ∀ x ∈ t.labels, a.NestsAt a.span? x := by
  induction t with
  | node x us ih =>
    obtain ⟨-, hus⟩ := holds_node.mp h
    rw [term_node, nestsSpans_node] at hn
    obtain ⟨hin, ho, hparts⟩ := hn
    intro y hy
    rw [Tree.labels_node, List.mem_cons] at hy
    cases hy with
    | inl hroot =>
      subst hroot
      constructor
      · intro z hz
        rw [h.children_eq] at hz
        obtain ⟨u, hu, rfl⟩ := List.mem_map.mp hz
        have hu' := hin (a.term u) (List.mem_map_of_mem hu)
        rwa [label_term, ← span?_eq, ← span?_eq] at hu'
      · rw [h.children_eq, List.pairwise_map]
        refine (List.pairwise_map.mp ho).imp fun {u v} huv => ?_
        rwa [label_term, label_term, ← span?_eq, ← span?_eq] at huv
    | inr hbelow =>
      obtain ⟨u, hu, hy⟩ := List.mem_flatMap.mp hbelow
      exact ih u hu (hus u hu) (hparts _ (List.mem_map_of_mem hu)) y hy

variable {σ : Type} {step : Step σ}

theorem exists_each {treat : NodeId → Arena → σ → Option (Arena × σ)} {ids : List NodeId}
    (h : ∀ y ∈ ids, ∀ s, ∃ t, treat y a s = some (a, t)) (s : σ) :
    ∃ t, each treat ids a s = some (a, t) := by
  induction ids generalizing s with
  | nil => exact ⟨s, rfl⟩
  | cons y ids ih =>
    obtain ⟨t, ht⟩ := h y List.mem_cons_self s
    rw [each, ht]
    exact ih (fun z hz => h z (List.mem_cons_of_mem _ hz)) t

theorem exists_preorder (ha : a.Acyclic) (hstep : ∀ id s, (step id a s).2.1 = a) {depth : Nat}
    (hdepth : (a.reach x).card < depth) (s : σ) : ∃ t, preorder step depth x a s = some (a, t) := by
  induction depth generalizing x s with
  | zero => exact absurd hdepth (Nat.not_lt_zero _)
  | succ depth ih =>
    have hkept : ∀ descent b t, step x a s = (descent, b, t) → b = a := fun descent b t he => by
      rw [← hstep x s, he]
    cases step_cases step x a s with
    | inl hskip =>
      obtain ⟨b, t, hx⟩ := hskip
      obtain rfl := hkept _ _ _ hx
      exact ⟨t, preorder_skip hx depth⟩
    | inr henter =>
      obtain ⟨b, t, hx⟩ := henter
      obtain rfl := hkept _ _ _ hx
      rw [preorder_enter hx]
      apply exists_each
      intro y hy u
      have hless := card_reach_lt ha hy
      exact ih (by omega) u

theorem exists_runStack (ha : a.Acyclic) (hstep : ∀ id s, (step id a s).2.1 = a) (x : NodeId)
    (s : σ) : ∃ bound t, runStack step bound [x] a s = some (a, t) := by
  obtain ⟨t, ht⟩ := exists_preorder ha hstep (Nat.lt_succ_of_le (a.card_reach_le x)) s
  have hwalk : walk step (a.size + 1) [x] a s = some (a, t) := by rw [walk, each, ht]; rfl
  obtain ⟨bound, hbound⟩ := (exists_runStack_iff _ _ _ _ _).mpr ⟨_, hwalk⟩
  exact ⟨bound, t, hbound⟩

end Arena

end FactoryLint
