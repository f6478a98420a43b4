import FactoryLint.Proofs.Php.Spans
import FactoryLint.Proofs.Rewrite.Again
import FactoryLint.Proofs.Rewrite.Ends
import FactoryLint.Proofs.Rewrite.Sequence

namespace FactoryLint.Rewrite

open Relation (ReflTransGen TransGen)

variable {s : Settings} {a b c : Arena} {x y object root : NodeId} {roots : List NodeId}

theorem Swapped.children_eq (h : Swapped s a b x object) (y : NodeId) :
    b.children y = if y = x then a.size :: (a.children x).tail else a.children y := by
  by_cases hyx : y = x
  · obtain ⟨n, shape, hna, hnb, -, hc⟩ := h.parent
    rw [if_pos hyx, hyx, Arena.children_eq hnb, Arena.children_eq hna, hc]
  · rw [if_neg hyx]
    by_cases hy : y < a.size
    · rw [Arena.children, Arena.children, Arena.shape?, Arena.shape?, h.kept y hy hyx]
    · rw [Arena.children_of_size_le (Nat.le_of_not_lt hy)]
      cases hn : b.node? y with
      | none => exact Arena.children_of_size_le (Arena.node?_eq_none_iff.mp hn)
      | some n =>
        rw [Arena.children_eq hn, (h.node?_call (Nat.le_of_not_lt hy) hn).2]
        rfl

theorem Swapped.child_cases {z : NodeId} (h : Swapped s a b x object) (hc : b.Child y z) :
    (y = x ∧ z = a.size) ∨ a.Child y z := by
  rw [Arena.Child, h.children_eq] at hc
  by_cases hyx : y = x
  · rw [if_pos hyx, List.mem_cons] at hc
    cases hc with
    | inl hz => exact Or.inl ⟨hyx, hz⟩
    | inr htail => exact Or.inr (hyx ▸ List.mem_of_mem_tail htail)
  · rw [if_neg hyx] at hc
    exact Or.inr hc

theorem Swapped.not_child_call (h : Swapped s a b x object) (y : NodeId) : ¬b.Child a.size y := by
  rw [Arena.Child, Arena.children_eq h.call]
  exact List.not_mem_nil

theorem Swapped.acyclic (h : Swapped s a b x object) (ha : a.Acyclic) : b.Acyclic := by
  -- A path leads along children that were there before, or ends at the new node.
  have hpath : ∀ y z, TransGen b.Child y z → z = a.size ∨ TransGen a.Child y z := by
    intro y z hyz
    induction hyz with
    | single hc => exact (h.child_cases hc).imp And.right .single
    | tail _ hc ih =>
      cases ih with
      | inl hend =>
        subst hend
        exact absurd hc (h.not_child_call _)
      | inr hyw => exact (h.child_cases hc).imp And.right hyw.tail
  intro y hy
  cases hpath y y hy with
  | inl hend =>
    subst hend
    obtain ⟨z, hz, -⟩ := TransGen.head'_iff.mp hy
    exact h.not_child_call z hz
  | inr hcycle => exact ha y hcycle

theorem Swapped.isForest (h : Swapped s a b x object) (ha : a.IsForest) : b.IsForest where
  acyclic := h.acyclic ha.acyclic
  lt_size y z hc := by
    rw [h.size]
    cases h.child_cases hc with
    | inl hnew => exact hnew.2 ▸ Nat.lt_succ_self _
    | inr hold => exact Nat.lt_succ_of_lt (ha.lt_size y z hold)
  nodup y := by
    rw [h.children_eq]
    split_ifs with hyx
    · refine List.nodup_cons.mpr ⟨fun hmem => ?_, (ha.nodup x).tail⟩
      exact Nat.lt_irrefl _ (ha.lt_size x _ (List.mem_of_mem_tail hmem))
    · exact ha.nodup y
  unique y y' z hc hc' := by
    have hold : ∀ y, ¬a.Child y a.size := fun y hc => Nat.lt_irrefl _ (ha.lt_size y _ hc)
    cases h.child_cases hc with
    | inl hnew =>
      obtain ⟨rfl, rfl⟩ := hnew
      cases h.child_cases hc' with
      | inl hnew' => exact hnew'.1.symm
      | inr hold' => exact absurd hold' (hold y')
    | inr hold₁ =>
      cases h.child_cases hc' with
      | inl hnew' =>
        obtain ⟨-, rfl⟩ := hnew'
        exact absurd hold₁ (hold y)
      | inr hold₂ => exact ha.unique y y' z hold₁ hold₂

theorem Swapped.isRoot (h : Swapped s a b x object) (hlt : root < a.size) (hr : a.IsRoot root) :
    b.IsRoot root := by
  intro parent hc
  cases h.child_cases hc with
  | inl hnew => exact Nat.ne_of_lt hlt hnew.2
  | inr hold => exact hr parent hold

def former (a : Arena) (object x : NodeId) : NodeId := if x = a.size then object else x

theorem former_size (a : Arena) (object : NodeId) : former a object a.size = object := if_pos rfl

theorem former_of_lt (object : NodeId) (h : x < a.size) : former a object x = x :=
  if_neg (Nat.ne_of_lt h)

theorem Swapped.map_former (h : Swapped s a b x object) (hsite : SiteAt s a x object)
    (ha : a.IsForest) (y : NodeId) : (b.children y).map (former a object) = a.children y := by
  have hsame : ∀ l ⊆ a.children y, l.map (former a object) = l := by
    intro l hl
    rw [List.map_congr_left fun z hz => former_of_lt object (ha.lt_size y z (hl hz)), List.map_id']
  rw [h.children_eq]
  split_ifs with hyx
  · obtain ⟨n, rest, hnode, -, hc⟩ := hsite.children
    have hchildren : a.children y = object :: rest := by rw [hyx, Arena.children_eq hnode, hc]
    rw [← hyx, hchildren, List.tail_cons, List.map_cons, former_size,
      hsame rest (hchildren ▸ List.subset_cons_self _ _)]
  · exact hsame _ (List.Subset.refl _)

theorem Swapped.place?_former (h : Swapped s a b x object) {z : NodeId} (hz : z < b.size) :
    ∀ t ∈ b.place? z, t ∈ a.place? (former a object z) := by
  intro t ht
  by_cases hnew : z = a.size
  · rw [hnew, Arena.place?, h.call] at ht
    rw [hnew, former_size]
    exact Arena.mem_place?_of_mem_span? ht
  · have hlt : z < a.size := Nat.lt_of_le_of_ne (Nat.le_of_lt_succ (hz.trans_eq h.size)) hnew
    rw [former_of_lt object hlt]
    by_cases hzx : z = x
    · obtain ⟨n, shape, hna, hnb, -⟩ := h.parent
      rw [hzx, Arena.place?, hnb] at ht
      rw [hzx, Arena.place?, hna]
      exact ht
    · rwa [Arena.place?, ← h.kept z hlt hzx]

theorem Swapped.nestsAt (h : Swapped s a b x object) (hsite : SiteAt s a x object)
    (ha : a.IsForest) (hn : ∀ y, a.NestsAt a.place? y) (y : NodeId) : b.NestsAt b.place? y := by
  by_cases hy : y < a.size
  · refine (hn y).of_map (former a object) (h.map_former hsite ha y) (fun z hz => ?_) ?_
    · exact h.place?_former ((h.isForest ha).lt_size y z hz)
    · have hylt : y < b.size := h.size ▸ Nat.lt_succ_of_lt hy
      have hself := h.place?_former hylt
      rwa [former_of_lt object hy] at hself
  · apply Arena.nestsAt_of_children_eq_nil
    rw [← List.map_eq_nil_iff, h.map_former hsite ha]
    exact Arena.children_of_size_le (Nat.le_of_not_lt hy)

/-- A forest with nested spans, of which some nodes are roots. -/
structure Stands (a : Arena) (roots : List NodeId) : Prop where
  forest : a.IsForest
  nested : ∀ x, a.NestsAt a.place? x
  roots : ∀ root ∈ roots, root < a.size ∧ a.IsRoot root

theorem Fills.stands (h : Fills s a b) (ha : Stands a roots) : Stands b roots := by
  obtain ⟨x, object, hsite, hab⟩ := h
  refine ⟨hab.isForest ha.forest, hab.nestsAt hsite ha.forest ha.nested, fun root hroot => ?_⟩
  obtain ⟨hlt, hr⟩ := ha.roots root hroot
  exact ⟨hab.size ▸ Nat.lt_succ_of_lt hlt, hab.isRoot hlt hr⟩

theorem Filled.stands (h : Filled s a b) (ha : Stands a roots) : Stands b roots := by
  induction h with
  | refl => exact ha
  | tail _ hstep ih => exact hstep.stands ih

/-- Replacements on the way of a walk below `root`, with `stack` still to come. -/
structure Below (s : Settings) (a : Arena) (root : NodeId) (stack : List NodeId) (b : Arena) :
    Prop where
  filled : Filled s a b
  found : ∀ y ∈ stack, ReflTransGen a.Child root y ∨ a.size ≤ y
  kept : ∀ y < a.size, ¬ReflTransGen a.Child root y → b.node? y = a.node? y

theorem visit_cases (s : Settings) (a : Arena) (x : NodeId) (count : Nat) :
    (visit s x a count).2.1 = a ∨
      ∃ object, SiteAt s a x object ∧ Swapped s a (visit s x a count).2.1 x object := by
  by_cases hx : ∃ object, SiteAt s a x object
  · obtain ⟨object, hsite⟩ := hx
    obtain ⟨b, hb, hab⟩ := visit_of_siteAt hsite count
    exact Or.inr ⟨object, hsite, hb ▸ hab⟩
  · rw [visit_of_settled fun object hsite => hx ⟨object, hsite⟩]
    exact Or.inl rfl

namespace Below

variable {stack : List NodeId} {count count' : Nat} {descent : Arena.Descent}

theorem visit (h : Below s a root (x :: stack) b)
    (hc : visit s x b count = (descent, c, count')) : Below s a root (x :: stack) c := by
  have hcases := visit_cases s b x count
  rw [hc] at hcases
  cases hcases with
  | inl hsame =>
    obtain rfl : c = b := hsame
    exact h
  | inr hswap =>
    obtain ⟨object, hsite, hbc⟩ := hswap
    refine ⟨h.filled.tail ⟨x, object, hsite, hbc⟩, h.found, fun y hy hout => ?_⟩
    have hyx : y ≠ x := by
      rintro rfl
      exact (h.found y List.mem_cons_self).elim hout (Nat.not_le.mpr hy)
    rw [hbc.kept y (Nat.lt_of_lt_of_le hy h.filled.size_le) hyx, h.kept y hy hout]

theorem drop (h : Below s a root (x :: stack) b) : Below s a root stack b where
  filled := h.filled
  found y hy := h.found y (List.mem_cons_of_mem _ hy)
  kept := h.kept

theorem enter (h : Below s a root (x :: stack) b) :
    Below s a root (b.children x ++ stack) b where
  filled := h.filled
  found y hy := by
    cases List.mem_append.mp hy with
    | inl hchild =>
      cases h.filled.children hchild with
      | inl hold =>
        cases h.found x List.mem_cons_self with
        | inl hroot => exact Or.inl (hroot.tail hold)
        | inr hge =>
          rw [Arena.children_of_size_le hge] at hold
          cases hold
      | inr hge => exact Or.inr hge
    | inr hstack => exact h.found y (List.mem_cons_of_mem _ hstack)
  kept := h.kept

end Below

theorem keeps_below (s : Settings) (a : Arena) (root : NodeId) :
    Arena.Keeps (visit s) fun stack b _ => Below s a root stack b where
  skip hc h := (h.visit hc).drop
  enter hc h := (h.visit hc).enter

/-- The arenas there are while a call is made on `a`: before it, after any number of visits, and in
the end. -/
inductive Call.Passes (call : Call) (a : Arena) : Arena → Prop
  | start : call.Passes a a
  | within {items : List NodeId} {bound visits count left : Nat} {b : Arena}
      (hroot : a.shape? call.root = some (.arrayLiteral items))
      (heligible : Eligible call.settings call.context)
      (hrun : Arena.runStack (visit call.settings).limited bound items a (0, visits) =
        some (b, count, left)) : call.Passes a b
  | stop : call.Passes a (call.run a).2

theorem below_start {items : List NodeId} (h : a.shape? root = some (.arrayLiteral items)) :
    Below s a root items a where
  filled := .refl
  found y hy := by
    refine Or.inl (.single ?_)
    rw [Arena.Child, Arena.children, h]
    exact hy
  kept _ _ _ := rfl

theorem below_nil (s : Settings) (a : Arena) (root : NodeId) : Below s a root [] a where
  filled := .refl
  found _ hy := by cases hy
  kept _ _ _ := rfl

theorem Call.below_run (call : Call) (a : Arena) :
    Below call.settings a call.root [] (call.run a).2 := by
  by_cases hel : (a.label call.root).kind = .arrayLiteral ∧ Eligible call.settings call.context
  · obtain ⟨items, hitems⟩ := literal_of_kind hel.1
    cases hrun : rewriteItems call.settings a items with
    | some r =>
      rw [Call.run, applyIn_of_rewriteItems hitems hel.2 hrun]
      obtain ⟨bound, hbound⟩ := (Arena.exists_runStack_iff _ _ _ _ _).mpr ⟨_, hrun⟩
      exact (keeps_below _ _ _).runStack (below_start hitems) hbound
    | none =>
      have hsame : call.run a = (.unchanged, a) := by
        rw [Call.run, applyIn, hitems]
        simp only [hrun, ite_self]
      rw [hsame]
      exact below_nil _ _ _
  · rw [Call.run, applyIn_of_not_eligible hel]
    exact below_nil _ _ _

theorem Call.Passes.below {call : Call} (h : call.Passes a b) :
    Below call.settings a call.root [] b := by
  cases h with
  | start => exact below_nil _ _ _
  | within hroot _ hrun =>
    exact ((keeps_below _ _ _).limited Below.drop).runStack (below_start hroot) hrun
  | stop => exact call.below_run a

theorem runAll_stands (calls : List Call) (ha : Stands a roots) :
    Stands (runAll a calls) roots := by
  induction calls generalizing a with
  | nil => exact ha
  | cons call calls ih =>
    rw [runAll_cons]
    exact ih ((call.below_run a).filled.stands ha)

/-- All there is to do on a node comes to an end: any walk that only looks, a rewriting, and reading
off its edits and its text. -/
structure AllEnds (a : Arena) (root : NodeId) : Prop where
  walk : ∀ {σ : Type} (step : Arena.Step σ) (t : σ), (∀ x t, (step x a t).2.1 = a) →
    ∃ bound u, Arena.runStack step bound [root] a t = some (a, u)
  rewrite : ∀ s items, a.shape? root = some (.arrayLiteral items) →
    ∃ bound b count, Arena.runStack (visit s) bound items a 0 = some (b, count) ∧
      rewriteItems s a items = some (b, count)
  edits : ∀ source message depth, depthBound a ≤ depth →
    editsWithin? a source message depth root = some (edits a root source message)
  text : ∀ source depth, depthBound a ≤ depth →
    textWithin? a source depth root = some (text a root source)

theorem allEnds (ha : a.Acyclic) (root : NodeId) : AllEnds a root where
  walk _ t hstep := Arena.exists_runStack ha hstep root t
  rewrite s items _ := by
    obtain ⟨b, count, hrun⟩ := exists_rewriteItems (s := s) ha .refl items
    obtain ⟨bound, hbound⟩ := (Arena.exists_runStack_iff _ _ _ _ _).mpr ⟨_, hrun⟩
    exact ⟨bound, b, count, hbound, hrun⟩
  edits source message _ hdepth := (within_depthBound ha source message root hdepth).1
  text source _ hdepth := (within_depthBound ha source "" root hdepth).2

theorem stands_lower {program : Php.Program}
    (h : ∀ v ∈ program.stops, v.IsNested ∧ v.HasEntries) :
    Stands program.lower.2 program.lower.1 := by
  obtain ⟨hforest, hroots⟩ := Php.isForest_lower program
  refine ⟨hforest, fun x => ?_, hroots⟩
  -- A node of the source has its span for its place.
  have hplace : ∀ y, program.lower.2.place? y = program.lower.2.span? y := by
    intro y
    by_cases hy : y < program.lower.2.size
    · obtain ⟨shape, span, hn, -⟩ := Php.isLowered_lower program hy
      rw [Arena.place?, Arena.span?, hn]
      rfl
    · rw [Arena.place?, Arena.span?, Arena.node?_eq_none_iff.mpr (Nat.le_of_not_lt hy)]
      rfl
  rw [funext hplace]
  exact Php.nestsAt_lower h x

/-- The array literals of a program with nested spans are lowered to a forest of nodes of the
source, which refer to earlier nodes and have nested spans. However many calls are made on it, at
every moment it is a forest still, with the same roots; a call has changed only nodes below its
root, and what there is to do on the roots ends. -/
theorem forest_runAll (program : Php.Program)
    (hspans : ∀ v ∈ program.stops, v.IsNested ∧ v.HasEntries) :
    (∀ x < program.lower.2.size, Php.IsLowered program.lower.2 x) ∧
    (∀ x, program.lower.2.NestsAt program.lower.2.span? x) ∧
    Stands program.lower.2 program.lower.1 ∧
    ∀ calls (call : Call) b, call.Passes (runAll program.lower.2 calls) b →
      Stands b program.lower.1 ∧
      (∀ x < (runAll program.lower.2 calls).size,
        ¬ReflTransGen (runAll program.lower.2 calls).Child call.root x →
          b.node? x = (runAll program.lower.2 calls).node? x) ∧
      ∀ root ∈ program.lower.1, AllEnds b root := by
  have hlower := stands_lower hspans
  refine ⟨fun x hx => Php.isLowered_lower program hx, Php.nestsAt_lower hspans, hlower,
    fun calls call b hpasses => ?_⟩
  have hbelow := hpasses.below
  have hstands : Stands b program.lower.1 := hbelow.filled.stands (runAll_stands calls hlower)
  exact ⟨hstands, hbelow.kept, fun root _ => allEnds hstands.forest.acyclic root⟩

def spreadProgram : Php.Program :=
  [.other ⟨0, 5⟩, .ret ⟨6, 39⟩ (some (.array ⟨13, 38⟩
    [.spread ⟨14, 37⟩ (.array ⟨17, 37⟩ [.item (memberAt 18 "name")])]))]

/-- The second call replaces in the copy what the first one replaced inside the outer literal. -/
theorem forest_runAll_spread : spreadProgram.lower.1 = [7, 12] ∧
    (∀ x, spreadProgram.lower.2.NestsAt spreadProgram.lower.2.span? x) ∧
    ∃ b, (nestedCall 12).Passes (runAll spreadProgram.lower.2 [nestedCall 7]) b ∧ b.size = 15 ∧
      Stands b [7, 12] ∧ AllEnds b 7 := by
  have hspans : ∀ v ∈ spreadProgram.stops, v.IsNested ∧ v.HasEntries := by decide +kernel
  have hroots : spreadProgram.lower.1 = [7, 12] := by decide +kernel
  obtain ⟨-, hnested, -, hcalls⟩ := forest_runAll spreadProgram hspans
  obtain ⟨hstands, -, hends⟩ := hcalls [nestedCall 7] (nestedCall 12) _ .stop
  rw [hroots] at hstands hends
  refine ⟨hroots, hnested, _, .stop, ?_, hstands, hends 7 List.mem_cons_self⟩
  decide +kernel

end FactoryLint.Rewrite
