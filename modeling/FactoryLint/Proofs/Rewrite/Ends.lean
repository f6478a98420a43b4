import FactoryLint.Proofs.Rewrite.Depth

namespace FactoryLint.Rewrite

variable {a : Arena} {x : NodeId} {n : Node} {span : Span}

mutual

/-- The edits for the nodes at and below `x`, if these are all reached within the depth. -/
def editsWithin? (a : Arena) (source message : String) :
    Nat → NodeId → Option (Except EditError (List Edit))
  | 0, _ => none
  | depth + 1, x =>
    match a.node? x with
    | some ⟨_, _, .built (some span)⟩ =>
      (textWithin? a source depth x).map (·.map fun text => [⟨span, text, message⟩])
    | _ =>
      ((a.children x).mapM (editsWithin? a source message depth)).map fun found =>
        (found.mapM id).map List.flatten

def textWithin? (a : Arena) (source : String) : Nat → NodeId → Option (Except EditError String)
  | 0, _ => none
  | depth + 1, x =>
    match a.node? x with
    | none => some (.ok "")
    | some ⟨shape, some span, .source⟩ =>
      match Text.slice? source.toList span with
      | none => some (.ok "")
      | some covered =>
        (shape.children.mapM (editsWithin? a source "" depth)).map fun found =>
          (found.mapM id).bind fun nested => spliced span covered nested.flatten
    | some ⟨shape, _, _⟩ =>
      (shape.children.mapM (textWithin? a source depth)).map fun found =>
        (found.mapM id).map (written shape)

end

section

variable (source message : String) (depth : Nat)

theorem editsWithin?_built (hn : a.node? x = some n) (ho : n.origin = .built (some span)) :
    editsWithin? a source message (depth + 1) x =
      (textWithin? a source depth x).map (·.map fun text => [⟨span, text, message⟩]) := by
  obtain ⟨shape, _, origin⟩ := n
  obtain rfl : origin = _ := ho
  rw [editsWithin?, hn]

theorem editsWithin?_node (ho : ∀ n span, a.node? x = some n → n.origin ≠ .built (some span)) :
    editsWithin? a source message (depth + 1) x =
      ((a.children x).mapM (editsWithin? a source message depth)).map fun found =>
        (found.mapM id).map List.flatten := by
  rw [editsWithin?]
  split
  · rename_i hn
    exact absurd rfl (ho _ _ hn)
  · rfl

theorem textWithin?_nested (hn : a.node? x = some n) (ho : n.origin = .source)
    (hs : n.span = some span) :
    textWithin? a source (depth + 1) x = match Text.slice? source.toList span with
      | none => some (.ok "")
      | some covered => (n.shape.children.mapM (editsWithin? a source "" depth)).map fun found =>
          (found.mapM id).bind fun nested => spliced span covered nested.flatten := by
  obtain ⟨shape, known, origin⟩ := n
  obtain rfl : origin = _ := ho
  obtain rfl : known = _ := hs
  rw [textWithin?, hn]

theorem textWithin?_written (hn : a.node? x = some n)
    (h : ∀ span, n.origin = .source → n.span ≠ some span) :
    textWithin? a source (depth + 1) x =
      (n.shape.children.mapM (textWithin? a source depth)).map fun found =>
        (found.mapM id).map (written n.shape) := by
  rw [textWithin?, hn]
  split
  · rename_i heq
    cases heq
  · rename_i span heq
    obtain rfl := Option.some.inj heq
    exact absurd rfl (h span rfl)
  · rename_i heq
    obtain rfl := Option.some.inj heq
    rfl

end

def EditsEnd (a : Arena) (source : String) (x : NodeId) : Prop :=
  ∀ message depth, 2 * (a.reach x).card < depth →
    editsWithin? a source message depth x = some (editsAt a source message depth x)

def TextEnds (a : Arena) (source : String) (x : NodeId) : Prop :=
  ∀ depth, 0 < depth → 2 * (a.reach x).card ≤ depth →
    textWithin? a source depth x = some (textAt a source depth x)

theorem textEnds (ha : a.Acyclic) {source : String}
    (hedits : ∀ y, a.Child x y → EditsEnd a source y)
    (htext : ∀ y, a.Child x y → TextEnds a source y) : TextEnds a source x := by
  intro depth hpos hdepth
  obtain ⟨depth, rfl⟩ := Nat.exists_eq_add_of_le' hpos
  cases hnode : a.node? x with
  | none => rw [textWithin?, textAt, hnode]
  | some node =>
    have hless : ∀ y ∈ node.shape.children, a.Child x y ∧ 2 * (a.reach y).card < depth := by
      intro y hy
      have hchild := (Arena.child_iff hnode).mpr hy
      have hcard := Arena.card_reach_lt ha hchild
      exact ⟨hchild, by omega⟩
    by_cases hsource : ∃ span, node.origin = .source ∧ node.span = some span
    · obtain ⟨span, ho, hs⟩ := hsource
      obtain ⟨found, hfound, heq⟩ := exists_mapM fun y hy =>
        hedits y (hless y hy).1 "" depth (hless y hy).2
      rw [textWithin?_nested source depth hnode ho hs, textAt_nested source depth hnode ho hs]
      cases Text.slice? source.toList span with
      | none => rfl
      | some covered =>
        dsimp only
        rw [hfound, Option.map_some, heq]
    · have hwritten : ∀ span, node.origin = .source → node.span ≠ some span :=
        fun span ho hs => hsource ⟨span, ho, hs⟩
      obtain ⟨found, hfound, heq⟩ := exists_mapM fun y hy =>
        htext y (hless y hy).1 depth (by have := (hless y hy).2; omega) (hless y hy).2.le
      rw [textWithin?_written source depth hnode hwritten,
        textAt_written source depth hnode hwritten, hfound, Option.map_some, heq]

theorem editsEnd (ha : a.Acyclic) {source : String}
    (hedits : ∀ y, a.Child x y → EditsEnd a source y) (htext : TextEnds a source x) :
    EditsEnd a source x := by
  intro message depth hdepth
  obtain ⟨depth, rfl⟩ := Nat.exists_eq_add_of_le' (Nat.lt_of_le_of_lt (Nat.zero_le _) hdepth)
  by_cases hbuilt : ∃ n span, a.node? x = some n ∧ n.origin = .built (some span)
  · obtain ⟨n, span, hn, ho⟩ := hbuilt
    have hcard := Arena.card_reach_pos (Arena.lt_size_of_node? hn)
    rw [editsWithin?_built source message depth hn ho, editsAt_built source message depth hn ho,
      htext depth (by omega) (by omega), Option.map_some]
  · have ho : ∀ n span, a.node? x = some n → n.origin ≠ .built (some span) :=
      fun n span hn ho => hbuilt ⟨n, span, hn, ho⟩
    obtain ⟨found, hfound, heq⟩ := exists_mapM fun y (hy : a.Child x y) => by
      have hcard := Arena.card_reach_lt ha hy
      exact hedits y hy message depth (by omega)
    rw [editsWithin?_node source message depth ho, hfound, Option.map_some, heq]
    by_cases hlt : x < a.size
    · obtain ⟨node, hnode⟩ := Arena.exists_node? hlt
      rw [editsAt_node source message depth hnode fun span => ho node span hnode,
        Arena.children_eq hnode]
    · have hge := Nat.le_of_not_lt hlt
      rw [editsAt_of_size_le hge, Arena.children_of_size_le hge]
      rfl

theorem ends (ha : a.Acyclic) (source : String) (x : NodeId) :
    EditsEnd a source x ∧ TextEnds a source x := by
  induction hcard : (a.reach x).card using Nat.strong_induction_on generalizing x with
  | _ c ih =>
    have hchild : ∀ y, a.Child x y → EditsEnd a source y ∧ TextEnds a source y :=
      fun y hy => ih _ (hcard ▸ Arena.card_reach_lt ha hy) y rfl
    have htext := textEnds ha (fun y hy => (hchild y hy).1) fun y hy => (hchild y hy).2
    exact ⟨editsEnd ha (fun y hy => (hchild y hy).1) htext, htext⟩

/-- Without a cycle all nodes are reached within the bound, and what is then found are the edits and
the text. -/
theorem within_depthBound (ha : a.Acyclic) (source message : String) (x : NodeId) {depth : Nat}
    (h : depthBound a ≤ depth) :
    editsWithin? a source message depth x = some (edits a x source message) ∧
      textWithin? a source depth x = some (text a x source) := by
  have hcard := Arena.card_reach_le a x
  obtain ⟨hedits, htext⟩ := ends ha source x
  obtain ⟨heq, heq'⟩ := depthBound_enough ha source message x h
  unfold depthBound at h
  rw [hedits message depth (by omega), htext depth (by omega) (by omega), heq, heq']
  exact ⟨rfl, rfl⟩

end FactoryLint.Rewrite
