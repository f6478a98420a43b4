import FactoryLint.Proofs.Arena.Acyclic
import FactoryLint.Proofs.Rewrite.Emit

namespace FactoryLint.Rewrite

variable {a : Arena} {id : NodeId}

theorem editsAt_of_size_le (h : a.size ≤ id) (source message : String) (depth : Nat) :
    editsAt a source message depth id = .ok [] := by
  cases depth with
  | zero => rw [editsAt]
  | succ depth =>
    rw [editsAt, Arena.node?_eq_none_iff.mpr h, Arena.children_of_size_le h]
    rfl

theorem textAt_of_size_le (h : a.size ≤ id) (source : String) (depth : Nat) :
    textAt a source depth id = .ok "" := by
  cases depth with
  | zero => rw [textAt]
  | succ depth => rw [textAt, Arena.node?_eq_none_iff.mpr h]

theorem editsAt_built {n : Node} {span : Span} (source message : String) (depth : Nat)
    (hn : a.node? id = some n) (ho : n.origin = .built (some span)) :
    editsAt a source message (depth + 1) id =
      (textAt a source depth id).map fun text => [⟨span, text, message⟩] := by
  obtain ⟨shape, _, origin⟩ := n
  obtain rfl : origin = _ := ho
  rw [editsAt, hn]

theorem textAt_nested {n : Node} {span : Span} (source : String) (depth : Nat)
    (hn : a.node? id = some n) (ho : n.origin = .source) (hs : n.span = some span) :
    textAt a source (depth + 1) id = match Text.slice? source.toList span with
      | none => .ok ""
      | some covered => (n.shape.children.mapM (editsAt a source "" depth)).bind
          fun nested => spliced span covered nested.flatten := by
  obtain ⟨shape, known, origin⟩ := n
  obtain rfl : origin = _ := ho
  obtain rfl : known = _ := hs
  rw [textAt, hn]
  rfl

theorem textAt_written {n : Node} (source : String) (depth : Nat) (hn : a.node? id = some n)
    (h : ∀ span, n.origin = .source → n.span ≠ some span) :
    textAt a source (depth + 1) id =
      (n.shape.children.mapM (textAt a source depth)).map (written n.shape) := by
  rw [textAt, hn]
  split
  · rename_i heq
    cases heq
  · rename_i span heq
    obtain rfl := Option.some.inj heq
    exact absurd rfl (h span rfl)
  · rename_i heq
    obtain rfl := Option.some.inj heq
    rfl

theorem textAt_source {n : Node} {span : Span} {source : String} {covered : List Char} (depth : Nat)
    (hn : a.node? id = some n) (ho : n.origin = .source) (hs : n.span = some span)
    (hslice : Text.slice? source.toList span = some covered) :
    textAt a source (depth + 1) id =
      (editsAt a source "" (depth + 1) id).bind (spliced span covered) := by
  rw [textAt_nested source depth hn ho hs, hslice, editsAt_node source "" depth hn (by simp [ho])]
  cases n.shape.children.mapM (editsAt a source "" depth) <;> rfl

/-- The edits at and below `id` are the same for all depths that are great enough. -/
def EditsSettle (a : Arena) (source : String) (id : NodeId) : Prop :=
  ∀ message m n, 2 * (a.reach id).card ≤ m → 2 * (a.reach id).card ≤ n →
    editsAt a source message m id = editsAt a source message n id

def TextSettles (a : Arena) (source : String) (id : NodeId) : Prop :=
  ∀ m n, 2 * (a.reach id).card ≤ m + 1 → 2 * (a.reach id).card ≤ n + 1 →
    textAt a source m id = textAt a source n id

theorem textAt_settles (ha : a.Acyclic) {source : String}
    (hedits : ∀ y, a.Child id y → EditsSettle a source y)
    (htext : ∀ y, a.Child id y → TextSettles a source y) : TextSettles a source id := by
  intro m n hm hn
  rcases Nat.lt_or_ge id a.size with hlt | hge
  · obtain ⟨node, hnode⟩ := Arena.exists_node? hlt
    have hpos := Arena.card_reach_pos hlt
    obtain ⟨m, rfl⟩ := Nat.exists_eq_add_of_le' (by omega : 1 ≤ m)
    obtain ⟨n, rfl⟩ := Nat.exists_eq_add_of_le' (by omega : 1 ≤ n)
    by_cases hsource : ∃ span, node.origin = .source ∧ node.span = some span
    · obtain ⟨span, ho, hs⟩ := hsource
      rw [textAt_nested source m hnode ho hs, textAt_nested source n hnode ho hs]
      have hnested : node.shape.children.mapM (editsAt a source "" m) =
          node.shape.children.mapM (editsAt a source "" n) := by
        refine mapM_congr fun y hy => ?_
        have hchild := (Arena.child_iff hnode).mpr hy
        have hless := Arena.card_reach_lt ha hchild
        exact hedits y hchild "" m n (by omega) (by omega)
      rw [hnested]
    · have hwritten : ∀ span, node.origin = .source → node.span ≠ some span :=
        fun span ho hs => hsource ⟨span, ho, hs⟩
      rw [textAt_written source m hnode hwritten, textAt_written source n hnode hwritten]
      refine congrArg (Except.map _ ·) (mapM_congr fun y hy => ?_)
      have hchild := (Arena.child_iff hnode).mpr hy
      have hless := Arena.card_reach_lt ha hchild
      exact htext y hchild m n (by omega) (by omega)
  · rw [textAt_of_size_le hge, textAt_of_size_le hge]

theorem editsAt_settle (ha : a.Acyclic) {source : String}
    (hedits : ∀ y, a.Child id y → EditsSettle a source y) (htext : TextSettles a source id) :
    EditsSettle a source id := by
  intro message m n hm hn
  rcases Nat.lt_or_ge id a.size with hlt | hge
  · obtain ⟨node, hnode⟩ := Arena.exists_node? hlt
    have hpos := Arena.card_reach_pos hlt
    obtain ⟨m, rfl⟩ := Nat.exists_eq_add_of_le' (by omega : 1 ≤ m)
    obtain ⟨n, rfl⟩ := Nat.exists_eq_add_of_le' (by omega : 1 ≤ n)
    by_cases hbuilt : ∃ span, node.origin = .built (some span)
    · obtain ⟨span, ho⟩ := hbuilt
      rw [editsAt_built source message m hnode ho, editsAt_built source message n hnode ho,
        htext m n hm hn]
    · have ho : ∀ span, node.origin ≠ .built (some span) := fun span ho => hbuilt ⟨span, ho⟩
      rw [editsAt_node source message m hnode ho, editsAt_node source message n hnode ho]
      refine congrArg (Except.map _ ·) (mapM_congr fun y hy => ?_)
      have hchild := (Arena.child_iff hnode).mpr hy
      have hless := Arena.card_reach_lt ha hchild
      exact hedits y hchild message m n (by omega) (by omega)
  · rw [editsAt_of_size_le hge, editsAt_of_size_le hge]

theorem settles (ha : a.Acyclic) (source : String) (id : NodeId) :
    EditsSettle a source id ∧ TextSettles a source id := by
  induction hcard : (a.reach id).card using Nat.strong_induction_on generalizing id with
  | _ c ih =>
    have hchild : ∀ y, a.Child id y → EditsSettle a source y ∧ TextSettles a source y :=
      fun y hy => ih _ (hcard ▸ Arena.card_reach_lt ha hy) y rfl
    have htext := textAt_settles ha (fun y hy => (hchild y hy).1) fun y hy => (hchild y hy).2
    exact ⟨editsAt_settle ha (fun y hy => (hchild y hy).1) htext, htext⟩

theorem depthBound_enough (ha : a.Acyclic) (source message : String) (id : NodeId) {depth : Nat}
    (h : depthBound a ≤ depth) : editsAt a source message depth id = edits a id source message ∧
      textAt a source depth id = text a id source := by
  have hcard := Arena.card_reach_le a id
  obtain ⟨hedits, htext⟩ := settles ha source id
  unfold depthBound at h
  constructor
  · exact hedits message _ _ (by omega) (by unfold depthBound; omega)
  · exact htext _ _ (by omega) (by unfold depthBound; omega)

end FactoryLint.Rewrite
