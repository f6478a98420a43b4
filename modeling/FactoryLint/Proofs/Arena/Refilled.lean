import FactoryLint.Proofs.Arena.Acyclic
import FactoryLint.Proofs.Arena.Slot

namespace FactoryLint

attribute [ext] Label

variable {old new : NodeId}

namespace Shape

variable {x y : Shape}

def ofParts? : Kind → List NodeId → Option Shape
  | .arrayLiteral, items => some (.arrayLiteral items)
  | .item, [value] => some (.arrayItem none value)
  | .pair, [key, value] => some (.arrayItem (some key) value)
  | .property name, [object] => some (.property object name)
  | .methodCall name, object :: arguments => some (.methodCall object name arguments)
  | .functionCall name, arguments => some (.functionCall name arguments)
  | .variable name, [] => some (.variable name)
  | .interpolated, parts => some (.interpolated parts)
  | .literal text, [] => some (.literal text)
  | .other, children => some (.other children)
  | _, _ => none

theorem ofParts?_parts (x : Shape) : ofParts? x.kind x.children = some x := by
  cases x with
  | arrayItem key value => cases key <;> rfl
  | _ => rfl

theorem eq_of_kind_of_children (hk : x.kind = y.kind) (hc : x.children = y.children) : x = y := by
  have h := x.ofParts?_parts
  rw [hk, hc, ofParts?_parts] at h
  exact (Option.some.inj h).symm

theorem isSome_replaceIn? {l : List NodeId} : (replaceIn? old new l).isSome ↔ old ∈ l := by
  induction l with
  | nil => simp [replaceIn?]
  | cons c cs ih =>
    by_cases hc : c = old
    · simp [replaceIn?, hc]
    · simp [replaceIn?, hc, ih, Ne.symm hc]

theorem replaceIn?_append {before : List NodeId} (h : old ∉ before) (after : List NodeId) :
    replaceIn? old new (before ++ old :: after) = some (before ++ new :: after) := by
  induction before with
  | nil => simp [replaceIn?]
  | cons c cs ih =>
    obtain ⟨hc, hcs⟩ := List.ne_and_not_mem_of_not_mem_cons h
    simp [replaceIn?, Ne.symm hc, ih hcs]

theorem replaceIn?_eq_some_iff {l l' : List NodeId} : replaceIn? old new l = some l' ↔
    ∃ before after, l = before ++ old :: after ∧ l' = before ++ new :: after ∧ old ∉ before := by
  constructor
  · intro h
    have hmem : old ∈ l := isSome_replaceIn?.mp (by rw [h]; rfl)
    obtain ⟨before, after, rfl, hbefore⟩ := List.eq_append_cons_of_mem hmem
    rw [replaceIn?_append hbefore] at h
    exact ⟨before, after, rfl, (Option.some.inj h).symm, hbefore⟩
  · rintro ⟨before, after, rfl, rfl, hbefore⟩
    exact replaceIn?_append hbefore after

theorem replaceIn?_ite_eq_some_iff (p : Prop) [Decidable p] {l l' : List NodeId} :
    replaceIn? old new (if p then l.reverse else l) = some (if p then l'.reverse else l') ↔
      ∃ before after, l = before ++ old :: after ∧ l' = before ++ new :: after ∧
        old ∉ if p then after else before := by
  rw [replaceIn?_eq_some_iff]
  split_ifs
  · constructor
    · rintro ⟨rest, front, hl, hl', hrest⟩
      refine ⟨front.reverse, rest.reverse, ?_, ?_, by rwa [List.mem_reverse]⟩
      · simpa using congrArg List.reverse hl
      · simpa using congrArg List.reverse hl'
    · rintro ⟨before, after, rfl, rfl, hafter⟩
      exact ⟨after.reverse, before.reverse, by simp, by simp, by rwa [List.mem_reverse]⟩
  · exact Iff.rfl

/-- The nodes a shape refers to, in the order in which their slots are tried: a value comes before
its key. -/
def tried : Shape → List NodeId
  | .arrayItem (some key) value => [value, key]
  | x => x.children

theorem tried_eq (x : Shape) :
    x.tried = if x.kind = .pair then x.children.reverse else x.children := by
  cases x with
  | arrayItem key value => cases key <;> rfl
  | _ => rfl

/-- Filling a slot of a shape is the same for all shapes: it says what it said, and the first slot
with `old`, in the order in which they are tried, is filled. -/
theorem map_replaceChild? (old new : NodeId) (x : Shape) :
    (x.replaceChild? old new).map (fun y => (y.kind, y.tried)) =
      (replaceIn? old new x.tried).map fun l => (x.kind, l) := by
  cases x with
  | arrayItem key value =>
    cases key with
    | none =>
      by_cases hv : value = old <;> simp [replaceChild?, replaceIn?, tried, kind, children, hv]
    | some key =>
      by_cases hv : value = old
      · simp [replaceChild?, replaceIn?, tried, kind, hv]
      · by_cases hk : key = old <;> simp [replaceChild?, replaceIn?, tried, kind, hv, hk]
  | property object name =>
    by_cases ho : object = old <;> simp [replaceChild?, replaceIn?, tried, kind, children, ho]
  | methodCall object name arguments =>
    by_cases ho : object = old
    · simp [replaceChild?, replaceIn?, tried, kind, children, ho]
    · simp [replaceChild?, replaceIn?, ho, tried, kind, children, Function.comp_def]
  | arrayLiteral | functionCall | interpolated | other => exact Option.map_map _ _ _
  | _ => rfl

theorem mem_tried : old ∈ x.tried ↔ old ∈ x.children := by
  rw [tried_eq]
  split_ifs
  · exact List.mem_reverse
  · exact Iff.rfl

theorem isSome_replaceChild? : (x.replaceChild? old new).isSome ↔ old ∈ x.children := by
  have h := congrArg Option.isSome (map_replaceChild? old new x)
  rw [Option.isSome_map, Option.isSome_map] at h
  rw [h, isSome_replaceIn?, mem_tried]

theorem kind_tried_injective : Function.Injective fun x : Shape => (x.kind, x.tried) := by
  intro x y h
  obtain ⟨hk, ht⟩ := Prod.mk.inj h
  rw [tried_eq, tried_eq, hk] at ht
  refine eq_of_kind_of_children hk ?_
  split_ifs at ht with hp
  · exact List.reverse_injective ht
  · exact ht

theorem replaceChild?_eq_some_iff_tried : x.replaceChild? old new = some y ↔
    y.kind = x.kind ∧ replaceIn? old new x.tried = some y.tried := by
  have h := map_replaceChild? old new x
  rw [← (Option.map_injective kind_tried_injective).eq_iff, h, Option.map_some,
    Option.map_eq_some_iff]
  simp only [Prod.mk.injEq]
  constructor
  · rintro ⟨l, hl, hk, rfl⟩
    exact ⟨hk.symm, hl⟩
  · rintro ⟨hk, hl⟩
    exact ⟨_, hl, hk.symm, rfl⟩

/-- The shape with one slot filled says the same, and refers to the same nodes but for one: the last
`old` of a pair, and the first of any other shape. -/
theorem replaceChild?_eq_some_iff : x.replaceChild? old new = some y ↔
    y.kind = x.kind ∧ ∃ before after, x.children = before ++ old :: after ∧
      y.children = before ++ new :: after ∧ old ∉ if x.kind = .pair then after else before := by
  rw [replaceChild?_eq_some_iff_tried]
  refine and_congr_right fun hk => ?_
  rw [tried_eq, tried_eq, hk, replaceIn?_ite_eq_some_iff]

end Shape

namespace Arena

variable {a b : Arena} {parent : NodeId}

/-- `b` is `a` with one slot of `parent` filled anew: where `old` was there is `new`, which counts
as built in its place. If several slots hold `old` it is the first of them, but the value of a
pair. -/
structure Refilled (a b : Arena) (parent old new : NodeId) : Prop where
  size : b.size = a.size
  children : ∃ before after, a.children parent = before ++ old :: after ∧
    b.children parent = before ++ new :: after ∧
    old ∉ if (a.label parent).kind = .pair then after else before
  children_of_ne : ∀ x ≠ parent, b.children x = a.children x
  kind : ∀ x, (b.label x).kind = (a.label x).kind
  span : ∀ x, (b.label x).span = (a.label x).span
  origin : (b.label new).origin = .built (a.span? old)
  origin_of_ne : ∀ x ≠ new, (b.label x).origin = (a.label x).origin

theorem eq_of_label_of_children (hsize : b.size = a.size) (hl : ∀ x, b.label x = a.label x)
    (hc : ∀ x, b.children x = a.children x) : b = a := by
  have hnode : ∀ x, b.node? x = a.node? x := by
    intro x
    by_cases hx : x < a.size
    · obtain ⟨n, hn⟩ := exists_node? hx
      obtain ⟨m, hm⟩ := exists_node? (hsize ▸ hx)
      have hlabel := hl x
      have hchildren := hc x
      rw [label_eq hm, label_eq hn] at hlabel
      rw [children_eq hm, children_eq hn] at hchildren
      have hshape := Shape.eq_of_kind_of_children (congrArg Label.kind hlabel) hchildren
      obtain ⟨shape, span, origin⟩ := m
      obtain ⟨shape', span', origin'⟩ := n
      simp_all [Node.label]
    · rw [node?_eq_none_iff.mpr (Nat.le_of_not_lt hx),
        node?_eq_none_iff.mpr (hsize ▸ Nat.le_of_not_lt hx)]
  obtain ⟨nodes⟩ := a
  obtain ⟨nodes'⟩ := b
  exact congrArg Arena.mk (Array.ext_getElem? hnode)

theorem isSome_replaceChild? :
    (a.replaceChild? parent old new).isSome ↔ old ∈ a.children parent := by
  have h : (a.replaceChild? parent old new).isSome =
      ((a.shape? parent).bind (·.replaceChild? old new)).isSome := by
    rw [replaceChild?]
    split <;> simp_all
  rw [h, children, shape?]
  cases a.node? parent with
  | none => simp
  | some n => exact Shape.isSome_replaceChild?

theorem exists_shape_of_replaceChild? (h : a.replaceChild? parent old new = some b) :
    ∃ n shape, a.node? parent = some n ∧ n.shape.replaceChild? old new = some shape ∧
      b.size = a.size ∧ ∀ id, b.node? id = (a.node? id).map fun m =>
        { m with
          shape := if id = parent then shape else m.shape
          origin := if id = new then .built (a.span? old) else m.origin } := by
  cases hs : (a.shape? parent).bind (·.replaceChild? old new) with
  | none =>
    rw [replaceChild?, hs] at h
    cases h
  | some shape =>
    obtain ⟨c, hc, hsize, hnode⟩ := node?_replaceChild? hs
    obtain rfl : c = b := Option.some.inj (hc.symm.trans h)
    obtain ⟨x, hx, hshape⟩ := Option.bind_eq_some_iff.mp hs
    obtain ⟨n, hn, rfl⟩ := Option.map_eq_some_iff.mp hx
    exact ⟨n, shape, hn, hshape, hsize, hnode⟩

theorem label_of_replaceChild? (hnew : new < a.size) (h : a.replaceChild? parent old new = some b)
    (x : NodeId) : b.label x =
      { a.label x with origin := if x = new then .built (a.span? old) else (a.label x).origin } := by
  obtain ⟨n, shape, hn, hshape, -, hnode⟩ := exists_shape_of_replaceChild? h
  have hkind := (Shape.replaceChild?_eq_some_iff.mp hshape).1
  cases hm : a.node? x with
  | none =>
    have hx : x ≠ new := fun hx => Nat.not_le.mpr hnew (hx ▸ node?_eq_none_iff.mp hm)
    rw [label, label, hnode, hm, if_neg hx]
    rfl
  | some m =>
    rw [label, label, hnode, hm]
    by_cases hp : x = parent
    · obtain rfl : n = m := Option.some.inj (hn.symm.trans (hp ▸ hm))
      simp [Node.label, hp, hkind]
    · simp [Node.label, hp]

theorem refilled_of_replaceChild? (hnew : new < a.size)
    (h : a.replaceChild? parent old new = some b) : a.Refilled b parent old new := by
  have hlabel := label_of_replaceChild? hnew h
  obtain ⟨n, shape, hn, hshape, hsize, hnode⟩ := exists_shape_of_replaceChild? h
  constructor
  case size => exact hsize
  case children =>
    obtain ⟨-, before, after, hx, hy, hnot⟩ := Shape.replaceChild?_eq_some_iff.mp hshape
    refine ⟨before, after, ?_, ?_, ?_⟩
    · rw [children_eq hn, hx]
    · rw [Arena.children, shape?, hnode, hn, ← hy]
      simp
    · rwa [label_eq hn]
  case children_of_ne =>
    intro x hne
    rw [Arena.children, Arena.children, shape?, shape?, hnode, Option.map_map]
    simp [hne, Function.comp_def]
  case kind => exact fun x => by rw [hlabel]
  case span => exact fun x => by rw [hlabel]
  case origin => rw [hlabel, if_pos rfl]
  case origin_of_ne => exact fun x hne => by rw [hlabel, if_neg hne]

theorem Refilled.replaceChild?_eq (h : a.Refilled b parent old new) (hnew : new < a.size) :
    a.replaceChild? parent old new = some b := by
  obtain ⟨before, after, hchildren, hchildren', hnot⟩ := h.children
  have hmem : old ∈ a.children parent := hchildren ▸ List.mem_append_right before List.mem_cons_self
  obtain ⟨c, hc⟩ := Option.isSome_iff_exists.mp (isSome_replaceChild?.mpr hmem)
  have hac := refilled_of_replaceChild? hnew hc
  rw [hc]
  refine congrArg some (eq_of_label_of_children ?_ ?_ ?_)
  · rw [hac.size, h.size]
  · intro x
    ext1
    · rw [hac.kind, h.kind]
    · rw [hac.span, h.span]
    · by_cases hx : x = new
      · rw [hx, hac.origin, h.origin]
      · rw [hac.origin_of_ne x hx, h.origin_of_ne x hx]
  · intro x
    by_cases hx : x = parent
    · have hb := (Shape.replaceIn?_ite_eq_some_iff _).mpr h.children
      have hc := (Shape.replaceIn?_ite_eq_some_iff _).mpr hac.children
      have hbc := Option.some.inj (hc.symm.trans hb)
      rw [hx]
      split_ifs at hbc
      · exact List.reverse_injective hbc
      · exact hbc
    · rw [hac.children_of_ne x hx, h.children_of_ne x hx]

/-- A slot is filled exactly where `old` is among the children of `parent`. Where it is not, the
arena that is gone on with is the one there was; where it is, the result is the arena in which one
`old` among these children gave place to `new`, and no other. -/
theorem replaceChild_refills (a : Arena) (parent old : NodeId) (hnew : new < a.size) :
    ((a.replaceChild? parent old new).isSome ↔ old ∈ a.children parent) ∧
    (¬(a.replaceChild? parent old new).isSome → (a.replaceChild? parent old new).getD a = a) ∧
    ∀ b, a.replaceChild? parent old new = some b ↔ a.Refilled b parent old new := by
  refine ⟨isSome_replaceChild?, fun hnone => ?_, fun b => ⟨?_, ?_⟩⟩
  · rw [Option.not_isSome_iff_eq_none.mp hnone]
    rfl
  · exact refilled_of_replaceChild? hnew
  · exact fun h => h.replaceChild?_eq hnew

def sharedPair : Arena :=
  ⟨#[⟨.literal "1", some ⟨1, 2⟩, .source⟩, ⟨.arrayItem (some 0) 0, some ⟨1, 7⟩, .source⟩]⟩

theorem replaceChild_refills_sharedPair : 1 < sharedPair.size ∧ 0 ∈ sharedPair.children 1 ∧
    ∃ b, sharedPair.replaceChild? 1 0 1 = some b ∧ sharedPair.Refilled b 1 0 1 ∧
      b.children 1 = [0, 1] := by
  have hnew : 1 < sharedPair.size := by decide
  obtain ⟨hsome, -, hiff⟩ := replaceChild_refills sharedPair 1 0 hnew
  have hmem := hsome.mp rfl
  exact ⟨hnew, hmem, _, rfl, (hiff _).mp rfl, rfl⟩

end Arena

end FactoryLint
