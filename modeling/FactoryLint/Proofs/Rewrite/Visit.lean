import FactoryLint.Proofs.Arena.Slot
import FactoryLint.Proofs.Rewrite.Sites
import FactoryLint.Rewrite.Apply

namespace FactoryLint.Rewrite

variable {s : Settings} {a b : Arena}

/-- `b` is `a` with the helper's call in the place of `object`, the first child of `id`. -/
structure Swapped (s : Settings) (a b : Arena) (id object : NodeId) : Prop where
  size : b.size = a.size + 1
  call : b.node? a.size = some ⟨.call s.helperFunction [], none, .built (a.span? object)⟩
  kept : ∀ j < a.size, j ≠ id → b.node? j = a.node? j
  parent : ∃ n shape, a.node? id = some n ∧ b.node? id = some { n with shape } ∧
    shape.kind = n.shape.kind ∧ shape.children = a.size :: n.shape.children.tail

theorem perform_offer {id object : NodeId} {n : Node} (shape : Shape) (hn : a.node? id = some n)
    (ho : object < a.size) (hm : isMember s a object) (hk : shape.kind = n.shape.kind)
    (hs : n.shape.replaceChild? object a.size = some shape)
    (hc : shape.children = a.size :: n.shape.children.tail) (count : Nat) :
    ∃ b, perform a count (offer s a id object) = (b, count + 1) ∧ Swapped s a b id object := by
  have hid : id ≠ a.size := Nat.ne_of_lt (Arena.lt_size_of_node? hn)
  have hpush := a.node?_pushBuilt (.call s.helperFunction [])
  have hslot : ((a.pushBuilt (.call s.helperFunction [])).2.shape? id).bind
      (·.replaceChild? object a.size) = some shape := by
    rw [Arena.shape?, hpush, if_neg hid, hn, Option.map_some, Option.bind_some, hs]
  have hspan : (a.pushBuilt (.call s.helperFunction [])).2.span? object = a.span? object := by
    rw [Arena.span?, Arena.span?, hpush, if_neg (Nat.ne_of_lt ho)]
  obtain ⟨b, hb, hsize, hnode⟩ := Arena.node?_replaceChild? hslot
  refine ⟨b, ?_, ?_, ?_, fun j hj hji => ?_, ⟨n, shape, hn, ?_, hk, hc⟩⟩
  · rw [offer, if_pos hm]
    simp only [perform]
    change (a.pushBuilt (.call s.helperFunction [])).2.replaceChild? id object
      (a.pushBuilt (.call s.helperFunction [])).1 = some b at hb
    rw [hb]
  · rw [hsize, Arena.size_pushBuilt]
  · rw [hnode, hpush, if_pos rfl, hspan]
    simp [hid.symm]
  · rw [hnode, hpush, if_neg (Nat.ne_of_lt hj)]
    simp [hji, Nat.ne_of_lt hj]
  · rw [hnode, hpush, if_neg hid, hn]
    simp [hid]

theorem beq_variable (name : String) : (shape : Shape) →
    (some shape == some (Shape.variable name)) = (shape.kind == .variable name)
  | .variable x => by by_cases h : x = name <;> simp [h]
  | .arrayItem none _ | .arrayItem (some _) _ | .arrayLiteral _ | .property _ _
  | .methodCall _ _ _ | .functionCall _ _ | .interpolated _ | .literal _ | .other _ => rfl

theorem isMember_eq {t : Tree NodeId} (h : a.Holds t) :
    isMember s a t.label = readsMember s a.label t := by
  cases t with
  | node x ts =>
    obtain ⟨⟨n, hn, hc⟩, hts⟩ := Arena.holds_node.mp h
    have hshape : a.shape? x = some n.shape := by rw [Arena.shape?, hn, Option.map_some]
    have hkind : (a.label x).kind = n.shape.kind := by rw [Arena.label_eq hn]; rfl
    rw [Tree.label_node, isMember, hshape]
    by_cases hp : ∃ object name, n.shape = .property object (some name)
    · obtain ⟨object, name, hs⟩ := hp
      rw [hs] at hc hkind
      obtain ⟨⟨y, us⟩, rfl, rfl⟩ : ∃ u, ts = [u] ∧ u.label = object := by
        rcases ts with _ | ⟨u, _ | ⟨_, _⟩⟩ <;> simp_all [Shape.children]
      obtain ⟨⟨m, hm, hd⟩, -⟩ := Arena.holds_node.mp (hts _ (List.mem_singleton_self _))
      have hv : a.shape? y = some m.shape := by rw [Arena.shape?, hm, Option.map_some]
      have hk : (a.label y).kind = m.shape.kind := by rw [Arena.label_eq hm]; rfl
      cases us with
      | nil =>
        simp only [readsMember, hs, hkind, Shape.kind_property, Tree.label_node, hv, hk,
          beq_variable]
      | cons u us =>
        have hne : (some m.shape == some (.variable s.selfReference)) = false := by
          refine beq_eq_false_iff_ne.mpr fun he => ?_
          rw [Option.some.inj he] at hd
          cases hd
        simp only [readsMember, hs, Tree.label_node, hv, hne, Bool.and_false]
    · rw [readsMember_of_kind_ne]
      · cases hs : n.shape with
        | property object name => cases name <;> simp_all
        | _ => rfl
      · intro name hk
        obtain ⟨object, hs⟩ := Shape.eq_property_of_kind (hkind.symm.trans hk)
        exact hp ⟨object, name, hs⟩

theorem offer_of_not_isMember {id object : NodeId} (h : ¬isMember s a object) :
    offer s a id object = none :=
  if_neg h

section

variable {x : NodeId} {ts : List (Tree NodeId)} (h : a.Holds (.node x ts)) (count : Nat)

include h

theorem visit_of_isClosed (hx : (a.label x).isClosed) : visit s x a count = (.skip, a, count) := by
  obtain ⟨⟨⟨shape, span, origin⟩, hn, -⟩, -⟩ := Arena.holds_node.mp h
  rw [Arena.label_eq hn] at hx
  cases origin with
  | built replaces => simp only [visit, hn, Node.isBuilt, if_true]
  | source =>
    cases shape with
    | interpolated parts => simp [visit, hn, Node.isBuilt]
    | arrayItem key value => cases key <;> cases hx
    | _ => cases hx

theorem visit_of_not_isSite (hx : ¬(a.label x).isClosed) (hs : ¬isSite s a.label (.node x ts)) :
    visit s x a count = (.enter, a, count) := by
  obtain ⟨⟨⟨shape, span, origin⟩, hn, hc⟩, hts⟩ := Arena.holds_node.mp h
  have hshape : a.shape? x = some shape := by rw [Arena.shape?, hn, Option.map_some]
  have hkind : (a.label x).kind = shape.kind := by rw [Arena.label_eq hn]; rfl
  rw [Arena.label_eq hn] at hx
  cases origin with
  | built replaces => exact absurd rfl hx
  | source =>
    cases shape with
    | interpolated parts => exact absurd rfl hx
    | property object name =>
      obtain ⟨t, ts, rfl⟩ := List.exists_cons_of_ne_nil (l := ts) (by rintro rfl; cases hc)
      obtain ⟨rfl, -⟩ := List.cons.inj hc
      have hm : ¬isMember s a t.label := by
        rw [isMember_eq (hts t (by simp))]
        simpa [isSite, hkind] using hs
      simp [visit, hn, Node.isBuilt, matchProperty, hshape, offer_of_not_isMember hm, perform]
    | methodCall object name arguments =>
      obtain ⟨t, ts, rfl⟩ := List.exists_cons_of_ne_nil (l := ts) (by rintro rfl; cases hc)
      obtain ⟨rfl, -⟩ := List.cons.inj hc
      have hm : matchCall s a x = none := by
        rw [matchCall, hshape]
        simp only
        split_ifs with hex
        · rfl
        · refine offer_of_not_isMember ?_
          rw [isMember_eq (hts t (by simp))]
          simpa [isSite, hkind, hex] using hs
      simp [visit, hn, Node.isBuilt, hm, perform]
    | _ => simp [visit, hn, Node.isBuilt]

end

theorem visit_of_isSite {x : NodeId} {object : Tree NodeId} {rest : List (Tree NodeId)}
    (h : a.Holds (.node x (object :: rest))) (hx : ¬(a.label x).isClosed)
    (hs : isSite s a.label (.node x (object :: rest))) (count : Nat) :
    ∃ b, visit s x a count = (.enter, b, count + 1) ∧ Swapped s a b x object.label := by
  obtain ⟨⟨⟨shape, span, origin⟩, hn, hc⟩, hts⟩ := Arena.holds_node.mp h
  have hshape : a.shape? x = some shape := by rw [Arena.shape?, hn, Option.map_some]
  have hkind : (a.label x).kind = shape.kind := by rw [Arena.label_eq hn]; rfl
  have hobject : a.Holds object := hts object (by simp)
  have hlt : object.label < a.size := hobject.lt_size _ object.label_mem_labels
  rw [Arena.label_eq hn] at hx
  cases origin with
  | built replaces => exact absurd rfl hx
  | source =>
    cases shape with
    | property old name =>
      obtain ⟨rfl, -⟩ := List.cons.inj hc
      have hm : isMember s a object.label := by
        rw [isMember_eq hobject]
        simpa [isSite, hkind] using hs
      obtain ⟨b, hb, hab⟩ := perform_offer (.property a.size name) hn hlt hm rfl
        (by simp [Shape.replaceChild?]) rfl count
      exact ⟨b, by simp [visit, hn, Node.isBuilt, matchProperty, hshape, hb], hab⟩
    | methodCall old name arguments =>
      obtain ⟨rfl, -⟩ := List.cons.inj hc
      obtain ⟨hex, hm⟩ : ¬name.any (s.Excludes ·) ∧ isMember s a object.label := by
        rw [isMember_eq hobject]
        simpa [isSite, hkind] using hs
      obtain ⟨b, hb, hab⟩ := perform_offer (.methodCall a.size name arguments) hn hlt hm
        rfl (by simp [Shape.replaceChild?]) rfl count
      exact ⟨b, by simp [visit, hn, Node.isBuilt, matchCall, hshape, hex, hb], hab⟩
    | arrayItem key value => cases key <;> simp [isSite, hkind, Shape.kind] at hs
    | _ => simp [isSite, hkind, Shape.kind] at hs

end FactoryLint.Rewrite
