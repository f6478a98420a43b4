import FactoryLint.Proofs.Rewrite.Again
import FactoryLint.Proofs.Rewrite.Emit

namespace FactoryLint.Rewrite

open Relation (ReflTransGen)

variable {α : Type} {s : Settings} {a b : Arena}

/-- What stands at the sites of a tree in the places to be filled anew. -/
def objects (s : Settings) (view : α → Label) (t : Tree α) : List (Tree α) :=
  (sites s view t).filterMap fun u => u.parts.head?

/-- The nodes to be replaced in a tree, in the order of a walk. -/
def objectIds (s : Settings) (a : Arena) (t : Tree NodeId) : List NodeId :=
  (objects s a.label t).map Tree.label

theorem mem_sites_node {view : α → Label} {x : α} {ts : List (Tree α)} {u : Tree α} :
    u ∈ sites s view (.node x ts) ↔ ¬(view x).isClosed ∧
      (isSite s view (.node x ts) ∧ u = .node x ts ∨ ∃ t ∈ ts, u ∈ sites s view t) := by
  rw [sites_node]
  by_cases hc : (view x).isClosed
  · simp [hc]
  · by_cases hs : isSite s view (.node x ts) <;> simp [hc, hs]

@[elab_as_elim]
theorem mem_sites_induct {view : α → Label} {u : Tree α}
    {motive : (t : Tree α) → u ∈ sites s view t → Prop}
    (here : ∀ h, ¬(view u.label).isClosed → isSite s view u → motive u h)
    (below : ∀ x ts h, ¬(view x).isClosed → ∀ t ∈ ts, (hu : u ∈ sites s view t) → motive t hu →
      motive (.node x ts) h)
    {t : Tree α} (h : u ∈ sites s view t) : motive t h := by
  induction t with
  | node x ts ih =>
    obtain ⟨hc, ⟨hs, rfl⟩ | ⟨t, ht, hu⟩⟩ := mem_sites_node.mp h
    · exact here h hc hs
    · exact below x ts h hc t ht hu (ih t ht hu)

theorem isSite_of_mem_sites {view : α → Label} {t u : Tree α} (h : u ∈ sites s view t) :
    ¬(view u.label).isClosed ∧ isSite s view u := by
  induction h using mem_sites_induct with
  | here _ hc hs => exact ⟨hc, hs⟩
  | below _ _ _ _ _ _ _ ih => exact ih

theorem exists_object_of_mem_sites {view : α → Label} {t u : Tree α} (h : u ∈ sites s view t) :
    ∃ x object rest, u = .node x (object :: rest) := by
  obtain ⟨-, hs⟩ := isSite_of_mem_sites h
  rcases u with ⟨x, _ | ⟨object, rest⟩⟩
  · cases hs
  · exact ⟨x, object, rest, rfl⟩

theorem labels_sublist_of_mem_sites {view : α → Label} {t u : Tree α}
    (h : u ∈ sites s view t) : u.labels.Sublist t.labels := by
  induction h using mem_sites_induct with
  | here => exact List.Sublist.refl _
  | below x ts _ _ t ht _ ih =>
    have hts : t.labels.Sublist (ts.flatMap Tree.labels) := by
      simpa using (List.singleton_sublist.mpr ht).flatMap Tree.labels
    rw [Tree.labels_node]
    exact (ih.trans hts).cons x

theorem holds_of_mem_sites {view : NodeId → Label} {t u : Tree NodeId} (h : u ∈ sites s view t)
    (ht : a.Holds t) : a.Holds u := by
  induction h using mem_sites_induct with
  | here => exact ht
  | below x ts _ _ t htt _ ih => exact ih ((Arena.holds_node.mp ht).2 t htt)

theorem siteAt_of_isSite {x : NodeId} {object : Tree NodeId} {rest : List (Tree NodeId)}
    (h : a.Holds (.node x (object :: rest))) (hx : ¬(a.label x).isClosed)
    (hs : isSite s a.label (.node x (object :: rest))) : SiteAt s a x object.label := by
  obtain ⟨⟨⟨shape, span, origin⟩, hn, hc⟩, hts⟩ := Arena.holds_node.mp h
  have hmember : isMember s a object.label := by
    rw [isMember_eq (hts object (by simp))]
    exact readsMember_of_isSite hs
  have hkind : (a.label x).kind = shape.kind := by rw [Arena.label_eq hn]; rfl
  rw [Arena.label_eq hn] at hx
  cases origin with
  | built replaces => exact absurd rfl hx
  | source =>
    refine ⟨⟨_, hn, rfl, ?_⟩, hmember⟩
    cases shape with
    | property object' name =>
      obtain ⟨rfl, -⟩ := List.cons.inj hc
      exact Or.inl ⟨name, rfl⟩
    | methodCall object' name arguments =>
      obtain ⟨rfl, -⟩ := List.cons.inj hc
      obtain ⟨hex, -⟩ : ¬name.any (s.Excludes ·) ∧ readsMember s a.label object := by
        simpa [isSite, hkind] using hs
      exact Or.inr ⟨name, arguments, rfl, Bool.eq_false_iff.mpr hex⟩
    | arrayItem key value => cases key <;> simp [isSite, hkind, Shape.kind] at hs
    | _ => simp [isSite, hkind, Shape.kind] at hs

theorem objects_node (view : α → Label) (x : α) (ts : List (Tree α)) :
    objects s view (.node x ts) = if (view x).isClosed then []
      else (if isSite s view (.node x ts) then ts.head?.toList else []) ++
        ts.flatMap (objects s view) := by
  rw [objects, sites_node]
  split_ifs with hc hs
  · rfl
  · rw [List.filterMap_append, List.filterMap_flatMap]
    cases ts <;> rfl
  · rw [List.nil_append, List.nil_append, List.filterMap_flatMap]
    rfl

theorem objects_map {β : Type} (f : α → β) (view : β → Label) (t : Tree α) :
    objects s view (t.map f) = (objects s (view ∘ f) t).map (Tree.map f) := by
  rw [objects, sites_map, List.filterMap_map, objects, List.map_filterMap]
  congr 1
  funext u
  rcases u with ⟨x, _ | ⟨t, ts⟩⟩ <;> simp

theorem length_objects (view : α → Label) (t : Tree α) :
    (objects s view t).length = (sites s view t).length := by
  rw [objects, List.length_filterMap_eq_countP, List.countP_eq_length]
  intro u hu
  obtain ⟨x, object, rest, rfl⟩ := exists_object_of_mem_sites hu
  rfl

theorem labels_objects_sublist (view : α → Label) (t : Tree α) :
    ((objects s view t).map Tree.label).Sublist t.labels := by
  induction t with
  | node x ts ih =>
    have hflat : ∀ us ⊆ ts, ((us.flatMap (objects s view)).map Tree.label).Sublist
        (us.flatMap Tree.labels) := by
      intro us hus
      rw [List.map_flatMap]
      exact List.Sublist.flatMap_right us fun t ht => ih t (hus ht)
    rw [objects_node, Tree.labels_node]
    split_ifs with hc hs
    · exact List.nil_sublist _
    · -- What is replaced at the site holds no site itself.
      obtain ⟨object, rest, rfl⟩ := List.exists_cons_of_ne_nil (l := ts) (by
        rintro rfl
        cases hs)
      have hobject : objects s view object = [] := by
        rw [objects, sites_of_readsMember (readsMember_of_isSite hs), List.filterMap_nil]
      rw [List.flatMap_cons, hobject, List.nil_append, List.map_append, List.flatMap_cons]
      refine (List.Sublist.append ?_ (hflat rest (List.subset_cons_self _ _))).cons x
      exact List.singleton_sublist.mpr object.label_mem_labels
    · exact (hflat ts (List.Subset.refl ts)).cons x

theorem replaced_term (t : Tree NodeId) :
    replaced s (a.term t) = (objects s a.label t).map a.term :=
  objects_map a.label id t

theorem sites_literal {view : α → Label} {x : α} (h : (view x).kind = .arrayLiteral)
    (ho : (view x).origin = .source) (ts : List (Tree α)) :
    sites s view (.node x ts) = ts.flatMap (sites s view) := by
  have hc : ¬(view x).isClosed := by simp [Label.isClosed, h, ho]
  have hs : ¬isSite s view (.node x ts) := by cases ts <;> simp [isSite, h]
  rw [sites_node, if_neg hc, if_neg hs, List.nil_append]

theorem replaced_literal {ℓ : Label} (h : ℓ.kind = .arrayLiteral) (ho : ℓ.origin = .source)
    (ts : List Term) : replaced s (.node ℓ ts) = ts.flatMap (replaced s) := by
  have hsites : sites s id (.node ℓ ts) = ts.flatMap (sites s id) := sites_literal h ho ts
  rw [replaced, hsites, List.filterMap_flatMap]
  rfl

theorem length_siteIds_literal {x : NodeId} {ts : List (Tree NodeId)}
    (h : (a.label x).kind = .arrayLiteral) (ho : (a.label x).origin = .source) :
    (siteIds s a ts).length = (objectIds s a (.node x ts)).length := by
  rw [siteIds, objectIds, List.length_map, List.length_map, length_objects, sites_literal h ho]

theorem descent_of_label {x : NodeId} {n : Node} (hn : a.node? x = some n)
    (hx : ¬n.label.isClosed) : descent a x = .enter := by
  obtain ⟨shape, span, origin⟩ := n
  cases origin with
  | built => exact absurd rfl hx
  | source =>
    cases shape with
    | interpolated parts => exact absurd rfl hx
    | _ => simp [descent, hn, Node.isBuilt]

theorem reaches_of_mem_sites {t u : Tree NodeId} (h : u ∈ sites s a.label t) (ht : a.Holds t)
    (hab : Filled s a b) : ReflTransGen (Opens b) t.label u.label := by
  induction h using mem_sites_induct with
  | here => exact .refl
  | below x ts _ hx t htt hu ih =>
    obtain ⟨⟨n, hn, hchildren⟩, hts⟩ := Arena.holds_node.mp ht
    rw [Arena.label_eq hn] at hx
    have hchild : t.label ∈ n.shape.children := hchildren ▸ List.mem_map_of_mem htt
    refine (ih (hts t htt)).head ?_
    rcases hab.node?_or (Arena.lt_size_of_node? hn) with hkept | ⟨m, object, rest, shape, new, hm,
      hobject, hmember, hb, hkind, hc, -⟩
    · refine ⟨descent_of_label (hkept.trans hn) hx, ?_⟩
      rwa [Tree.label_node, Arena.Child, Arena.children_eq (hkept.trans hn)]
    · obtain rfl := Option.some.inj (hn.symm.trans hm)
      refine ⟨descent_of_label hb ?_, ?_⟩
      · rwa [Node.label, hkind]
      · -- A member holds no site, so the way does not lead through it.
        have hne : t.label ≠ object := by
          rintro rfl
          rw [isMember_eq (hts t htt)] at hmember
          rw [sites_of_readsMember hmember] at hu
          cases hu
        rw [Tree.label_node, Arena.Child, Arena.children_eq hb, hc]
        rw [hobject, List.mem_cons, or_iff_right hne] at hchild
        exact List.mem_cons_of_mem _ hchild

/-- A site that is none any more has lost its object, and no other child. -/
theorem lost_iff {x : NodeId} {object : Tree NodeId} {rest : List (Tree NodeId)}
    (hsite : SiteAt s a x object.label) (h : a.Holds (.node x (object :: rest)))
    (hn : (Tree.node x (object :: rest)).labels.Nodup) (hab : Filled s a b) (hb : Settled s b x)
    (c : NodeId) : a.Child x c ∧ ¬b.Child x c ↔ c = object.label := by
  obtain ⟨⟨n, hnode, hchildren⟩, -⟩ := Arena.holds_node.mp h
  rcases hab.node?_or hsite.id_lt with hsame | ⟨m, o, rest', shape, new, hm, ho, -, hnode', -, hc,
    hnew⟩
  · refine absurd ⟨?_, hab.isMember_iff.mpr hsite.member⟩ (hb object.label)
    rw [hsame]
    exact hsite.user
  · obtain rfl := Option.some.inj (hnode.symm.trans hm)
    obtain ⟨rfl, rfl⟩ := List.cons.inj (ho.symm.trans hchildren)
    have hrest : object.label ∉ rest.map Tree.label := by
      rw [Tree.labels_node, List.nodup_cons, List.flatMap_cons] at hn
      have hdisj := (List.nodup_append'.mp hn.2).2.2
      intro hmem
      obtain ⟨v, hv, hlabel⟩ := List.mem_map.mp hmem
      exact hdisj object.label_mem_labels
        (List.mem_flatMap.mpr ⟨v, hv, hlabel ▸ v.label_mem_labels⟩)
    rw [Arena.Child, Arena.Child, Arena.children_eq hnode, Arena.children_eq hnode', ho, hc,
      List.mem_cons, List.mem_cons]
    constructor
    · rintro ⟨rfl | hmem, hlost⟩
      · rfl
      · exact absurd (Or.inr hmem) hlost
    · rintro rfl
      have hne : object.label ≠ new :=
        Nat.ne_of_lt (Nat.lt_of_lt_of_le hsite.object_lt hnew)
      exact ⟨Or.inl rfl, not_or.mpr ⟨hne, hrest⟩⟩

/-- After a walk that has left no site, the objects of a tree are the children it has lost. -/
theorem mem_objectIds_iff {t : Tree NodeId} (ht : a.Holds t) (hn : t.labels.Nodup)
    (hab : Filled s a b) (hwalk : AllSettled s b [t.label])
    (hkept : ∀ x ∈ t.labels, x ∉ (sites s a.label t).map Tree.label → b.node? x = a.node? x)
    (c : NodeId) :
    c ∈ objectIds s a t ↔ ∃ x ∈ t.labels, a.Child x c ∧ ¬b.Child x c := by
  have hsite : ∀ x object rest, .node x (object :: rest) ∈ sites s a.label t →
      (a.Child x c ∧ ¬b.Child x c ↔ c = object.label) := by
    intro x object rest hu
    have hholds : a.Holds (.node x (object :: rest)) := holds_of_mem_sites hu ht
    obtain ⟨hx, hs⟩ := isSite_of_mem_sites hu
    have hsettled : Settled s b x :=
      hwalk t.label (List.mem_singleton_self _) x (reaches_of_mem_sites hu ht hab)
    exact lost_iff (siteAt_of_isSite hholds hx hs) hholds
      ((labels_sublist_of_mem_sites hu).nodup hn) hab hsettled c
  constructor
  · intro hc
    obtain ⟨o, ho, rfl⟩ := List.mem_map.mp hc
    obtain ⟨u, hu, hhead⟩ := List.mem_filterMap.mp ho
    obtain ⟨x, object, rest, rfl⟩ := exists_object_of_mem_sites hu
    obtain rfl := Option.some.inj hhead
    exact ⟨x, label_mem_of_mem_sites hu, (hsite x object rest hu).mpr rfl⟩
  · rintro ⟨x, hx, hchild, hlost⟩
    have hmem : x ∈ (sites s a.label t).map Tree.label := by
      by_contra hmem
      refine hlost ?_
      rwa [Arena.Child, Arena.children, Arena.shape?, hkept x hx hmem]
    obtain ⟨u, hu, rfl⟩ := List.mem_map.mp hmem
    obtain ⟨x, object, rest, rfl⟩ := exists_object_of_mem_sites hu
    obtain rfl := (hsite x object rest hu).mp ⟨hchild, hlost⟩
    exact List.mem_map_of_mem (List.mem_filterMap.mpr ⟨_, hu, rfl⟩)

end FactoryLint.Rewrite
