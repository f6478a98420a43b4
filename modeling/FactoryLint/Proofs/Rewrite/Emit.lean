import FactoryLint.Proofs.Rewrite.Apply
import FactoryLint.Proofs.Traversal
import FactoryLint.Rewrite.Emit

namespace FactoryLint.Rewrite

def callText (function : String) : String := function ++ "()"

/-- The spans in whose places something was built, without those below other such nodes. -/
def patches : Term → List Span
  | .node ℓ ts =>
    match ℓ.origin with
    | .built (some span) => [span]
    | _ => ts.flatMap fun t => patches t

def BuildsCalls (s : Settings) : Term → Prop
  | .node ℓ ts =>
    (∀ span, ℓ.origin = .built (some span) →
      ℓ.kind = .functionCall (some s.helperFunction) ∧ ts = []) ∧ ∀ t ∈ ts, BuildsCalls s t

def IsSource (t : Term) : Prop := ∀ ℓ ∈ t.labels, ℓ.origin = .source

/-- What stands at the sites of a term in the places to be filled anew. -/
def replaced (s : Settings) (t : Term) : List Term :=
  (sites s id t).filterMap fun u => u.parts.head?

variable {s : Settings} {a : Arena}

theorem patches_built {ℓ : Label} {span : Span} (h : ℓ.origin = .built (some span))
    (ts : List Term) : patches (.node ℓ ts) = [span] := by
  rw [patches, h]

theorem patches_node {ℓ : Label} (h : ∀ span, ℓ.origin ≠ .built (some span)) (ts : List Term) :
    patches (.node ℓ ts) = ts.flatMap patches := by
  rw [patches]
  split
  · rename_i span ho
    exact absurd ho (h span)
  · rfl

theorem buildsCalls_node {ℓ : Label} {ts : List Term} : BuildsCalls s (.node ℓ ts) ↔
    (∀ span, ℓ.origin = .built (some span) →
      ℓ.kind = .functionCall (some s.helperFunction) ∧ ts = []) ∧ ∀ t ∈ ts, BuildsCalls s t := by
  rw [BuildsCalls]

theorem isSource_node {ℓ : Label} {ts : List Term} :
    IsSource (.node ℓ ts) ↔ ℓ.origin = .source ∧ ∀ t ∈ ts, IsSource t := by
  simp only [IsSource, Tree.labels_node, List.mem_cons, List.mem_flatMap]
  constructor
  · exact fun h => ⟨h ℓ (Or.inl rfl), fun t ht m hm => h m (Or.inr ⟨t, ht, hm⟩)⟩
  · rintro ⟨hℓ, hts⟩ m (rfl | ⟨t, ht, hm⟩)
    · exact hℓ
    · exact hts t ht m hm

theorem textAt_call {id : NodeId} {n : Node} {span : Option Span} (source : String) (depth : Nat)
    (hn : a.node? id = some n) (ho : n.origin = .built span)
    (hk : n.shape.kind = .functionCall (some s.helperFunction)) (hc : n.shape.children = []) :
    textAt a source (depth + 1) id = .ok (callText s.helperFunction) := by
  obtain ⟨arguments, hshape⟩ := Shape.eq_functionCall_of_kind hk
  obtain rfl : arguments = [] := by simpa [hshape, Shape.children] using hc
  obtain ⟨shape, _, origin⟩ := n
  obtain rfl : shape = _ := hshape
  obtain rfl : origin = _ := ho
  rw [textAt, hn]
  simp [Shape.children, written, callText, Except.map, pure, Except.pure, String.append_assoc]

theorem editsAt_node {id : NodeId} {n : Node} (source message : String) (depth : Nat)
    (hn : a.node? id = some n) (ho : ∀ span, n.origin ≠ .built (some span)) :
    editsAt a source message (depth + 1) id =
      (n.shape.children.mapM (editsAt a source message depth)).map List.flatten := by
  rw [editsAt, Arena.children_eq hn, hn]
  split
  · rename_i span heq
    exact absurd (congrArg Node.origin (Option.some.inj heq)) (ho span)
  · rfl

theorem editsAt_eq {t : Tree NodeId} (source message : String) (h : a.Holds t)
    (hc : BuildsCalls s (a.term t)) {depth : Nat} (hd : t.labels.length < depth) :
    editsAt a source message depth t.label =
      .ok ((patches (a.term t)).map fun span => ⟨span, callText s.helperFunction, message⟩) := by
  induction t generalizing depth with
  | node x ts ih =>
    obtain ⟨⟨n, hn, hchildren⟩, hts⟩ := Arena.holds_node.mp h
    rw [Tree.labels_node, List.length_cons] at hd
    obtain ⟨depth, rfl⟩ := Nat.exists_eq_succ_of_ne_zero (Nat.ne_zero_of_lt hd)
    have hd' : (ts.flatMap Tree.labels).length < depth := by omega
    rw [Arena.term_node, Arena.label_eq hn, buildsCalls_node] at hc
    rw [Arena.term_node, Arena.label_eq hn, Tree.label_node]
    by_cases ho : ∃ span, n.origin = .built (some span)
    · obtain ⟨span, ho⟩ := ho
      obtain ⟨hk, hnil⟩ := hc.1 span ho
      have hleaf : n.shape.children = [] := by
        rw [hchildren, List.map_eq_nil_iff.mp hnil, List.map_nil]
      obtain ⟨depth, rfl⟩ := Nat.exists_eq_succ_of_ne_zero (Nat.ne_zero_of_lt hd')
      have htext := textAt_call source depth hn ho hk hleaf
      obtain ⟨shape, _, origin⟩ := n
      obtain rfl : origin = _ := ho
      rw [editsAt, hn, patches_built (by rfl)]
      simp only [htext]
      rfl
    · have hparts : ∀ t ∈ ts, (editsAt a source message depth ∘ Tree.label) t =
          .ok ((patches (a.term t)).map
            fun span => ⟨span, callText s.helperFunction, message⟩) := by
        intro t ht
        have hlen := Tree.length_labels_le ht
        exact ih t ht (hts t ht) (hc.2 _ (List.mem_map_of_mem ht)) (by omega)
      have ho' : ∀ span, n.origin ≠ .built (some span) := fun span h => ho ⟨span, h⟩
      rw [editsAt_node source message _ hn ho', hchildren, List.mapM_map, mapM_eq_pure hparts,
        patches_node ho', List.flatMap_map, List.map_flatMap, List.flatMap_def]
      rfl

theorem patches_of_isSource {t : Term} (h : IsSource t) : patches t = [] := by
  induction t using Tree.induct with
  | node ℓ ts ih =>
    obtain ⟨hℓ, hts⟩ := isSource_node.mp h
    rw [patches_node (by simp [hℓ]), List.flatMap_eq_nil_iff]
    exact fun t ht => ih t ht (hts t ht)

theorem buildsCalls_of_isSource {t : Term} (h : IsSource t) : BuildsCalls s t := by
  induction t using Tree.induct with
  | node ℓ ts ih =>
    obtain ⟨hℓ, hts⟩ := isSource_node.mp h
    exact buildsCalls_node.mpr ⟨by simp [hℓ], fun t ht => ih t ht (hts t ht)⟩

theorem patches_helperCall (object : Term) :
    patches (helperCall s object) = object.label.span.toList := by
  rw [helperCall]
  cases hspan : object.label.span with
  | none => rw [patches_node (by simp), List.flatMap_nil, Option.toList_none]
  | some span => rw [patches_built rfl, Option.toList_some]

theorem replaced_node (ℓ : Label) (ts : List Term) :
    replaced s (.node ℓ ts) = if ℓ.isClosed then []
      else (if isSite s id (.node ℓ ts) then ts.head?.toList else []) ++
        ts.flatMap (replaced s) := by
  rw [replaced, sites_node, id_eq]
  split_ifs with hc hs
  · rfl
  · rw [List.filterMap_append, List.filterMap_flatMap]
    cases ts <;> rfl
  · rw [List.nil_append, List.nil_append, List.filterMap_flatMap]
    rfl

theorem patches_rewrite {t : Term} (h : IsSource t) :
    patches (rewrite s t) = (replaced s t).filterMap fun u => u.label.span := by
  induction t using Tree.induct with
  | node ℓ ts ih =>
    obtain ⟨hℓ, hts⟩ := isSource_node.mp h
    have hℓ' : ∀ span, ℓ.origin ≠ .built (some span) := by simp [hℓ]
    have hrest : ∀ us ⊆ ts, (us.map (rewrite s)).flatMap patches =
        (us.flatMap (replaced s)).filterMap fun u => u.label.span := by
      intro us hus
      rw [List.flatMap_map, List.filterMap_flatMap]
      exact List.flatMap_congr fun t ht => ih t (hus ht) (hts t (hus ht))
    by_cases hc : ℓ.isClosed
    · rw [rewrite_of_isClosed hc, patches_of_isSource h, replaced_node, if_pos hc,
        List.filterMap_nil]
    by_cases hs : isSite s id (.node ℓ ts)
    · obtain ⟨object, rest, rfl⟩ := List.exists_cons_of_ne_nil (l := ts) (by
        rintro rfl
        cases hs)
      have hobject : replaced s object = [] := by
        rw [replaced, sites_of_readsMember (readsMember_of_isSite hs), List.filterMap_nil]
      rw [rewrite_of_isSite hc hs, patches_node hℓ', List.flatMap_cons, patches_helperCall,
        hrest rest (List.subset_cons_self _ _), replaced_node, if_neg hc, if_pos hs,
        List.flatMap_cons, hobject, List.nil_append, List.filterMap_append]
      cases hspan : object.label.span <;> simp [hspan]
    · rw [rewrite_of_not_isSite hc hs, patches_node hℓ', replaced_node, if_neg hc, if_neg hs,
        List.nil_append]
      exact hrest ts (List.Subset.refl ts)

theorem buildsCalls_rewrite {t : Term} (h : IsSource t) : BuildsCalls s (rewrite s t) := by
  induction t using Tree.induct with
  | node ℓ ts ih =>
    obtain ⟨hℓ, hts⟩ := isSource_node.mp h
    have hrest : ∀ us ⊆ ts, ∀ u ∈ us.map (rewrite s), BuildsCalls s u := by
      intro us hus u hu
      obtain ⟨t, ht, rfl⟩ := List.mem_map.mp hu
      exact ih t (hus ht) (hts t (hus ht))
    by_cases hc : ℓ.isClosed
    · rw [rewrite_of_isClosed hc]
      exact buildsCalls_of_isSource h
    by_cases hs : isSite s id (.node ℓ ts)
    · obtain ⟨object, rest, rfl⟩ := List.exists_cons_of_ne_nil (l := ts) (by
        rintro rfl
        cases hs)
      rw [rewrite_of_isSite hc hs]
      refine buildsCalls_node.mpr ⟨by simp [hℓ], fun t ht => ?_⟩
      rcases List.mem_cons.mp ht with rfl | ht
      · exact buildsCalls_node.mpr ⟨fun _ _ => ⟨rfl, rfl⟩, by simp⟩
      · exact hrest rest (List.subset_cons_self _ _) t ht
    · rw [rewrite_of_not_isSite hc hs]
      exact buildsCalls_node.mpr ⟨by simp [hℓ], hrest ts (List.Subset.refl ts)⟩

/-- Where nodes are not shared, the bound on the depth is never reached. -/
theorem edits_eq_patches {t : Tree NodeId} (h : a.Holds t) (hn : t.labels.Nodup)
    (hc : BuildsCalls s (a.term t)) (source message : String) :
    edits a t.label source message =
      .ok ((patches (a.term t)).map fun span => ⟨span, callText s.helperFunction, message⟩) := by
  have hdepth : t.labels.length < depthBound a := by
    have hsize := h.length_le_size hn
    rw [depthBound]
    omega
  exact editsAt_eq source message h hc hdepth

/-- What a rewritten literal shows: one call for each site with a known object. -/
theorem Rewritten.shows {b : Arena} {x : NodeId} {ts us : List (Tree NodeId)}
    (hab : Rewritten s a b ts us) (h : a.Holds (.node x ts)) (hn : (Tree.node x ts).labels.Nodup)
    (hsource : IsSource (a.term (.node x ts))) :
    BuildsCalls s (b.term (.node x us)) ∧ patches (b.term (.node x us)) =
      ((ts.map a.term).flatMap (replaced s)).filterMap fun u => u.label.span := by
  obtain ⟨hkept, -, -⟩ := hab.under h hn
  rw [Arena.term_node, isSource_node] at hsource
  have hterm : b.term (.node x us) = .node (a.label x) ((ts.map a.term).map (rewrite s)) := by
    rw [Arena.term_node, hab.terms, Arena.label_congr hkept, List.map_map]
  rw [hterm]
  constructor
  · refine buildsCalls_node.mpr ⟨by simp [hsource.1], fun u hu => ?_⟩
    obtain ⟨t, ht, rfl⟩ := List.mem_map.mp hu
    exact buildsCalls_rewrite (hsource.2 t ht)
  · rw [patches_node (by simp [hsource.1]), List.flatMap_map, List.filterMap_flatMap]
    exact List.flatMap_congr fun t ht => patches_rewrite (hsource.2 t ht)

theorem edits_of_rewritten {b : Arena} {x : NodeId} {ts us : List (Tree NodeId)}
    (h : a.Holds (.node x ts)) (hn : (Tree.node x ts).labels.Nodup)
    (hsource : IsSource (a.term (.node x ts))) (hab : Rewritten s a b ts us)
    (source message : String) :
    edits b x source message =
      .ok (((ts.map a.term).flatMap (replaced s)).filterMap (fun u => u.label.span) |>.map
        fun span => ⟨span, callText s.helperFunction, message⟩) := by
  obtain ⟨-, hholds, hnodup⟩ := hab.under h hn
  obtain ⟨hbuilds, hpatches⟩ := hab.shows h hn hsource
  have hedits := edits_eq_patches hholds hnodup hbuilds source message
  rwa [hpatches] at hedits

end FactoryLint.Rewrite
