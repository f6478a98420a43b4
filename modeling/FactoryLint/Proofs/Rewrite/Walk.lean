import FactoryLint.Proofs.Rewrite.Visit

namespace FactoryLint.Rewrite

variable {s : Settings} {a b c : Arena}

def siteIds (s : Settings) (a : Arena) (ts : List (Tree NodeId)) : List NodeId :=
  (ts.flatMap (sites s a.label)).map Tree.label

/-- From `a` to `b`, the trees `ts` have become the trees `us`. -/
structure Rewritten (s : Settings) (a b : Arena) (ts us : List (Tree NodeId)) : Prop where
  roots : us.map Tree.label = ts.map Tree.label
  holds : ∀ u ∈ us, b.Holds u
  terms : us.map b.term = (ts.map a.term).map (rewrite s)
  size : b.size = a.size + (siteIds s a ts).length
  nodup : (us.flatMap Tree.labels).Nodup
  fresh : ∀ id ∈ us.flatMap Tree.labels, id ∈ ts.flatMap Tree.labels ∨ a.size ≤ id
  kept : ∀ id < a.size, id ∉ siteIds s a ts → b.node? id = a.node? id
  reshaped : ∀ id < a.size, ∃ shape, b.node? id = (a.node? id).map fun n => { n with shape }

theorem siteIds_cons (t : Tree NodeId) (ts : List (Tree NodeId)) :
    siteIds s a (t :: ts) = siteIds s a [t] ++ siteIds s a ts := by
  simp [siteIds]

theorem siteIds_subset {ts : List (Tree NodeId)} : siteIds s a ts ⊆ ts.flatMap Tree.labels := by
  intro id hid
  obtain ⟨u, hu, rfl⟩ := List.mem_map.mp hid
  obtain ⟨t, ht, hu⟩ := List.mem_flatMap.mp hu
  exact List.mem_flatMap.mpr ⟨t, ht, label_mem_of_mem_sites hu⟩

theorem siteIds_congr {ts : List (Tree NodeId)}
    (h : ∀ id ∈ ts.flatMap Tree.labels, b.node? id = a.node? id) :
    siteIds s b ts = siteIds s a ts := by
  rw [siteIds, siteIds]
  congr 1
  refine List.flatMap_congr fun t ht => sites_congr fun id hid => Arena.label_congr (h id ?_)
  exact List.mem_flatMap.mpr ⟨t, ht, hid⟩

theorem Rewritten.refl_of_siteIds {ts : List (Tree NodeId)} (h : ∀ t ∈ ts, a.Holds t)
    (hn : (ts.flatMap Tree.labels).Nodup) (hs : siteIds s a ts = [])
    (ht : (ts.map a.term).map (rewrite s) = ts.map a.term) : Rewritten s a a ts ts where
  roots := rfl
  holds := h
  terms := ht.symm
  size := by rw [hs]; rfl
  nodup := hn
  fresh := fun _ hid => Or.inl hid
  kept := fun _ _ _ => rfl
  reshaped := fun id _ => by
    cases hid : a.node? id with
    | none => exact ⟨.literal "", rfl⟩
    | some n => exact ⟨n.shape, rfl⟩

theorem Rewritten.lt_size {ts us : List (Tree NodeId)} (h : Rewritten s a b ts us) :
    ∀ id ∈ us.flatMap Tree.labels, id < b.size :=
  Arena.lt_size_of_holds h.holds

/-- Trees without a common node are rewritten one after another. -/
theorem Rewritten.cons {t u : Tree NodeId} {ts us : List (Tree NodeId)}
    (h₁ : Rewritten s a b [t] [u]) (h₂ : Rewritten s b c ts us)
    (hlt : ∀ id ∈ (t :: ts).flatMap Tree.labels, id < a.size)
    (hn : ((t :: ts).flatMap Tree.labels).Nodup) : Rewritten s a c (t :: ts) (u :: us) := by
  rw [List.flatMap_cons] at hlt hn
  have hdisj := (List.nodup_append'.mp hn).2.2
  have hsize : a.size ≤ b.size := h₁.size ▸ Nat.le_add_right _ _
  have hts : ∀ id ∈ ts.flatMap Tree.labels, b.node? id = a.node? id := fun id hid =>
    h₁.kept id (hlt id (List.mem_append_right _ hid)) fun hs =>
      hdisj (by simpa using siteIds_subset hs) hid
  have hus : ∀ id ∈ [u].flatMap Tree.labels, c.node? id = b.node? id := by
    intro id hid
    refine h₂.kept id (h₁.lt_size id hid) fun hs => ?_
    have hid' := siteIds_subset hs
    rcases h₁.fresh id hid with ht | hge
    · exact hdisj (by simpa using ht) hid'
    · exact absurd (hlt id (List.mem_append_right _ hid')) (Nat.not_lt.mpr hge)
  have hids : siteIds s b ts = siteIds s a ts := siteIds_congr hts
  constructor
  case roots =>
    simpa [h₂.roots] using h₁.roots
  case holds =>
    intro v hv
    rcases List.mem_cons.mp hv with rfl | hv
    · exact (h₁.holds v (by simp)).congr fun id hid => hus id (by simpa using hid)
    · exact h₂.holds v hv
  case terms =>
    have hu := (Arena.map_term_congr hus).trans h₁.terms
    have hv := h₂.terms
    rw [Arena.map_term_congr hts] at hv
    simpa [hv] using hu
  case size =>
    rw [h₂.size, h₁.size, hids, siteIds_cons t ts, List.length_append, Nat.add_assoc]
  case nodup =>
    rw [List.flatMap_cons]
    refine List.nodup_append'.mpr ⟨by simpa using h₁.nodup, h₂.nodup, fun id hu hv => ?_⟩
    rcases h₂.fresh id hv with ht | hge
    · rcases h₁.fresh id (by simpa using hu) with hu' | hge
      · exact hdisj (by simpa using hu') ht
      · exact absurd (hlt id (List.mem_append_right _ ht)) (Nat.not_lt.mpr hge)
    · exact absurd (h₁.lt_size id (by simpa using hu)) (Nat.not_lt.mpr hge)
  case fresh =>
    intro id hid
    rw [List.flatMap_cons, List.mem_append] at hid ⊢
    rcases hid with hid | hid
    · exact (h₁.fresh id (by simpa using hid)).imp_left fun h => Or.inl (by simpa using h)
    · exact (h₂.fresh id hid).imp Or.inr (Nat.le_trans hsize)
  case kept =>
    intro id hid hs
    rw [siteIds_cons t ts, List.mem_append, not_or] at hs
    rw [h₂.kept id (Nat.lt_of_lt_of_le hid hsize) (hids ▸ hs.2), h₁.kept id hid hs.1]
  case reshaped =>
    intro id hid
    obtain ⟨x, hx⟩ := h₁.reshaped id hid
    obtain ⟨y, hy⟩ := h₂.reshaped id (Nat.lt_of_lt_of_le hid hsize)
    refine ⟨y, ?_⟩
    rw [hy, hx, Option.map_map]
    rfl

theorem isSite_term (t : Tree NodeId) : isSite s id (a.term t) = isSite s a.label t :=
  isSite_map a.label id t

theorem Rewritten.under {x : NodeId} {ts us : List (Tree NodeId)} (h : Rewritten s a b ts us)
    (ht : a.Holds (.node x ts)) (hn : (Tree.node x ts).labels.Nodup) :
    b.node? x = a.node? x ∧ b.Holds (.node x us) ∧ (Tree.node x us).labels.Nodup := by
  obtain ⟨⟨n, hn', hc⟩, hts⟩ := Arena.holds_node.mp ht
  rw [Tree.labels_node, List.nodup_cons] at hn
  have hlt : x < a.size := Arena.lt_size_of_node? hn'
  have hkept : b.node? x = a.node? x := h.kept x hlt fun hmem => hn.1 (siteIds_subset hmem)
  have hxu : x ∉ us.flatMap Tree.labels := fun hmem =>
    (h.fresh x hmem).elim hn.1 (Nat.not_le.mpr hlt)
  refine ⟨hkept, ?_, ?_⟩
  · exact Arena.holds_node.mpr ⟨⟨n, hkept.trans hn', hc.trans h.roots.symm⟩, h.holds⟩
  · rw [Tree.labels_node, List.nodup_cons]
    exact ⟨hxu, h.nodup⟩

theorem Rewritten.node {x : NodeId} {ts us : List (Tree NodeId)} (h : Rewritten s a b ts us)
    (ht : a.Holds (.node x ts)) (hn : (Tree.node x ts).labels.Nodup)
    (hx : ¬(a.label x).isClosed) (hs : ¬isSite s a.label (.node x ts)) :
    Rewritten s a b [.node x ts] [.node x us] := by
  obtain ⟨hkept, hholds, hnodup⟩ := h.under ht hn
  have hids : siteIds s a [.node x ts] = siteIds s a ts := by
    simp [siteIds, sites_node, hx, hs]
  constructor
  case roots => rfl
  case holds => simpa using hholds
  case nodup => simpa using hnodup
  case reshaped => exact h.reshaped
  case terms =>
    have hsite : ¬isSite s id (.node (a.label x) (ts.map a.term)) := by
      rw [← Arena.term_node, isSite_term]
      exact hs
    have hrw := rewrite_of_not_isSite hx hsite
    simp only [List.map_cons, List.map_nil, Arena.term_node, hrw, h.terms,
      Arena.label_congr hkept]
  case size =>
    rw [hids, h.size]
  case fresh =>
    intro id hid
    simp only [List.flatMap_cons, List.flatMap_nil, List.append_nil, Tree.labels_node,
      List.mem_cons] at hid ⊢
    rcases hid with rfl | hid
    · exact Or.inl (Or.inl rfl)
    · exact (h.fresh id hid).imp_left Or.inr
  case kept =>
    rw [hids]
    exact h.kept

theorem Swapped.kept_labels {x object : NodeId} {ts : List (Tree NodeId)}
    (hab : Swapped s a b x object) (hts : ∀ t ∈ ts, a.Holds t) (hx : x ∉ ts.flatMap Tree.labels) :
    ∀ id ∈ ts.flatMap Tree.labels, b.node? id = a.node? id := fun id hid =>
  hab.kept id (Arena.lt_size_of_holds hts id hid) fun he => hx (he ▸ hid)

theorem siteIds_site {x : NodeId} {object : Tree NodeId} {ts : List (Tree NodeId)}
    (hx : ¬(a.label x).isClosed) (hs : isSite s a.label (.node x (object :: ts))) :
    siteIds s a [.node x (object :: ts)] = x :: siteIds s a ts := by
  have hobject := sites_of_readsMember (readsMember_of_isSite hs)
  simp [siteIds, sites_node, hx, hs, hobject]

theorem Rewritten.kept_site {x object : NodeId} {ts us : List (Tree NodeId)}
    (h : Rewritten s b c ts us) (hab : Swapped s a b x object) (hlt : x < a.size)
    (hts : ∀ t ∈ ts, a.Holds t) (hx : x ∉ ts.flatMap Tree.labels) :
    c.node? x = b.node? x ∧ c.node? a.size = b.node? a.size := by
  constructor
  · exact h.kept x (hab.size ▸ Nat.lt_succ_of_lt hlt) fun hmem => hx (siteIds_subset hmem)
  · exact h.kept a.size (hab.size ▸ Nat.lt_succ_self _) fun hmem =>
      Nat.lt_irrefl _ (Arena.lt_size_of_holds hts _ (siteIds_subset hmem))

theorem term_site {x call : NodeId} {object : Tree NodeId} {ts us : List (Tree NodeId)}
    (hx : ¬(a.label x).isClosed) (hs : isSite s a.label (.node x (object :: ts)))
    (hlabel : c.label x = a.label x)
    (hcall : c.node? call =
      some ⟨.call s.helperFunction [], none, .built (a.span? object.label)⟩)
    (hterms : us.map c.term = (ts.map a.term).map (rewrite s)) :
    c.term (.node x (.node call [] :: us)) = rewrite s (a.term (.node x (object :: ts))) := by
  have hsite : isSite s id (.node (a.label x) (a.term object :: ts.map a.term)) := by
    rw [← List.map_cons, ← Arena.term_node, isSite_term]
    exact hs
  have hlabel' : c.label call = (helperCall s (a.term object)).label := by
    rw [Arena.label_eq hcall, Arena.span?_eq, ← Arena.label_term]
    rfl
  simp only [List.map_cons, Arena.term_node, rewrite_of_isSite hx hsite, hlabel, hlabel', hterms]
  rfl

theorem Rewritten.site {x : NodeId} {object : Tree NodeId} {ts us : List (Tree NodeId)}
    (hab : Swapped s a b x object.label) (h : Rewritten s b c ts us)
    (ht : a.Holds (.node x (object :: ts))) (hn : (Tree.node x (object :: ts)).labels.Nodup)
    (hx : ¬(a.label x).isClosed) (hs : isSite s a.label (.node x (object :: ts))) :
    Rewritten s a c [.node x (object :: ts)] [.node x (.node a.size [] :: us)] := by
  obtain ⟨n, shape, hna, hnb, hk, hc⟩ := hab.parent
  obtain ⟨⟨n', hn', hc'⟩, hts⟩ := Arena.holds_node.mp ht
  obtain rfl : n = n' := Option.some.inj (hna.symm.trans hn')
  have hlt : x < a.size := Arena.lt_size_of_node? hna
  have hts' : ∀ t ∈ ts, a.Holds t := fun t ht => hts t (List.mem_cons_of_mem _ ht)
  have hlts : ∀ id ∈ ts.flatMap Tree.labels, id < a.size := Arena.lt_size_of_holds hts'
  have hnx : x ∉ ts.flatMap Tree.labels := by
    rw [Tree.labels_node, List.nodup_cons, List.flatMap_cons, List.mem_append] at hn
    exact fun hmem => hn.1 (Or.inr hmem)
  have hbt : ∀ id ∈ ts.flatMap Tree.labels, b.node? id = a.node? id := hab.kept_labels hts' hnx
  have hids : siteIds s a [.node x (object :: ts)] = x :: siteIds s b ts := by
    rw [siteIds_site hx hs, siteIds_congr hbt]
  obtain ⟨hcx, hcall⟩ := h.kept_site hab hlt hts' hnx
  rw [hnb] at hcx
  rw [hab.call] at hcall
  have hnew : ∀ id ∈ us.flatMap Tree.labels, id ∈ ts.flatMap Tree.labels ∨ a.size < id :=
    fun id hid => (h.fresh id hid).imp_right fun hge =>
      Nat.lt_of_succ_le (Nat.le_trans (Nat.le_of_eq hab.size.symm) hge)
  constructor
  case roots => rfl
  case holds =>
    intro u hu
    rw [List.mem_singleton.mp hu]
    refine Arena.holds_node.mpr ⟨⟨_, hcx, ?_⟩, fun v hv => ?_⟩
    · rw [hc, hc', List.map_cons, List.map_cons, List.tail_cons, h.roots, Tree.label_node]
    · rcases List.mem_cons.mp hv with rfl | hv
      · exact Arena.holds_node.mpr ⟨⟨_, hcall, rfl⟩, by simp⟩
      · exact h.holds v hv
  case terms =>
    have hlabel : c.label x = a.label x := by
      rw [Arena.label_eq hcx, Arena.label_eq hna, Node.label, Node.label, hk]
    have hterms := h.terms
    rw [Arena.map_term_congr hbt] at hterms
    exact congrArg (fun t => [t]) (term_site hx hs hlabel hcall hterms)
  case size =>
    rw [hids, h.size, hab.size, List.length_cons]
    omega
  case nodup =>
    simp only [List.flatMap_cons, List.flatMap_nil, List.append_nil, Tree.labels_node,
      List.cons_append, List.nil_append, List.nodup_cons, List.mem_cons, not_or]
    refine ⟨⟨Nat.ne_of_lt hlt, fun hmem => ?_⟩, fun hmem => ?_, h.nodup⟩
    · exact (hnew x hmem).elim hnx (Nat.lt_asymm hlt)
    · exact (hnew _ hmem).elim (fun hid => Nat.lt_irrefl _ (hlts _ hid)) (Nat.lt_irrefl _)
  case fresh =>
    intro id hid
    simp only [List.flatMap_cons, List.flatMap_nil, List.append_nil, Tree.labels_node,
      List.cons_append, List.nil_append, List.mem_cons, List.mem_append] at hid ⊢
    rcases hid with rfl | rfl | hid
    · exact Or.inl (Or.inl rfl)
    · exact Or.inr (Nat.le_refl _)
    · exact (hnew id hid).imp (fun hid => Or.inr (Or.inr hid)) Nat.le_of_lt
  case kept =>
    intro id hid hmem
    rw [hids, List.mem_cons, not_or] at hmem
    rw [h.kept id (hab.size ▸ Nat.lt_succ_of_lt hid) hmem.2, hab.kept id hid hmem.1]
  case reshaped =>
    intro id hid
    obtain ⟨y, hy⟩ := h.reshaped id (hab.size ▸ Nat.lt_succ_of_lt hid)
    by_cases he : id = x
    · subst he
      exact ⟨y, by rw [hy, hnb, hna]; rfl⟩
    · exact ⟨y, by rw [hy, hab.kept id hid he]⟩

theorem Swapped.children {x : NodeId} {object : Tree NodeId} {ts : List (Tree NodeId)}
    (hab : Swapped s a b x object.label) (h : a.Holds (.node x (object :: ts))) :
    b.children x = a.size :: ts.map Tree.label := by
  obtain ⟨n, shape, hn, hb, -, hc⟩ := hab.parent
  obtain ⟨⟨n', hn', hc'⟩, -⟩ := Arena.holds_node.mp h
  obtain rfl : n = n' := Option.some.inj (hn.symm.trans hn')
  rw [Arena.children_eq hb, hc, hc']
  rfl

theorem preorder_call {x object : NodeId} (hab : Swapped s a b x object) {depth count : Nat}
    (hd : 0 < depth) : Arena.preorder (visit s) depth a.size b count = some (b, count) := by
  obtain ⟨depth, rfl⟩ := Nat.exists_eq_add_of_lt hd
  have hcall : b.Holds (.node a.size []) := Arena.holds_node.mpr ⟨⟨_, hab.call, rfl⟩, by simp⟩
  have hclosed : (b.label a.size).isClosed := by
    rw [Arena.label_eq hab.call]
    rfl
  rw [Arena.preorder, visit_of_isClosed hcall count hclosed]

/-- A walk of a tree ends, with the tree rewritten. -/
def Rewrites (s : Settings) (t : Tree NodeId) : Prop :=
  ∀ (a : Arena) (count depth : Nat), a.Holds t → t.labels.Nodup → t.labels.length ≤ depth →
    ∃ b u, Arena.preorder (visit s) depth t.label a count =
      some (b, count + (siteIds s a [t]).length) ∧ Rewritten s a b [t] [u]

theorem each_rewrites {ts : List (Tree NodeId)} (ih : ∀ t ∈ ts, Rewrites s t) (a : Arena)
    (count depth : Nat) (h : ∀ t ∈ ts, a.Holds t) (hn : (ts.flatMap Tree.labels).Nodup)
    (hd : ∀ t ∈ ts, t.labels.length ≤ depth) :
    ∃ b us, Arena.each (Arena.preorder (visit s) depth) (ts.map Tree.label) a count =
      some (b, count + (siteIds s a ts).length) ∧ Rewritten s a b ts us := by
  induction ts generalizing a count with
  | nil => exact ⟨a, [], rfl, .refl_of_siteIds (by simp) (by simp) rfl rfl⟩
  | cons t ts iht =>
    have hlt : ∀ id ∈ (t :: ts).flatMap Tree.labels, id < a.size := Arena.lt_size_of_holds h
    have hn' := hn
    rw [List.flatMap_cons] at hn'
    obtain ⟨hnt, hnts, hdisj⟩ := List.nodup_append'.mp hn'
    obtain ⟨b, u, hb, hab⟩ := ih t (by simp) a count depth (h t (by simp)) hnt (hd t (by simp))
    have hts : ∀ id ∈ ts.flatMap Tree.labels, b.node? id = a.node? id := fun id hid =>
      hab.kept id (hlt id (by rw [List.flatMap_cons]; exact List.mem_append_right _ hid)) fun hs =>
        hdisj (by simpa using siteIds_subset hs) hid
    obtain ⟨c, us, hc, hbc⟩ := iht (fun v hv => ih v (List.mem_cons_of_mem _ hv)) b
      (count + (siteIds s a [t]).length)
      (Arena.holds_congr hts fun v hv => h v (List.mem_cons_of_mem _ hv))
      hnts (fun v hv => hd v (List.mem_cons_of_mem _ hv))
    refine ⟨c, u :: us, ?_, hab.cons hbc hlt hn⟩
    rw [List.map_cons, Arena.each, hb]
    simp only [hc, siteIds_congr hts]
    rw [siteIds_cons t ts, List.length_append, Nat.add_assoc]

theorem preorder_rewrites (s : Settings) (t : Tree NodeId) : Rewrites s t := by
  induction t with
  | node x ts ih =>
    intro a count depth h hn hd
    obtain ⟨⟨n, hn', hc⟩, hts⟩ := Arena.holds_node.mp h
    obtain ⟨depth, rfl⟩ :=
      Nat.exists_eq_add_of_lt (Nat.lt_of_lt_of_le (Tree.length_labels_pos _) hd)
    rw [Nat.zero_add] at hd ⊢
    have hn₀ := hn
    rw [Tree.labels_node, List.nodup_cons] at hn
    rw [Tree.labels_node, List.length_cons, Nat.add_le_add_iff_right] at hd
    have hdts : ∀ t ∈ ts, t.labels.length ≤ depth := fun t ht =>
      Nat.le_trans (Tree.length_labels_le ht) hd
    by_cases hx : (a.label x).isClosed
    · have hids : siteIds s a [.node x ts] = [] := by simp [siteIds, sites_of_isClosed hx]
      refine ⟨a, .node x ts, ?_, .refl_of_siteIds (by simpa using h) (by simpa using hn₀) hids ?_⟩
      · rw [Tree.label_node, Arena.preorder, visit_of_isClosed h count hx, hids]
        rfl
      · simp [rewrite_of_isClosed hx]
    by_cases hs : isSite s a.label (.node x ts)
    · obtain ⟨object, rest, rfl⟩ := List.exists_cons_of_ne_nil (l := ts) (by
        rintro rfl
        cases hs)
      obtain ⟨b, hb, hab⟩ := visit_of_isSite h hx hs count
      have hrest : ∀ t ∈ rest, a.Holds t := fun t ht => hts t (List.mem_cons_of_mem _ ht)
      have hxrest : x ∉ rest.flatMap Tree.labels := fun hmem =>
        hn.1 (List.flatMap_cons ▸ List.mem_append_right _ hmem)
      have hrest' : ∀ t ∈ rest, b.Holds t := Arena.holds_congr (hab.kept_labels hrest hxrest) hrest
      have hnrest := (List.nodup_append'.mp (List.flatMap_cons ▸ hn.2)).2.1
      obtain ⟨c, us, hc, hbc⟩ := each_rewrites (fun t ht => ih t (List.mem_cons_of_mem _ ht)) b
        (count + 1) depth hrest' hnrest fun t ht => hdts t (List.mem_cons_of_mem _ ht)
      have hac := hbc.site hab h hn₀ hx hs
      have hcount : (siteIds s a [.node x (object :: rest)]).length =
          1 + (siteIds s b rest).length := by
        have hsize := hac.size.symm.trans hbc.size
        rw [hab.size] at hsize
        omega
      refine ⟨c, _, ?_, hac⟩
      rw [Tree.label_node, Arena.preorder, hb]
      simp only [hab.children h, Arena.each, preorder_call hab (Nat.lt_of_lt_of_le
        object.length_labels_pos (hdts object (by simp))), hc]
      rw [hcount, Nat.add_assoc]
    · obtain ⟨b, us, hb, hab⟩ := each_rewrites ih a count depth hts hn.2 hdts
      refine ⟨b, .node x us, ?_, hab.node h hn₀ hx hs⟩
      have hchildren : a.children x = ts.map Tree.label := (Arena.children_eq hn').trans hc
      have hids : siteIds s a [.node x ts] = siteIds s a ts := by
        simp [siteIds, sites_node, hx, hs]
      rw [Tree.label_node, Arena.preorder, visit_of_not_isSite h count hx hs, hids]
      simp only [hchildren, hb]

end FactoryLint.Rewrite
