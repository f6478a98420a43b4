import FactoryLint.Proofs.Php.Reach
import FactoryLint.Proofs.Rewrite.Replaced
import Mathlib.Data.List.Pairwise

namespace FactoryLint.Rewrite

structure Call where
  settings : Settings
  context : Option ClassContext
  root : NodeId

def Call.run (c : Call) (a : Arena) : Outcome × Arena :=
  applyIn c.settings c.context a c.root

def runAll (a : Arena) (calls : List Call) : Arena :=
  calls.foldl (fun a c => (c.run a).2) a

/-- A tree of nodes of the source. -/
structure Lowered (a : Arena) (t : Tree NodeId) : Prop where
  holds : a.Holds t
  nodup : t.labels.Nodup
  source : IsSource (a.term t)

/-- The tree `t` has become `u`, with calls in the places of `containers`. -/
structure Exchanged (s : Settings) (a b : Arena) (t u : Tree NodeId)
    (containers : List NodeId) : Prop where
  root : u.label = t.label
  size_le : a.size ≤ b.size
  kept : ∀ id < a.size, id ∉ t.labels → b.node? id = a.node? id
  holds : b.Holds u
  nodup : u.labels.Nodup
  fresh : ∀ id ∈ u.labels, id ∈ t.labels ∨ a.size ≤ id
  order : containers.Sublist t.labels
  lost : ∀ c, c ∈ containers ↔ ∃ x ∈ t.labels, a.Child x c ∧ ¬b.Child x c
  replaced : ∀ c ∈ containers, ∃ v ∈ replaced s (a.term t), v.label = a.label c
  builds : BuildsCalls s (b.term u)
  patches : patches (b.term u) = containers.filterMap a.span?

variable {a b : Arena} {t u : Tree NodeId} {ts : List (Tree NodeId)} {calls : List Call}

theorem runAll_cons (a : Arena) (c : Call) (calls : List Call) :
    runAll a (c :: calls) = runAll (c.run a).2 calls := rfl

theorem runAll_append (a : Arena) (calls more : List Call) :
    runAll a (calls ++ more) = runAll (runAll a calls) more :=
  List.foldl_append

theorem Lowered.congr (h : Lowered a t) (hab : ∀ id ∈ t.labels, b.node? id = a.node? id) :
    Lowered b t where
  holds := h.holds.congr hab
  nodup := h.nodup
  source := Arena.term_congr hab ▸ h.source

theorem Lowered.exchanged_self (s : Settings) (h : Lowered a t) : Exchanged s a a t t [] where
  root := rfl
  size_le := Nat.le_refl _
  kept := fun _ _ _ => rfl
  holds := h.holds
  nodup := h.nodup
  fresh := fun _ hid => Or.inl hid
  order := List.nil_sublist _
  lost := fun c => by simp
  replaced := by simp
  builds := buildsCalls_of_isSource h.source
  patches := patches_of_isSource h.source

theorem exchanged_of_rewriteItems {s : Settings} {x : NodeId} {us : List (Tree NodeId)}
    {count : Nat} (h : Lowered a (.node x ts)) (hkind : (a.label x).kind = .arrayLiteral)
    (hitems : a.shape? x = some (.arrayLiteral (ts.map Tree.label)))
    (hrun : rewriteItems s a (ts.map Tree.label) = some (b, count))
    (hab : Rewritten s a b ts us) :
    Exchanged s a b (.node x ts) (.node x us) (objectIds s a (.node x ts)) := by
  obtain ⟨⟨n, hn, hchildren⟩, -⟩ := Arena.holds_node.mp h.holds
  have hsource := h.source
  rw [Arena.term_node, isSource_node] at hsource
  have hsites : sites s a.label (.node x ts) = ts.flatMap (sites s a.label) :=
    sites_literal hkind hsource.1 ts
  have hlt : x < a.size := Arena.lt_size_of_node? hn
  have hwalked : Walked s [x] a b 0 count := by
    refine Walked.node (settled_of_literal hitems) hlt ?_
    rw [Arena.children_eq hn, hchildren]
    exact walked_of_each walked_of_preorder hrun
  obtain ⟨-, hholds, hnodup⟩ := hab.under h.holds h.nodup
  obtain ⟨hbuilds, hpatches⟩ := hab.shows h.holds h.nodup h.source
  refine ⟨rfl, hwalked.filled.size_le, fun id hid hmem => hab.kept id hid fun hs => hmem ?_,
    hholds, hnodup, fun id hid => ?_, labels_objects_sublist _ _, ?_, fun c hc => ?_, hbuilds, ?_⟩
  · rw [Tree.labels_node]
    exact List.mem_cons_of_mem _ (siteIds_subset hs)
  · rw [Tree.labels_node, List.mem_cons] at hid ⊢
    rcases hid with rfl | hid
    · exact Or.inl (Or.inl rfl)
    · exact (hab.fresh id hid).imp_left Or.inr
  · refine mem_objectIds_iff h.holds h.nodup hwalked.filled hwalked.settled fun y hy hs => ?_
    rw [hsites] at hs
    exact hab.kept y (h.holds.lt_size y hy) hs
  · obtain ⟨o, ho, rfl⟩ := List.mem_map.mp hc
    rw [replaced_term]
    exact ⟨a.term o, List.mem_map_of_mem ho, Arena.label_term o⟩
  · rw [hpatches, ← replaced_literal hkind hsource.1, ← Arena.term_node, replaced_term,
      List.filterMap_map, objectIds, List.filterMap_map]
    refine List.filterMap_congr fun o _ => ?_
    rw [Function.comp_apply, Function.comp_apply, Arena.label_term, Arena.span?_eq]

theorem Call.run_exchanged (c : Call) (h : Lowered a t) (hroot : c.root = t.label) :
    ∃ b u containers, c.run a = (.ofCount containers.length, b) ∧
      Exchanged c.settings a b t u containers := by
  by_cases hel : (a.label t.label).kind = .arrayLiteral ∧ Eligible c.settings c.context
  · cases t with
    | node x ts =>
      obtain ⟨hkind, hel⟩ := hel
      rw [Tree.label_node] at hroot hkind
      obtain ⟨items, hitems⟩ := literal_of_kind hkind
      obtain ⟨⟨n, hn, hchildren⟩, -⟩ := Arena.holds_node.mp h.holds
      obtain rfl : items = ts.map Tree.label := by
        rw [← hchildren, ← Arena.children_eq hn, Arena.children, hitems]
        rfl
      obtain ⟨b, us, hrun, hab⟩ := rewriteItems_eq (s := c.settings) h.holds h.nodup
      have hsource := h.source
      rw [Arena.term_node, isSource_node] at hsource
      refine ⟨b, .node x us, objectIds c.settings a (.node x ts), ?_,
        exchanged_of_rewriteItems h hkind hitems hrun hab⟩
      rw [Call.run, hroot, applyIn_of_rewriteItems hitems hel hrun,
        length_siteIds_literal hkind hsource.1]
  · refine ⟨a, t, [], ?_, h.exchanged_self c.settings⟩
    rw [Call.run, hroot]
    exact applyIn_of_not_eligible hel

theorem disjoint_labels (hn : (ts.flatMap Tree.labels).Nodup) (ht : t ∈ ts) (hu : u ∈ ts)
    (hne : t.label ≠ u.label) : t.labels.Disjoint u.labels :=
  have : Std.Symm (Function.onFun List.Disjoint (Tree.labels (α := NodeId))) :=
    ⟨fun _ _ h => h.symm⟩
  (List.nodup_flatMap.mp hn).2.forall ht hu fun he => hne (he ▸ rfl)

theorem runAll_kept (hn : (ts.flatMap Tree.labels).Nodup)
    (hroots : ∀ c ∈ calls, c.root ∈ ts.map Tree.label)
    (hlow : ∀ t ∈ ts, t.label ∈ calls.map Call.root → Lowered a t)
    (honce : (calls.map Call.root).Nodup) : a.size ≤ (runAll a calls).size ∧
      ∀ id < a.size, (∀ t ∈ ts, t.label ∈ calls.map Call.root → id ∉ t.labels) →
        (runAll a calls).node? id = a.node? id := by
  induction calls generalizing a with
  | nil => exact ⟨Nat.le_refl _, fun _ _ _ => rfl⟩
  | cons c calls ih =>
    rw [List.map_cons, List.nodup_cons] at honce
    obtain ⟨t, ht, hroot⟩ := List.mem_map.mp (hroots c List.mem_cons_self)
    have hmem : t.label ∈ (c :: calls).map Call.root := hroot ▸ List.mem_cons_self
    obtain ⟨b, u, containers, hrun, hex⟩ := c.run_exchanged (hlow t ht hmem) hroot.symm
    have hrest : ∀ t' ∈ ts, t'.label ∈ calls.map Call.root → Lowered b t' := by
      intro t' ht' hmem'
      have hlow' := hlow t' ht' (List.mem_cons_of_mem _ hmem')
      have hne : t'.label ≠ t.label := fun he => honce.1 (hroot ▸ he ▸ hmem')
      refine hlow'.congr fun id hid => hex.kept id (hlow'.holds.lt_size id hid) ?_
      exact disjoint_labels hn ht' ht hne hid
    obtain ⟨hsize, hkept⟩ :=
      ih (fun c' hc' => hroots c' (List.mem_cons_of_mem _ hc')) hrest honce.2
    rw [runAll_cons, hrun]
    refine ⟨Nat.le_trans hex.size_le hsize, fun id hid hout => ?_⟩
    have hlater : ∀ t' ∈ ts, t'.label ∈ calls.map Call.root → id ∉ t'.labels :=
      fun t' ht' hmem' => hout t' ht' (List.mem_cons_of_mem _ hmem')
    exact (hkept id (Nat.lt_of_lt_of_le hid hex.size_le) hlater).trans
      (hex.kept id hid (hout t ht hmem))

/-- A call among others on literals that share no node. Before it nothing happens to its literal;
after it nothing happens to that literal or to what has become of it. -/
theorem exists_exchanged {before after : List Call} {call : Call}
    (hn : (ts.flatMap Tree.labels).Nodup) (hlow : ∀ t ∈ ts, Lowered a t)
    (hroots : ∀ c ∈ before ++ call :: after, c.root ∈ ts.map Tree.label)
    (honce : ((before ++ call :: after).map Call.root).Nodup) :
    ∃ t ∈ ts, ∃ b u containers, t.label = call.root ∧
      call.run (runAll a before) = (.ofCount containers.length, b) ∧
      Exchanged call.settings (runAll a before) b t u containers ∧
      (∀ id ∈ t.labels, (runAll a before).node? id = a.node? id) ∧
      ∀ id ∈ t.labels ++ u.labels,
        (runAll a (before ++ call :: after)).node? id = b.node? id := by
  rw [List.map_append, List.map_cons, List.nodup_append', List.nodup_cons] at honce
  obtain ⟨hbefore, ⟨hcall, hafter⟩, hdisj⟩ := honce
  obtain ⟨hsize, hkept⟩ := runAll_kept hn
    (fun c hc => hroots c (List.mem_append_left _ hc)) (fun t ht _ => hlow t ht) hbefore
  have hstill : ∀ t ∈ ts, t.label ∈ (call :: after).map Call.root →
      ∀ id ∈ t.labels, (runAll a before).node? id = a.node? id := by
    intro t ht hmem id hid
    refine hkept id ((hlow t ht).holds.lt_size id hid) fun t' ht' hmem' hid' => ?_
    have hne : t.label ≠ t'.label := fun he => hdisj (he ▸ hmem') hmem
    exact disjoint_labels hn ht ht' hne hid hid'
  obtain ⟨t, ht, hroot⟩ :=
    List.mem_map.mp (hroots call (List.mem_append_right _ List.mem_cons_self))
  have hsame := hstill t ht (hroot ▸ List.mem_cons_self)
  obtain ⟨b, u, containers, hrun, hex⟩ :=
    call.run_exchanged ((hlow t ht).congr hsame) hroot.symm
  have hapart : ∀ t' ∈ ts, t'.label ∈ after.map Call.root → t'.labels.Disjoint t.labels := by
    intro t' ht' hmem'
    refine disjoint_labels hn ht' ht fun he => hcall ?_
    rwa [← hroot, ← he]
  have hrest : ∀ t' ∈ ts, t'.label ∈ after.map Call.root → Lowered b t' := by
    intro t' ht' hmem'
    refine (hlow t' ht').congr fun id hid => ?_
    have hlt := Nat.lt_of_lt_of_le ((hlow t' ht').holds.lt_size id hid) hsize
    exact (hex.kept id hlt (hapart t' ht' hmem' hid)).trans
      (hstill t' ht' (List.mem_cons_of_mem _ hmem') id hid)
  have hlater := (runAll_kept hn (fun c hc =>
    hroots c (List.mem_append_right _ (List.mem_cons_of_mem _ hc))) hrest hafter).2
  refine ⟨t, ht, b, u, containers, hroot, hrun, hex, hsame, fun id hid => ?_⟩
  rw [runAll_append, runAll_cons, hrun]
  -- A node of the two is one of the original, or was new when the call was made.
  have hid' : id < b.size ∧ (id ∈ t.labels ∨ (runAll a before).size ≤ id) := by
    rcases List.mem_append.mp hid with hid | hid
    · exact ⟨Nat.lt_of_lt_of_le ((hlow t ht).holds.lt_size id hid)
        (Nat.le_trans hsize hex.size_le), Or.inl hid⟩
    · exact ⟨hex.holds.lt_size id hid, hex.fresh id hid⟩
  refine hlater id hid'.1 fun t' ht' hmem' hin => ?_
  rcases hid'.2 with hold | hnew
  · exact hapart t' ht' hmem' hin hold
  · exact Nat.not_lt.mpr (Nat.le_trans hsize hnew) ((hlow t' ht').holds.lt_size id hin)

theorem Exchanged.edits_eq {s : Settings} {c : Arena} {containers : List NodeId}
    (h : Exchanged s a b t u containers) (hkept : ∀ id ∈ u.labels, c.node? id = b.node? id)
    (source message : String) :
    edits c t.label source message = .ok ((containers.filterMap a.span?).map fun span =>
      ⟨span, callText s.helperFunction, message⟩) := by
  have hterm : c.term u = b.term u := Arena.term_congr hkept
  rw [← h.root, edits_eq_patches (h.holds.congr hkept) h.nodup (hterm ▸ h.builds), hterm,
    h.patches]

theorem map_some_filterMap {α β : Type} {f : α → Option β} {l : List α}
    (h : ∀ x ∈ l, (f x).isSome) : (l.filterMap f).map some = l.map f := by
  induction l with
  | nil => rfl
  | cons x l ih =>
    obtain ⟨y, hy⟩ := Option.isSome_iff_exists.mp (h x List.mem_cons_self)
    rw [List.filterMap_cons_some hy, List.map_cons, List.map_cons, hy,
      ih fun z hz => h z (List.mem_cons_of_mem _ hz)]

theorem lowered_of_program (program : Php.Program) : ∃ us : List (Tree NodeId),
    program.lower.1 = us.map Tree.label ∧ (us.flatMap Tree.labels).Nodup ∧
      ∀ u ∈ us, Lowered program.lower.2 u ∧
        ∀ s, ∀ v ∈ replaced s (program.lower.2.term u), v.label.span.isSome := by
  obtain ⟨a, us, hlower, hlow⟩ := Php.lowerExprs_lowers .empty program.arrays
  have hprogram : program.lower = (us.map Tree.label, a) := hlower
  simp only [hprogram]
  refine ⟨us, rfl, hlow.nodup, fun u hu => ⟨⟨hlow.holds u hu, ?_, ?_⟩, fun s v hv => ?_⟩⟩
  · exact (List.nodup_flatMap.mp hlow.nodup).1 u hu
  · exact hlow.source _ (hlow.terms ▸ List.mem_map_of_mem hu)
  · obtain ⟨e, -, he⟩ : ∃ e ∈ program.arrays, e.term = a.term u := by
      have hmem : a.term u ∈ us.map a.term := List.mem_map_of_mem hu
      rwa [hlow.terms, List.mem_map] at hmem
    rw [← he, Php.mem_replaced_iff] at hv
    obtain ⟨_, c, -, -, rfl⟩ := hv
    rw [Php.span_label_term, Option.isSome_some]

/-- Calls are made for literals of a program, each of them at most once. However many there are and
in whatever order, what one of them replaced is shown by the edits of its literal at the end: they
are one for each node that was replaced, in the order of the source, and none if there was none. -/
theorem edits_runAll (program : Php.Program) (source message : String) (before : List Call)
    (call : Call) (after : List Call)
    (hroots : ∀ c ∈ before ++ call :: after, c.root ∈ program.lower.1)
    (honce : ((before ++ call :: after).map Call.root).Nodup) :
    ∃ (t : Tree NodeId) (containers : List NodeId) (spans : List Span),
      program.lower.2.Holds t ∧ t.label = call.root ∧ t.labels.Nodup ∧
      (call.run (runAll program.lower.2 before)).1 = .ofCount containers.length ∧
      containers.Sublist t.labels ∧
      (∀ c, c ∈ containers ↔ ∃ x ∈ t.labels, program.lower.2.Child x c ∧
        ¬(runAll program.lower.2 (before ++ call :: after)).Child x c) ∧
      containers.map program.lower.2.span? = spans.map some ∧
      edits (runAll program.lower.2 (before ++ call :: after)) call.root source message =
        .ok (spans.map fun span => ⟨span, callText call.settings.helperFunction, message⟩) := by
  obtain ⟨us, hus, hn, hlow⟩ := lowered_of_program program
  generalize program.lower.2 = a at hlow ⊢
  rw [hus] at hroots
  obtain ⟨t, ht, b, u, containers, hroot, hrun, hex, hsame, hkept⟩ :=
    exists_exchanged hn (fun u hu => (hlow u hu).1) hroots honce
  have hspan : ∀ c ∈ containers, (runAll a before).span? c = a.span? c := fun c hc => by
    rw [Arena.span?, Arena.span?, hsame c (hex.order.subset hc)]
  refine ⟨t, containers, containers.filterMap a.span?, (hlow t ht).1.holds, hroot,
    (hlow t ht).1.nodup, by rw [hrun], hex.order, fun c => ?_,
    (map_some_filterMap fun c hc => ?_).symm, ?_⟩
  · rw [hex.lost c]
    refine exists_congr fun x => and_congr_right fun hx => ?_
    simp only [Arena.Child, Arena.children, Arena.shape?, hsame x hx,
      hkept x (List.mem_append_left _ hx)]
  · obtain ⟨v, hv, hlabel⟩ := hex.replaced c hc
    rw [Arena.term_congr hsame] at hv
    rw [← hspan c hc, Arena.span?_eq, ← hlabel]
    exact (hlow t ht).2 call.settings v hv
  · rw [← hroot, hex.edits_eq fun id hid => hkept id (List.mem_append_right _ hid),
      List.filterMap_congr hspan]

def memberAt (start : Nat) (name : String) : Php.Expr :=
  .property ⟨start, start + 18⟩ (.property ⟨start, start + 12⟩
    (.variable ⟨start, start + 5⟩ "this") (some "faker")) (some name)

def nestedSource : String := "<?php return [$this->faker->name, [$this->faker->word]];"

def nestedProgram : Php.Program :=
  [.other ⟨0, 5⟩, .ret ⟨6, 56⟩ (some (.array ⟨13, 55⟩
    [.item (memberAt 14 "name"), .item (.array ⟨34, 54⟩ [.item (memberAt 35 "word")])]))]

def nestedCall (root : NodeId) : Call :=
  ⟨.standard, some ⟨"UserFactory", [Settings.standard.baseClass]⟩, root⟩

theorem edits_runAll_nested : ∃ containers : List NodeId,
    ((nestedCall 10).run nestedProgram.lower.2).1 = .ofCount containers.length ∧
    containers.map nestedProgram.lower.2.span? = [some ⟨14, 26⟩, some ⟨35, 47⟩] ∧
    edits (runAll nestedProgram.lower.2 [nestedCall 10, nestedCall 15]) 10 nestedSource "" =
      .ok [⟨⟨14, 26⟩, "fake()", ""⟩, ⟨⟨35, 47⟩, "fake()", ""⟩] := by
  have hlower : nestedProgram.lower.1 = [10, 15] := by decide +kernel
  obtain ⟨t, containers, spans, -, -, -, hrun, -, -, hspans, hedits⟩ := edits_runAll nestedProgram
    nestedSource "" [] (nestedCall 10) [nestedCall 15] (by rw [hlower]; decide) (by decide)
  have hshown : edits (runAll nestedProgram.lower.2 [nestedCall 10, nestedCall 15]) 10
      nestedSource "" = .ok [⟨⟨14, 26⟩, "fake()", ""⟩, ⟨⟨35, 47⟩, "fake()", ""⟩] := rfl
  have hmap := congrArg (List.map Edit.span) (Except.ok.inj (hedits.symm.trans hshown))
  rw [List.map_map] at hmap
  obtain rfl : spans = [⟨14, 26⟩, ⟨35, 47⟩] := by simpa [Function.comp_def] using hmap
  exact ⟨containers, hrun, hspans, hshown⟩

end FactoryLint.Rewrite
