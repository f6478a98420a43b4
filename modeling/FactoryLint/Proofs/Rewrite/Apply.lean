import FactoryLint.Proofs.Rewrite.Walk

namespace FactoryLint.Rewrite

/-- The literal stands in a descendant of the base class. -/
def Eligible (s : Settings) (context : Option ClassContext) : Prop :=
  ∃ c, context = some c ∧ c.IsSubclassOf s.baseClass

def Outcome.ofCount : Nat → Outcome
  | 0 => .unchanged
  | n + 1 => .changed (n + 1)

def rewriteParts (s : Settings) (t : Term) : Term := .node t.label (t.parts.map (rewrite s))

theorem any_isSubclassOf_iff {s : Settings} {context : Option ClassContext} :
    context.any (·.IsSubclassOf s.baseClass) ↔ Eligible s context := by
  cases context <;> simp [Eligible]

instance (s : Settings) (context : Option ClassContext) : Decidable (Eligible s context) :=
  decidable_of_iff (context.any (·.IsSubclassOf s.baseClass)) any_isSubclassOf_iff

theorem rewriteItems_eq {s : Settings} {a : Arena} {x : NodeId} {ts : List (Tree NodeId)}
    (h : a.Holds (.node x ts)) (hn : (Tree.node x ts).labels.Nodup) :
    ∃ b us, rewriteItems s a (ts.map Tree.label) = some (b, (siteIds s a ts).length) ∧
      Rewritten s a b ts us := by
  have hts := (Arena.holds_node.mp h).2
  have hn' := (List.nodup_cons.mp (Tree.labels_node x ts ▸ hn)).2
  obtain ⟨b, us, hb, hab⟩ := each_rewrites (fun t _ => preorder_rewrites s t) a 0 (a.size + 1)
    hts hn' fun t ht =>
      Nat.le_succ_of_le ((hts t ht).length_le_size ((List.nodup_flatMap.mp hn').1 t ht))
  rw [Nat.zero_add] at hb
  exact ⟨b, us, hb, hab⟩

theorem applyIn_of_eligible {s : Settings} {context : Option ClassContext} {a : Arena}
    {x : NodeId} {ts : List (Tree NodeId)} (h : a.Holds (.node x ts))
    (hn : (Tree.node x ts).labels.Nodup) (hk : (a.label x).kind = .arrayLiteral)
    (hel : Eligible s context) :
    ∃ b us, applyIn s context a x = (.ofCount (siteIds s a ts).length, b) ∧
      Rewritten s a b ts us := by
  obtain ⟨b, us, hb, hab⟩ := rewriteItems_eq (s := s) h hn
  obtain ⟨⟨n, hn', hc⟩, -⟩ := Arena.holds_node.mp h
  rw [Arena.label_eq hn'] at hk
  have hshape : a.shape? x = some (.arrayLiteral (ts.map Tree.label)) := by
    rw [Arena.shape?, hn', Option.map_some, ← hc]
    exact congrArg some (Shape.eq_arrayLiteral_of_kind hk)
  refine ⟨b, us, ?_, hab⟩
  rw [applyIn, hshape]
  simp only [if_pos (any_isSubclassOf_iff.mpr hel), hb]
  cases (siteIds s a ts).length <;> rfl

theorem applyIn_of_not_eligible {s : Settings} {context : Option ClassContext} {a : Arena}
    {x : NodeId} (h : ¬((a.label x).kind = .arrayLiteral ∧ Eligible s context)) :
    applyIn s context a x = (.unchanged, a) := by
  rw [applyIn]
  split
  · rename_i items hshape
    obtain ⟨n, hn, hs⟩ := Option.map_eq_some_iff.mp hshape
    have hk : (a.label x).kind = .arrayLiteral := by
      rw [Arena.label_eq hn, Node.label, hs]
      rfl
    rw [if_neg (mt any_isSubclassOf_iff.mp fun hel => h ⟨hk, hel⟩)]
  · rfl

/-- Rewriting is the rewriting of the term at the root. The sites are those of the original tree.
There is one replacement and one new node for each, and all other nodes stay. -/
theorem applyIn_eq_rewriteParts (s : Settings) (context : Option ClassContext) (a : Arena)
    (t : Tree NodeId) (h : a.Holds t) (hn : t.labels.Nodup) :
    ((a.label t.label).kind = .arrayLiteral ∧ Eligible s context →
      ∃ b u, applyIn s context a t.label = (.ofCount (siteIds s a t.parts).length, b) ∧
        u.label = t.label ∧ b.Holds u ∧ u.labels.Nodup ∧
        b.term u = rewriteParts s (a.term t) ∧
        b.size = a.size + (siteIds s a t.parts).length ∧
        ∀ id < a.size, (id ∉ siteIds s a t.parts → b.node? id = a.node? id) ∧
          ∃ shape, b.node? id = (a.node? id).map fun n => { n with shape }) ∧
    (¬((a.label t.label).kind = .arrayLiteral ∧ Eligible s context) →
      applyIn s context a t.label = (.unchanged, a)) := by
  refine ⟨fun ⟨hk, hel⟩ => ?_, applyIn_of_not_eligible⟩
  cases t with
  | node x ts =>
    obtain ⟨b, us, hb, hab⟩ := applyIn_of_eligible h hn hk hel
    obtain ⟨hkept, hholds, hnodup⟩ := hab.under h hn
    refine ⟨b, .node x us, hb, rfl, hholds, hnodup, ?_, hab.size,
      fun id hid => ⟨hab.kept id hid, hab.reshaped id hid⟩⟩
    rw [Arena.term_node, hab.terms, Arena.label_congr hkept, rewriteParts, Arena.term_node]
    rfl

def chainAndExcluded : Arena where
  nodes := .mk <| List.map (⟨·, none, .source⟩) [
    .variable "this", .property 0 (some "faker"), .methodCall 1 (some "unique") [],
    .property 2 (some "name"), .arrayItem none 3,
    .variable "this", .property 5 (some "faker"),
    .variable "this", .property 7 (some "faker"), .property 8 (some "word"),
    .methodCall 6 (some "randomEnum") [9], .arrayItem none 10,
    .arrayLiteral [4, 11]]

def chainAndExcludedTree : Tree NodeId :=
  .node 12 [.node 4 [.node 3 [.node 2 [.node 1 [.node 0 []]]]],
    .node 11 [.node 10 [.node 6 [.node 5 []], .node 9 [.node 8 [.node 7 []]]]]]

theorem siteIds_chainAndExcluded :
    siteIds .standard chainAndExcluded chainAndExcludedTree.parts = [2, 9] := by
  simp [siteIds, chainAndExcludedTree, sites_node, isSite, readsMember, Arena.label, Arena.node?,
    chainAndExcluded, Node.label, Shape.kind, Label.isClosed]
  decide

theorem applyIn_chainAndExcluded : ∃ b u,
    applyIn .standard (some ⟨"UserFactory", [Settings.standard.baseClass]⟩) chainAndExcluded 12 =
      (.changed 2, b) ∧ b.size = 15 ∧
    b.term u = rewriteParts .standard (chainAndExcluded.term chainAndExcludedTree) := by
  have hholds : chainAndExcluded.Holds chainAndExcludedTree := by
    simp [chainAndExcludedTree, Arena.holds_node, chainAndExcluded, Arena.node?, Shape.children]
  have hnodup : chainAndExcludedTree.labels.Nodup := by
    simp [chainAndExcludedTree]
  have hel : Eligible .standard (some ⟨"UserFactory", [Settings.standard.baseClass]⟩) :=
    ⟨_, rfl, _, List.mem_singleton_self _, rfl⟩
  obtain ⟨b, u, hb, -, -, -, hterm, hsize, -⟩ :=
    (applyIn_eq_rewriteParts .standard _ chainAndExcluded chainAndExcludedTree hholds hnodup).1
      ⟨rfl, hel⟩
  rw [siteIds_chainAndExcluded] at hb hsize
  exact ⟨b, u, hb, hsize, hterm⟩

end FactoryLint.Rewrite
