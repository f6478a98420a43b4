import FactoryLint.Proofs.Edit.Relabelled
import FactoryLint.Proofs.Edit.Splice
import FactoryLint.Proofs.Rewrite.Depth

namespace FactoryLint.Rewrite

open Text Edit

variable {a : Arena} {id : NodeId}

theorem mapM_flatten_relabel {f g : NodeId → Except EditError (List Edit)} {message : String}
    {ids : List NodeId} (h : ∀ y ∈ ids, f y = (g y).map (List.map (relabel message))) :
    (ids.mapM f).map List.flatten =
      ((ids.mapM g).map List.flatten).map (List.map (relabel message)) := by
  have hmapM : ids.mapM f = (ids.mapM g).map (List.map (List.map (relabel message))) := by
    induction ids with
    | nil => rfl
    | cons y ids ih =>
      rw [List.mapM_cons, List.mapM_cons, h y List.mem_cons_self,
        ih fun z hz => h z (List.mem_cons_of_mem _ hz)]
      cases g y with
      | error fault => rfl
      | ok es => cases ids.mapM g <;> rfl
  rw [hmapM]
  cases ids.mapM g with
  | error fault => rfl
  | ok nested => exact congrArg Except.ok (List.map_flatten ..).symm

theorem editsAt_eq_map_relabel (a : Arena) (source message : String) (depth : Nat) (id : NodeId) :
    editsAt a source message depth id =
      (editsAt a source "" depth id).map (List.map (relabel message)) := by
  induction depth generalizing id with
  | zero => rw [editsAt, editsAt]; rfl
  | succ depth ih =>
    rcases Nat.lt_or_ge id a.size with hlt | hge
    · obtain ⟨node, hnode⟩ := Arena.exists_node? hlt
      by_cases hbuilt : ∃ span, node.origin = .built (some span)
      · obtain ⟨span, ho⟩ := hbuilt
        rw [editsAt_built source message depth hnode ho, editsAt_built source "" depth hnode ho]
        cases textAt a source depth id <;> rfl
      · have ho : ∀ span, node.origin ≠ .built (some span) := fun span ho => hbuilt ⟨span, ho⟩
        rw [editsAt_node source message depth hnode ho, editsAt_node source "" depth hnode ho]
        exact mapM_flatten_relabel fun y _ => ih y
    · rw [editsAt_of_size_le hge, editsAt_of_size_le hge]
      rfl

/-- Edits made from the back leave what is before them in its place, so those within a span can
be made in what it covers. -/
theorem spliceAll_eq_spliceWithin {before after covered : List Char} {span : Span} {es : List Edit}
    (hstart : byteLength before = span.start) (hin : ∀ e ∈ es, e.span.Inside span)
    (hforward : ∀ e ∈ es, e.span.start ≤ e.span.stop)
    (hfit : ∀ e ∈ es, e.span.stop ≤ span.start + byteLength covered)
    (hpairwise : es.Pairwise fun e e' => e'.EndsBefore e) :
    spliceAll (before ++ covered ++ after) es =
      (spliceWithin span covered es).map fun out => before ++ out ++ after := by
  induction es generalizing covered with
  | nil => rfl
  | cons e es ih =>
    obtain ⟨hbefore, hpairwise⟩ := List.pairwise_cons.mp hpairwise
    obtain ⟨hine, hin⟩ := List.forall_mem_cons.mp hin
    obtain ⟨hforwarde, hforward⟩ := List.forall_mem_cons.mp hforward
    obtain ⟨hfite, -⟩ := List.forall_mem_cons.mp hfit
    obtain ⟨m, hm⟩ := Nat.exists_eq_add_of_le hine.1
    obtain ⟨n, hn⟩ := Nat.exists_eq_add_of_le (Nat.le_trans hine.1 hforwarde)
    have hspan : e.span = ⟨byteLength before + m, byteLength before + n⟩ := by
      rw [hstart, ← hm, ← hn]
    have hreplace := replace?_within before covered after e.replacement.toList (m := m) (n := n)
      (by omega)
    rw [spliceAll, spliceWithin, if_pos ⟨hforwarde, hine⟩, hn, hm, Nat.add_sub_cancel_left,
      Nat.add_sub_cancel_left]
    rw [← hspan] at hreplace
    rw [hreplace]
    cases hinner : replace? covered ⟨m, n⟩ e.replacement.toList with
    | none =>
      simp only [hinner]
      rfl
    | some out =>
      simp only [hinner]
      obtain ⟨kept, lost, rest, rfl, rfl, hkept, -⟩ := replace?_eq_some hinner
      refine ih hin hforward (fun x hx => ?_) hpairwise
      have hle : x.span.stop ≤ e.span.start := hbefore x hx
      have hlen : byteLength kept = m := hkept
      simp only [byteLength_append]
      omega

theorem spliced_of_apply {source text : String} {before covered after : List Char} {span : Span}
    {es : List Edit} (hsplit : source.toList = before ++ covered ++ after)
    (hstart : byteLength before = span.start)
    (hstop : span.start + byteLength covered = span.stop)
    (hin : ∀ e ∈ es, e.span.Inside span) (happly : Edit.apply source es = .ok text) :
    ∃ part, spliced span covered es = .ok part ∧
      text.toList = before ++ part.toList ++ after := by
  obtain ⟨hfault, hall⟩ := of_apply_eq_ok happly
  obtain ⟨hpairwise, hbounds, -⟩ := pairwise_of_firstFault hfault
  have hin' : ∀ e ∈ backToFront es, e.span.Inside span := fun e he =>
    hin e ((backToFront_perm es).mem_iff.mp he)
  rw [hsplit, spliceAll_eq_spliceWithin hstart hin' (fun e he => (hbounds e he).1)
    (fun e he => hstop ▸ (hin' e he).2) hpairwise] at hall
  cases hwithin : spliceWithin span covered (backToFront es) with
  | error fault =>
    rw [hwithin] at hall
    cases hall
  | ok out =>
    rw [hwithin] at hall
    refine ⟨.ofList out, ?_, ?_⟩
    · have horder : (es.mergeSort fun a b => decide (b.span.start ≤ a.span.start)) =
          backToFront es := rfl
      simp only [spliced, horder, hwithin]
      rfl
    · rw [String.toList_ofList]
      exact (Except.ok.inj hall).symm

/-- Where the edits of a node of the source can all be made in what it covers, they leave its text
there, and everything around it as it was. Neither way reaches the bound on the depth. -/
theorem text_of_apply_edits (ha : a.Acyclic) (source message : String) {n : Node} {span : Span}
    {before covered after : List Char} {es : List Edit} {out : String}
    (hn : a.node? id = some n) (ho : n.origin = .source) (hs : n.span = some span)
    (hsplit : source.toList = before ++ covered ++ after)
    (hstart : byteLength before = span.start)
    (hstop : span.start + byteLength covered = span.stop)
    (hedits : edits a id source message = .ok es) (hin : ∀ e ∈ es, e.span.Inside span)
    (hout : Edit.apply source es = .ok out) :
    (∃ part, text a id source = .ok part ∧ out.toList = before ++ part.toList ++ after) ∧
      ∀ depth ≥ depthBound a, editsAt a source message depth id = .ok es ∧
        textAt a source depth id = text a id source := by
  constructor
  · rw [edits, editsAt_eq_map_relabel] at hedits
    cases hplain : editsAt a source "" (depthBound a) id with
    | error fault =>
      rw [hplain] at hedits
      cases hedits
    | ok plain =>
      rw [hplain] at hedits
      obtain rfl : plain.map (relabel message) = es := Except.ok.inj hedits
      rw [apply_map_relabel] at hout
      have hin' : ∀ e ∈ plain, e.span.Inside span := fun e he =>
        hin (relabel message e) (List.mem_map_of_mem he)
      obtain ⟨part, hpart, hparts⟩ := spliced_of_apply hsplit hstart hstop hin' hout
      refine ⟨part, ?_, hparts⟩
      have hslice : slice? source.toList span = some covered :=
        hsplit ▸ slice?_length hstart hstop after
      have htext := textAt_source (2 * a.size + 1) hn ho hs hslice
      rw [text, depthBound, htext, ← depthBound, hplain]
      exact hpart
  · intro depth hdepth
    have henough := depthBound_enough ha source message id hdepth
    rwa [hedits] at henough

/-- The literal of `é[g(h(x))];` with `k(h($y))` in the place of `g(h(x))`: a call that was built,
around one of the source, around a variable that was built. -/
def layered : Arena where
  nodes := #[⟨.variable "y", none, .built (some ⟨7, 8⟩)⟩,
    ⟨.functionCall (some "h") [0], some ⟨5, 9⟩, .source⟩,
    ⟨.functionCall (some "k") [1], none, .built (some ⟨3, 10⟩)⟩,
    ⟨.arrayLiteral [2], some ⟨2, 11⟩, .source⟩]

def layeredSource : String := "é[g(h(x))];"

theorem edits_layered : edits layered 3 layeredSource "m" =
    .ok [⟨⟨3, 10⟩, "k(h($y))", "m"⟩] := by
  have hinner : textAt layered layeredSource 7 1 = .ok "h($y)" := by
    have hnested : editsAt layered layeredSource "" 7 1 = .ok [⟨⟨7, 8⟩, "$y", ""⟩] := rfl
    have hslice : slice? layeredSource.toList ⟨5, 9⟩ = some "h(x)".toList := by decide
    rw [textAt_source 6 rfl rfl rfl hslice, hnested, Except.bind, spliced,
      List.mergeSort_singleton]
    rfl
  have houter : textAt layered layeredSource 8 2 = .ok "k(h($y))" := by
    have hnode : layered.node? 2 =
      some ⟨.functionCall (some "k") [1], none, .built (some ⟨3, 10⟩)⟩ := rfl
    rw [textAt_written layeredSource 7 hnode (by simp)]
    simp only [Shape.children, List.mapM_cons, List.mapM_nil, hinner, bind, Except.bind]
    rfl
  have hnode : layered.node? 3 = some ⟨.arrayLiteral [2], some ⟨2, 11⟩, .source⟩ := rfl
  have hchild : editsAt layered layeredSource "m" 9 2 = .ok [⟨⟨3, 10⟩, "k(h($y))", "m"⟩] := by
    rw [editsAt_built layeredSource "m" 8 rfl rfl, houter]
    rfl
  have hdepth : depthBound layered = 10 := rfl
  rw [edits, hdepth, editsAt_node layeredSource "m" 9 hnode (by simp)]
  simp only [Shape.children, List.mapM_cons, List.mapM_nil, hchild, bind, Except.bind]
  rfl

theorem text_of_apply_edits_layered : layered.Acyclic ∧
    edits layered 3 layeredSource "m" = .ok [⟨⟨3, 10⟩, "k(h($y))", "m"⟩] ∧
    ∃ part, text layered 3 layeredSource = .ok part ∧
      "é[k(h($y))];".toList = ['é'] ++ part.toList ++ [';'] := by
  have hacyclic : layered.Acyclic := by
    refine Arena.acyclic_of_children_lt ?_
    decide
  have happly : Edit.apply layeredSource [⟨⟨3, 10⟩, "k(h($y))", "m"⟩] = .ok "é[k(h($y))];" := by
    rw [Edit.apply, backToFront, List.mergeSort_singleton]
    rfl
  have hsplit : layeredSource.toList = ['é'] ++ "[g(h(x))]".toList ++ [';'] := by decide
  exact ⟨hacyclic, edits_layered, (text_of_apply_edits hacyclic layeredSource "m" rfl rfl rfl
    hsplit (by decide) (by decide) edits_layered (by decide) happly).1⟩

end FactoryLint.Rewrite
