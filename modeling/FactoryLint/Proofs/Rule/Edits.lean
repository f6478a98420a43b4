import FactoryLint.Proofs.Php.Reach
import FactoryLint.Rule.HelperCall

namespace FactoryLint.Php

theorem eq_of_array? {v : Visited} {e : Expr} (h : v.array? = some e) :
    ∃ span elements, e = .array span elements ∧ v = .expr (.array span elements) := by
  unfold Visited.array? at h
  split at h
  · cases h
    exact ⟨_, _, rfl, rfl⟩
  · cases h

end FactoryLint.Php

namespace FactoryLint.Rule.HelperCall

open Php Rewrite

variable {s : Settings} {scope : Scope}

def edit (s : Settings) (span : Span) : Edit := ⟨span, callText s.helperFunction, message s⟩

def literalEdits (s : Settings) (scope : Scope) : Expr → List Edit
  | .array span elements =>
    if Eligible s (scope.context? span) then
      (((elements.flatMap Element.values).flatMap fun e => replaced s e.term).filterMap
        fun u => u.label.span).map (edit s)
    else []
  | _ => []

theorem replaced_eq_nil {a : Arena} {ts : List (Tree NodeId)} (h : siteIds s a ts = []) :
    (ts.map a.term).flatMap (replaced s) = [] := by
  rw [siteIds, List.map_eq_nil_iff, List.flatMap_eq_nil_iff] at h
  rw [List.flatMap_eq_nil_iff]
  intro t' ht'
  obtain ⟨t, ht, rfl⟩ := List.mem_map.mp ht'
  have hsites : sites s id (a.term t) = (sites s a.label t).map (Tree.map a.label) :=
    sites_map a.label id t
  rw [replaced, hsites, h t ht, List.map_nil, List.filterMap_nil]

theorem rewriteRoot_eq (source : String) {a : Arena} {u : Tree NodeId} {span : Span}
    {elements : List Element} (h : a.Holds u) (hn : u.labels.Nodup)
    (hterm : a.term u = (Expr.array span elements).term) (hsource : IsSource (a.term u)) :
    ∃ b, rewriteRoot s scope source a u.label =
        .ok (literalEdits s scope (.array span elements), b) ∧
      ∀ id < a.size, id ∉ u.labels → b.node? id = a.node? id := by
  cases u with
  | node x ts =>
    have hterm' := hterm
    rw [Arena.term_node, Expr.term] at hterm'
    obtain ⟨hlabel, hts⟩ := Tree.node.inj hterm'
    have hkind : (a.label x).kind = .arrayLiteral := by rw [hlabel]; rfl
    have hspan : a.span? x = some span := by rw [Arena.span?_eq, hlabel]; rfl
    have hvalues : (ts.map a.term).flatMap (replaced s) =
        (elements.flatMap Element.values).flatMap fun e => replaced s e.term := by
      rw [hts, flatMap_elementTerms _ _ fun kind span ts h =>
        replaced_plain (h.imp_right (Or.imp_right Or.inl)) span ts]
    have happly : apply s scope.context? a x = applyIn s (scope.context? span) a x := by
      rw [apply, hspan, Option.bind_some]
    rw [Tree.label_node, rewriteRoot, happly, literalEdits]
    by_cases hel : Eligible s (scope.context? span)
    · obtain ⟨b, us, hb, hab⟩ := applyIn_of_eligible h hn hkind hel
      refine ⟨b, ?_, fun id hid hmem => hab.kept id hid fun hs => hmem ?_⟩
      · have hedits := edits_of_rewritten h hn hsource hab source (message s)
        rw [hb, if_pos hel, ← hvalues]
        cases hcount : (siteIds s a ts).length with
        | zero =>
          rw [replaced_eq_nil (List.length_eq_zero_iff.mp hcount)]
          rfl
        | succ n =>
          simp only [Outcome.ofCount, hedits]
          rfl
      · rw [Tree.labels_node]
        exact List.mem_cons_of_mem _ (siteIds_subset hs)
    · refine ⟨a, ?_, fun _ _ _ => rfl⟩
      rw [applyIn_of_not_eligible fun h => hel h.2, if_neg hel]

/-- The edits for several array literals of one arena, those for each in a list of their own. -/
def rewriteEach (s : Settings) (scope : Scope) (source : String) :
    Arena → List NodeId → Except EditError (List (List Edit))
  | _, [] => .ok []
  | a, root :: roots => do
    let (edits, a) ← rewriteRoot s scope source a root
    let more ← rewriteEach s scope source a roots
    return edits :: more

theorem rewriteRoots_eq_map (s : Settings) (scope : Scope) (source : String) (a : Arena)
    (roots : List NodeId) : rewriteRoots s scope source a roots =
      (rewriteEach s scope source a roots).map List.flatten := by
  induction roots generalizing a with
  | nil => rfl
  | cons root roots ih =>
    rw [rewriteRoots, rewriteEach]
    cases rewriteRoot s scope source a root with
    | error fault => rfl
    | ok edited =>
      change (rewriteRoots s scope source edited.2 roots).bind _ =
        ((rewriteEach s scope source edited.2 roots).bind _).map _
      rw [ih]
      cases rewriteEach s scope source edited.2 roots <;> rfl

theorem rewriteEach_eq (source : String) (es : List Expr) (us : List (Tree NodeId)) (a : Arena)
    (hes : ∀ e ∈ es, ∃ span elements, e = .array span elements) (h : ∀ u ∈ us, a.Holds u)
    (hn : (us.flatMap Tree.labels).Nodup) (hterm : us.map a.term = es.map Expr.term)
    (hsource : ∀ u ∈ us, IsSource (a.term u)) :
    rewriteEach s scope source a (us.map Tree.label) =
      .ok (es.map (literalEdits s scope)) := by
  induction us generalizing es a with
  | nil =>
    rw [List.map_eq_nil_iff.mp hterm.symm]
    rfl
  | cons u us ih =>
    cases es with
    | nil => cases hterm
    | cons e es =>
      obtain ⟨span, elements, rfl⟩ := hes e (by simp)
      obtain ⟨hu, hus⟩ := List.cons.inj hterm
      rw [List.flatMap_cons, List.nodup_append'] at hn
      obtain ⟨hnu, hnus, hdisj⟩ := hn
      obtain ⟨b, hb, hkept⟩ : ∃ b, rewriteRoot s scope source a u.label =
          .ok (literalEdits s scope (.array span elements), b) ∧
          ∀ id < a.size, id ∉ u.labels → b.node? id = a.node? id :=
        rewriteRoot_eq source (h u (by simp)) hnu hu (hsource u (by simp))
      have hrest : ∀ v ∈ us, a.Holds v := fun v hv => h v (List.mem_cons_of_mem _ hv)
      have hnode : ∀ id ∈ us.flatMap Tree.labels, b.node? id = a.node? id := fun id hid =>
        hkept id (Arena.lt_size_of_holds hrest id hid) fun hmem => hdisj hmem hid
      have hread := Arena.map_term_congr hnode
      have hmore := ih es b (fun e he => hes e (List.mem_cons_of_mem _ he))
        (Arena.holds_congr hnode hrest) hnus (hread.trans hus)
        fun v hv => (List.map_inj_left.mp hread v hv).symm ▸ hsource v (List.mem_cons_of_mem _ hv)
      rw [List.map_cons, rewriteEach, hb]
      change (rewriteEach s scope source b (us.map Tree.label)).bind _ = _
      rw [hmore, List.map_cons]
      rfl

theorem rewriteEach_lowerExprs (s : Settings) (scope : Scope) (source : String) {es : List Expr}
    (hes : ∀ e ∈ es, ∃ span elements, e = .array span elements) :
    rewriteEach s scope source (lowerExprs es .empty).2 (lowerExprs es .empty).1 =
      .ok (es.map (literalEdits s scope)) := by
  obtain ⟨b, us, hb, hlow⟩ := lowerExprs_lowers .empty es
  rw [hb]
  exact rewriteEach_eq source es us b hes hlow.holds hlow.nodup hlow.terms fun u hu =>
    hlow.source _ (hlow.terms ▸ List.mem_map_of_mem hu)

theorem rewriteRoots_lowerExprs (s : Settings) (scope : Scope) (source : String) {es : List Expr}
    (hes : ∀ e ∈ es, ∃ span elements, e = .array span elements) :
    rewriteRoots s scope source (lowerExprs es .empty).2 (lowerExprs es .empty).1 =
      .ok (es.flatMap (literalEdits s scope)) := by
  rw [rewriteRoots_eq_map, rewriteEach_lowerExprs s scope source hes, List.flatMap_def]
  rfl

theorem literalEdits_of_no_declarations (h : Hierarchy) (e : Expr) :
    literalEdits s ⟨h, []⟩ e = [] := by
  cases e with
  | array span elements =>
    rw [literalEdits, if_neg]
    rintro ⟨c, hc, -⟩
    cases hc
  | _ => rfl

theorem exists_eq_array {program : Program} {e : Expr} (h : e ∈ program.arrays) :
    ∃ span elements, e = .array span elements := by
  obtain ⟨v, -, hv⟩ := List.mem_filterMap.mp h
  obtain ⟨span, elements, rfl, -⟩ := eq_of_array? hv
  exact ⟨span, elements, rfl⟩

variable {h : Hierarchy} {source : String} {program : Program} {ds : List Declaration}
  {edits : List Edit}

/-- Where the classes of the program can be read, the edits are those for all its array literals. -/
theorem check_eq (s : Settings) (h : Hierarchy) (hds : program.declarations? source = some ds) :
    check s h source program =
      .ok (Edit.canonical (program.arrays.flatMap (literalEdits s ⟨h, ds⟩))) := by
  rw [check, hds]
  cases ds with
  | nil =>
    rw [List.flatMap_eq_nil_iff.mpr fun e _ => literalEdits_of_no_declarations h e]
    simp [Edit.canonical, Edit.dropRepeated]
  | cons d ds =>
    have hroots : rewriteRoots s ⟨h, d :: ds⟩ source program.lower.2 program.lower.1 =
        .ok (program.arrays.flatMap (literalEdits s ⟨h, d :: ds⟩)) :=
      rewriteRoots_lowerExprs s _ source fun e he => exists_eq_array he
    change ((rewriteRoots s _ source program.lower.2 program.lower.1).map Edit.canonical).mapError
      Stop.splice = _
    rw [hroots]
    rfl

theorem check_eq_stop (s : Settings) (h : Hierarchy) (hnone : program.declarations? source = none) :
    check s h source program = .error .imports := by
  rw [check, hnone]

/-- Edits are returned for the programs whose classes can be read. -/
theorem exists_declarations (hcheck : check s h source program = .ok edits) :
    ∃ ds, program.declarations? source = some ds := by
  cases hds : program.declarations? source with
  | none =>
    rw [check_eq_stop s h hds] at hcheck
    cases hcheck
  | some ds => exact ⟨ds, rfl⟩

end FactoryLint.Rule.HelperCall
