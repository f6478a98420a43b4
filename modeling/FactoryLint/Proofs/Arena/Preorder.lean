import FactoryLint.Arena.Walk
import FactoryLint.Proofs.Arena.Term
import FactoryLint.Proofs.Tree.Place

namespace FactoryLint.Arena

variable {σ : Type} {step : Step σ}

theorem each_append (treat : NodeId → Arena → σ → Option (Arena × σ)) (ids ids' : List NodeId)
    (a : Arena) (s : σ) : each treat (ids ++ ids') a s =
      (each treat ids a s).bind fun r => each treat ids' r.1 r.2 := by
  induction ids generalizing a s with
  | nil => rfl
  | cons id ids ih =>
    rw [List.cons_append, each, each]
    cases treat id a s with
    | none => rfl
    | some r => exact ih r.1 r.2

theorem each_mono {f g : NodeId → Arena → σ → Option (Arena × σ)}
    (hfg : ∀ id a s r, f id a s = some r → g id a s = some r) {ids : List NodeId} {a : Arena} {s : σ}
    {r : Arena × σ} (h : each f ids a s = some r) : each g ids a s = some r := by
  induction ids generalizing a s with
  | nil => exact h
  | cons id ids ih =>
    rw [each] at h
    split at h
    · cases h
    · rename_i b t hf
      rw [each, hfg id a s (b, t) hf]
      exact ih h

theorem step_cases (step : Step σ) (id : NodeId) (a : Arena) (s : σ) :
    (∃ b t, step id a s = (.skip, b, t)) ∨ ∃ b t, step id a s = (.enter, b, t) := by
  obtain ⟨descent, b, t⟩ := step id a s
  cases descent with
  | enter => exact Or.inr ⟨b, t, rfl⟩
  | skip => exact Or.inl ⟨b, t, rfl⟩

section

variable {id : NodeId} {a b : Arena} {s t : σ}

theorem preorder_skip (h : step id a s = (.skip, b, t)) (depth : Nat) :
    preorder step (depth + 1) id a s = some (b, t) := by
  rw [preorder, h]

theorem preorder_enter (h : step id a s = (.enter, b, t)) (depth : Nat) :
    preorder step (depth + 1) id a s = each (preorder step depth) (b.children id) b t := by
  rw [preorder, h]

theorem runStack_skip (h : step id a s = (.skip, b, t)) (bound : Nat) (stack : List NodeId) :
    runStack step (bound + 1) (id :: stack) a s = runStack step bound stack b t := by
  rw [runStack, h]

theorem runStack_enter (h : step id a s = (.enter, b, t)) (bound : Nat) (stack : List NodeId) :
    runStack step (bound + 1) (id :: stack) a s =
      runStack step bound (b.children id ++ stack) b t := by
  rw [runStack, h]

end

theorem preorder_mono {depth depth' : Nat} (hle : depth ≤ depth') (id : NodeId) (a : Arena) (s : σ)
    (r : Arena × σ) (h : preorder step depth id a s = some r) :
    preorder step depth' id a s = some r := by
  induction depth generalizing depth' id a s r with
  | zero => cases h
  | succ depth ih =>
    obtain ⟨depth', rfl⟩ := Nat.exists_eq_add_of_le' (Nat.lt_of_lt_of_le depth.succ_pos hle)
    rcases step_cases step id a s with ⟨b, t, hstep⟩ | ⟨b, t, hstep⟩
    · rw [preorder_skip hstep] at h ⊢
      exact h
    · rw [preorder_enter hstep] at h ⊢
      exact each_mono (ih (Nat.le_of_succ_le_succ hle)) h

/-- Before it comes to what was on the stack, the walk with a stack does what the recursion does. -/
def Unrolls (step : Step σ) (treat : NodeId → Arena → σ → Option (Arena × σ)) : Prop :=
  ∀ id a s b t, treat id a s = some (b, t) → ∃ cost, ∀ bound stack,
    runStack step (bound + cost) (id :: stack) a s = runStack step bound stack b t

theorem Unrolls.each {treat : NodeId → Arena → σ → Option (Arena × σ)} (h : Unrolls step treat)
    {ids : List NodeId} {a b : Arena} {s t : σ} (hr : each treat ids a s = some (b, t)) :
    ∃ cost, ∀ bound stack,
      runStack step (bound + cost) (ids ++ stack) a s = runStack step bound stack b t := by
  induction ids generalizing a s with
  | nil =>
    cases hr
    exact ⟨0, fun _ _ => rfl⟩
  | cons id ids ih =>
    rw [Arena.each] at hr
    split at hr
    · cases hr
    · rename_i c u hid
      obtain ⟨cost, hcost⟩ := h id a s c u hid
      obtain ⟨cost', hcost'⟩ := ih hr
      refine ⟨cost' + cost, fun bound stack => ?_⟩
      rw [← Nat.add_assoc, List.cons_append, hcost, hcost']

theorem unrolls_preorder (step : Step σ) (depth : Nat) : Unrolls step (preorder step depth) := by
  induction depth with
  | zero =>
    intro id a s b t hr
    cases hr
  | succ depth ih =>
    intro id a s b t hr
    rcases step_cases step id a s with ⟨c, u, hstep⟩ | ⟨c, u, hstep⟩
    · rw [preorder_skip hstep] at hr
      cases hr
      exact ⟨1, runStack_skip hstep⟩
    · rw [preorder_enter hstep] at hr
      obtain ⟨cost, hcost⟩ := ih.each hr
      refine ⟨cost + 1, fun bound stack => ?_⟩
      rw [← Nat.add_assoc, runStack_enter hstep, hcost]

theorem exists_walk_of_runStack {bound : Nat} {ids : List NodeId} {a : Arena} {s : σ}
    {r : Arena × σ} (h : runStack step bound ids a s = some r) :
    ∃ depth, walk step depth ids a s = some r := by
  induction bound generalizing ids a s with
  | zero =>
    cases ids with
    | nil => exact ⟨0, h⟩
    | cons id ids => cases h
  | succ bound ih =>
    cases ids with
    | nil => exact ⟨0, h⟩
    | cons id ids =>
      rcases step_cases step id a s with ⟨b, t, hstep⟩ | ⟨b, t, hstep⟩
      · rw [runStack_skip hstep] at h
        obtain ⟨depth, hdepth⟩ := ih h
        refine ⟨depth + 1, ?_⟩
        rw [walk, each, preorder_skip hstep]
        exact each_mono (preorder_mono depth.le_succ) hdepth
      · rw [runStack_enter hstep] at h
        obtain ⟨depth, hdepth⟩ := ih h
        rw [walk, each_append, Option.bind_eq_some_iff] at hdepth
        obtain ⟨⟨c, u⟩, hchildren, hrest⟩ := hdepth
        refine ⟨depth + 1, ?_⟩
        rw [walk, each, preorder_enter hstep, hchildren]
        exact each_mono (preorder_mono depth.le_succ) hrest

theorem exists_runStack_iff (step : Step σ) (ids : List NodeId) (a : Arena) (s : σ)
    (r : Arena × σ) : (∃ bound, runStack step bound ids a s = some r) ↔
      ∃ depth, walk step depth ids a s = some r := by
  constructor
  · rintro ⟨bound, h⟩
    exact exists_walk_of_runStack h
  · rintro ⟨depth, h⟩
    obtain ⟨cost, hcost⟩ := (unrolls_preorder step depth).each h
    refine ⟨0 + cost, ?_⟩
    have hrun := hcost 0 []
    rwa [List.append_nil, runStack] at hrun

/-- A visit of a walk: the node, whether the walk went on below it, and the children it then had. -/
structure Visit where
  id : NodeId
  descent : Descent
  children : List NodeId
  deriving DecidableEq, Repr

namespace Step

def noted (step : Step σ) : Step (σ × List Visit) := fun id a s =>
  match step id a s.1 with
  | (descent, b, t) => (descent, b, t, s.2 ++ [⟨id, descent, b.children id⟩])

def limited (step : Step σ) : Step (σ × Nat) := fun id a s =>
  match s with
  | (s, 0) => (.skip, a, s, 0)
  | (s, left + 1) =>
    match step id a s with
    | (descent, b, t) => (descent, b, t, left)

end Step

/-- The node is one of `ids`, or a child of a node that was entered. -/
def Found (ids : List NodeId) (log : List Visit) (id : NodeId) : Prop :=
  id ∈ ids ∨ ∃ u ∈ log, u.descent = .enter ∧ id ∈ u.children

/-- Every visit is of a node that the visits before it had found. -/
def Justified (ids : List NodeId) (log : List Visit) : Prop :=
  ∀ before v after, log = before ++ v :: after → Found ids before v.id

theorem Found.append {ids : List NodeId} {log : List Visit} {id : NodeId} (h : Found ids log id)
    (v : Visit) : Found ids (log ++ [v]) id := by
  refine h.imp_right ?_
  rintro ⟨u, hu, hid⟩
  exact ⟨u, List.mem_append_left _ hu, hid⟩

theorem Justified.append {ids : List NodeId} {log : List Visit} {v : Visit} (h : Justified ids log)
    (hv : Found ids log v.id) : Justified ids (log ++ [v]) := by
  intro before w after he
  rcases List.eq_nil_or_concat after with rfl | ⟨after, x, rfl⟩
  · obtain ⟨rfl, hw⟩ := List.append_inj' he rfl
    obtain rfl := List.singleton_inj.mp hw
    exact hv
  · rw [List.concat_eq_append, ← List.cons_append, ← List.append_assoc] at he
    exact h before w after (List.append_inj' he rfl).1

theorem noted_eq {id : NodeId} {a b : Arena} {s r : σ × List Visit} {descent : Descent}
    (h : step.noted id a s = (descent, b, r)) :
    ∃ t, step id a s.1 = (descent, b, t) ∧ r = (t, s.2 ++ [⟨id, descent, b.children id⟩]) := by
  rcases hstep : step id a s.1 with ⟨d, c, t⟩
  simp only [Step.noted, hstep] at h
  cases h
  exact ⟨t, rfl, rfl⟩

theorem limited_succ {id : NodeId} {a b : Arena} {s t : σ} {descent : Descent}
    (h : step id a s = (descent, b, t)) (left : Nat) :
    step.limited id a (s, left + 1) = (descent, b, t, left) := by
  simp only [Step.limited, h]

theorem limited_cases {id : NodeId} {a b : Arena} {s r : σ × Nat} {descent : Descent}
    (h : step.limited id a s = (descent, b, r)) :
    (descent = .skip ∧ b = a ∧ r = s ∧ s.2 = 0) ∨
      step id a s.1 = (descent, b, r.1) ∧ s.2 = r.2 + 1 := by
  obtain ⟨s, left⟩ := s
  cases left with
  | zero =>
    cases h
    exact Or.inl ⟨rfl, rfl, rfl, rfl⟩
  | succ left =>
    rcases hstep : step id a s with ⟨d, c, t⟩
    rw [limited_succ hstep] at h
    obtain ⟨rfl, rfl, rfl⟩ : d = descent ∧ c = b ∧ (t, left) = r := by simpa using h
    exact Or.inr ⟨rfl, rfl⟩

structure Keeps (step : Step σ) (P : List NodeId → Arena → σ → Prop) : Prop where
  skip : ∀ {id stack a s b t}, step id a s = (.skip, b, t) → P (id :: stack) a s → P stack b t
  enter : ∀ {id stack a s b t}, step id a s = (.enter, b, t) → P (id :: stack) a s →
    P (b.children id ++ stack) b t

theorem Keeps.runStack {P : List NodeId → Arena → σ → Prop} (hP : Keeps step P) {bound : Nat}
    {stack : List NodeId} {a b : Arena} {s t : σ} (h : P stack a s)
    (hr : runStack step bound stack a s = some (b, t)) : P [] b t := by
  induction bound generalizing stack a s with
  | zero =>
    cases stack with
    | nil =>
      cases hr
      exact h
    | cons id stack => cases hr
  | succ bound ih =>
    cases stack with
    | nil =>
      cases hr
      exact h
    | cons id stack =>
      rcases step_cases step id a s with ⟨c, u, hstep⟩ | ⟨c, u, hstep⟩
      · rw [runStack_skip hstep] at hr
        exact ih (hP.skip hstep h) hr
      · rw [runStack_enter hstep] at hr
        exact ih (hP.enter hstep h) hr

/-- The visits are justified, and so will be those that the stack still asks for. -/
structure OnWay (ids : List NodeId) (stack : List NodeId) (log : List Visit) : Prop where
  justified : Justified ids log
  found : ∀ id ∈ stack, Found ids log id

namespace OnWay

variable {ids stack : List NodeId} {id : NodeId} {log : List Visit}

theorem start (ids : List NodeId) : OnWay ids ids [] where
  justified before v after he := by simp at he
  found _ hid := Or.inl hid

theorem drop (h : OnWay ids (id :: stack) log) : OnWay ids stack log where
  justified := h.justified
  found x hx := h.found x (List.mem_cons_of_mem _ hx)

theorem skip (h : OnWay ids (id :: stack) log) (descent : Descent) (children : List NodeId) :
    OnWay ids stack (log ++ [⟨id, descent, children⟩]) where
  justified := h.justified.append (h.found id List.mem_cons_self)
  found x hx := (h.found x (List.mem_cons_of_mem _ hx)).append _

theorem enter (h : OnWay ids (id :: stack) log) (children : List NodeId) :
    OnWay ids (children ++ stack) (log ++ [⟨id, .enter, children⟩]) where
  justified := (h.skip .enter children).justified
  found x hx := by
    rcases List.mem_append.mp hx with hx | hx
    · exact Or.inr ⟨_, List.mem_append_right _ List.mem_cons_self, rfl, hx⟩
    · exact (h.skip .enter children).found x hx

end OnWay

theorem keeps_onWay (step : Step σ) (ids : List NodeId) :
    Keeps step.noted fun stack _ s => OnWay ids stack s.2 where
  skip hstep h := by
    obtain ⟨t, -, rfl⟩ := noted_eq hstep
    exact h.skip _ _
  enter hstep h := by
    obtain ⟨t, -, rfl⟩ := noted_eq hstep
    exact h.enter _

theorem Keeps.limited {P : List NodeId → Arena → σ → Prop} (hP : Keeps step P)
    (hdrop : ∀ {id stack a s}, P (id :: stack) a s → P stack a s) :
    Keeps step.limited fun stack a s => P stack a s.1 where
  skip hstep h := by
    rcases limited_cases hstep with ⟨-, rfl, rfl, -⟩ | ⟨hstep, -⟩
    · exact hdrop h
    · exact hP.skip hstep h
  enter hstep h := by
    rcases limited_cases hstep with ⟨he, -⟩ | ⟨hstep, -⟩
    · cases he
    · exact hP.enter hstep h

theorem keeps_left (step : Step σ) (n : Nat) : Keeps step.limited fun _ _ s => s.2 ≤ n where
  skip hstep h := by
    rcases limited_cases hstep with ⟨-, -, rfl, -⟩ | ⟨-, hleft⟩ <;> omega
  enter hstep h := by
    rcases limited_cases hstep with ⟨-, -, rfl, -⟩ | ⟨-, hleft⟩ <;> omega

theorem keeps_length (step : Step σ) (n : Nat) :
    Keeps step.noted.limited fun _ _ s => s.1.2.length + s.2 = n where
  skip hstep h := by
    rcases limited_cases hstep with ⟨-, -, rfl, -⟩ | ⟨hstep, hleft⟩
    · exact h
    · obtain ⟨t, -, ht⟩ := noted_eq hstep
      rw [ht, List.length_append, List.length_singleton]
      omega
  enter hstep h := by
    rcases limited_cases hstep with ⟨-, -, rfl, -⟩ | ⟨hstep, hleft⟩
    · exact h
    · obtain ⟨t, -, ht⟩ := noted_eq hstep
      rw [ht, List.length_append, List.length_singleton]
      omega

theorem runStack_of_noted {bound : Nat} {stack : List NodeId} {a b : Arena} {s t : σ × List Visit}
    (h : runStack step.noted bound stack a s = some (b, t)) :
    runStack step bound stack a s.1 = some (b, t.1) := by
  induction bound generalizing stack a s with
  | zero =>
    cases stack with
    | nil =>
      cases h
      rfl
    | cons id stack => cases h
  | succ bound ih =>
    cases stack with
    | nil =>
      cases h
      rfl
    | cons id stack =>
      rcases step_cases step.noted id a s with ⟨c, u, hstep⟩ | ⟨c, u, hstep⟩ <;>
        obtain ⟨u, hplain, rfl⟩ := noted_eq hstep
      · rw [runStack_skip hstep] at h
        rw [runStack_skip hplain]
        exact ih h
      · rw [runStack_enter hstep] at h
        rw [runStack_enter hplain]
        exact ih h

theorem runStack_of_limited {bound left : Nat} {stack : List NodeId} {a b : Arena} {s : σ × Nat}
    {t : σ} (h : runStack step.limited bound stack a s = some (b, t, left)) (hleft : 0 < left) :
    runStack step bound stack a s.1 = some (b, t) := by
  induction bound generalizing stack a s with
  | zero =>
    cases stack with
    | nil =>
      cases h
      rfl
    | cons id stack => cases h
  | succ bound ih =>
    cases stack with
    | nil =>
      cases h
      rfl
    | cons id stack =>
      have hbound := (keeps_left step s.2).runStack (Nat.le_refl _) h
      rcases step_cases step.limited id a s with ⟨c, u, hstep⟩ | ⟨c, u, hstep⟩ <;>
        rcases limited_cases hstep with ⟨he, -, -, hzero⟩ | ⟨hplain, -⟩
      · omega
      · rw [runStack_skip hstep] at h
        rw [runStack_skip hplain]
        exact ih h
      · cases he
      · rw [runStack_enter hstep] at h
        rw [runStack_enter hplain]
        exact ih h

/-- Treating a node with some visits left comes to an end and leaves no more of them. -/
def Ends (treat : NodeId → Arena → σ × Nat → Option (Arena × σ × Nat)) (left : Nat) : Prop :=
  ∀ id a s, ∃ b t left', treat id a (s, left) = some (b, t, left') ∧ left' ≤ left

theorem exists_each_of_ends {treat : NodeId → Arena → σ × Nat → Option (Arena × σ × Nat)}
    {left : Nat} (h : ∀ m ≤ left, Ends treat m) (ids : List NodeId) (a : Arena) (s : σ) :
    ∃ b t left', each treat ids a (s, left) = some (b, t, left') ∧ left' ≤ left := by
  induction ids generalizing left a s with
  | nil => exact ⟨a, s, left, rfl, Nat.le_refl _⟩
  | cons id ids ih =>
    obtain ⟨b, t, m, hid, hm⟩ := h left (Nat.le_refl _) id a s
    obtain ⟨c, u, m', hids, hm'⟩ := ih (fun k hk => h k (Nat.le_trans hk hm)) b t
    refine ⟨c, u, m', ?_, Nat.le_trans hm' hm⟩
    rw [each, hid]
    exact hids

theorem ends_preorder_limited (step : Step σ) (depth left : Nat) (hlt : left < depth) :
    Ends (preorder step.limited depth) left := by
  induction depth generalizing left with
  | zero => exact absurd hlt (Nat.not_lt_zero _)
  | succ depth ih =>
    intro id a s
    rcases step_cases step.limited id a (s, left) with ⟨b, ⟨t, m⟩, hstep⟩ | ⟨b, ⟨t, m⟩, hstep⟩
    · refine ⟨b, t, m, preorder_skip hstep depth, ?_⟩
      rcases limited_cases hstep with ⟨-, -, hr, -⟩ | ⟨-, hleft⟩
      · cases hr
        exact Nat.le_refl _
      · exact Nat.le_of_lt (Nat.lt_of_succ_le (Nat.le_of_eq hleft.symm))
    · rcases limited_cases hstep with ⟨he, -⟩ | ⟨-, hleft⟩
      · cases he
      · obtain rfl : left = m + 1 := hleft
        have hends : ∀ k ≤ m, Ends (preorder step.limited depth) k := fun k hk => ih k (by omega)
        obtain ⟨c, u, m', hc, hm'⟩ := exists_each_of_ends hends (b.children id) b t
        refine ⟨c, u, m', ?_, Nat.le_succ_of_le hm'⟩
        rw [preorder_enter hstep]
        exact hc

/-- The nodes of the trees are visited in order, down to those that are not entered. -/
structure Covers (ts : List (Tree NodeId)) (log : List Visit) : Prop where
  sublist : (log.map Visit.id).Sublist (ts.flatMap Tree.labels)
  walk : ∀ enter : NodeId → Bool, (∀ v ∈ log, enter v.id ↔ v.descent = .enter) →
    log.map Visit.id = ts.flatMap (Tree.walk enter)

namespace Covers

variable {t : Tree NodeId} {ts : List (Tree NodeId)} {log log' : List Visit}

theorem nil : Covers [] [] := ⟨.slnil, fun _ _ => rfl⟩

theorem cons (h : Covers [t] log) (h' : Covers ts log') : Covers (t :: ts) (log ++ log') where
  sublist := by
    have ht := h.sublist
    rw [List.flatMap_singleton] at ht
    rw [List.map_append, List.flatMap_cons]
    exact ht.append h'.sublist
  walk enter henter := by
    have ht := h.walk enter fun v hv => henter v (List.mem_append_left _ hv)
    rw [List.flatMap_singleton] at ht
    rw [List.map_append, List.flatMap_cons, ht,
      h'.walk enter fun v hv => henter v (List.mem_append_right _ hv)]

theorem skip (x : NodeId) (ts : List (Tree NodeId)) (children : List NodeId) :
    Covers [.node x ts] [⟨x, .skip, children⟩] where
  sublist := by simp
  walk enter henter := by
    have hx := henter ⟨x, .skip, children⟩ List.mem_cons_self
    simp only [reduceCtorEq, iff_false] at hx
    rw [List.flatMap_singleton, Tree.walk_node, if_neg hx]
    rfl

theorem enter (x : NodeId) (h : Covers ts log) (children : List NodeId) :
    Covers [.node x ts] (⟨x, .enter, children⟩ :: log) where
  sublist := by
    rw [List.map_cons, List.flatMap_singleton, Tree.labels_node]
    exact h.sublist.cons_cons x
  walk enter henter := by
    have hx := (henter ⟨x, .enter, children⟩ List.mem_cons_self).mpr rfl
    rw [List.flatMap_singleton, Tree.walk_node, if_pos hx, List.map_cons,
      h.walk enter fun v hv => henter v (List.mem_cons_of_mem _ hv)]

end Covers

theorem each_covers {treat : NodeId → Arena → σ × List Visit → Option (Arena × σ × List Visit)}
    {a : Arena} {ts : List (Tree NodeId)} (ih : ∀ t ∈ ts, ∀ s log, ∃ u new,
      treat t.label a (s, log) = some (a, u, log ++ new) ∧ Covers [t] new)
    (s : σ) (log : List Visit) : ∃ u new,
      each treat (ts.map Tree.label) a (s, log) = some (a, u, log ++ new) ∧ Covers ts new := by
  induction ts generalizing s log with
  | nil => exact ⟨s, [], by rw [List.append_nil]; rfl, .nil⟩
  | cons t ts iht =>
    obtain ⟨u, new, ht, hcovers⟩ := ih t List.mem_cons_self s log
    obtain ⟨w, new', hts, hcovers'⟩ :=
      iht (fun t ht => ih t (List.mem_cons_of_mem _ ht)) u (log ++ new)
    refine ⟨w, new ++ new', ?_, hcovers.cons hcovers'⟩
    rw [List.map_cons, each, ht, ← List.append_assoc]
    exact hts

theorem preorder_covers {a : Arena} (hstep : ∀ id s, (step id a s).2.1 = a) (t : Tree NodeId)
    (h : a.Holds t) {depth : Nat} (hdepth : t.labels.length ≤ depth) (s : σ) (log : List Visit) :
    ∃ u new, preorder step.noted depth t.label a (s, log) = some (a, u, log ++ new) ∧
      Covers [t] new := by
  induction t generalizing depth s log with
  | node x ts ih =>
    obtain ⟨⟨n, hn, hchildren⟩, hts⟩ := holds_node.mp h
    have hpos := Tree.length_labels_pos (.node x ts)
    obtain ⟨depth, rfl⟩ := Nat.exists_eq_add_of_le' (Nat.lt_of_lt_of_le hpos hdepth)
    rw [Tree.labels_node, List.length_cons] at hdepth
    have hkept : ∀ descent b t, step x a s = (descent, b, t) → b = a := fun descent b t he => by
      rw [← hstep x s, he]
    rcases step_cases step.noted x a (s, log) with ⟨b, r, hr⟩ | ⟨b, r, hr⟩ <;>
      obtain ⟨t, he, rfl⟩ := noted_eq hr <;> obtain rfl := hkept _ _ _ he
    · exact ⟨t, _, preorder_skip hr depth, .skip x ts _⟩
    · have hle : ∀ t ∈ ts, t.labels.length ≤ depth := fun t ht =>
        Nat.le_trans (Tree.length_labels_le ht) (Nat.le_of_succ_le_succ hdepth)
      have htrees := each_covers fun t ht => ih t ht (hts t ht) (hle t ht)
      obtain ⟨u, new, hnew, hcovers⟩ := htrees t (log ++ [⟨x, .enter, b.children x⟩])
      refine ⟨u, _, ?_, hcovers.enter x (b.children x)⟩
      have hlabels : b.children x = ts.map Tree.label := by rw [children_eq hn, hchildren]
      rw [Tree.label_node, preorder_enter hr]
      simpa only [hlabels, List.append_assoc, List.singleton_append] using hnew

def entered (log : List Visit) (id : NodeId) : Bool :=
  decide (∀ v ∈ log, v.id = id → v.descent = .enter)

theorem Covers.map_id_eq {ts : List (Tree NodeId)} {log : List Visit} (h : Covers ts log)
    (hn : (ts.flatMap Tree.labels).Nodup) :
    (log.map Visit.id).Nodup ∧ log.map Visit.id = ts.flatMap (Tree.walk (entered log)) := by
  have hids : (log.map Visit.id).Nodup := h.sublist.nodup hn
  refine ⟨hids, h.walk (entered log) fun v hv => ?_⟩
  rw [entered, decide_eq_true_eq]
  constructor
  · exact fun hall => hall v hv rfl
  · intro hv' u hu hid
    rwa [List.inj_on_of_nodup_map hids hu hv hid]

/-- The walk with a stack ends if and only if the recursive one does, in the same arena and with the
same state. However long they are, both begin with the same visits, all of them of nodes that were
asked for or found below an entered node. If nothing changes in a forest, all nodes are visited
once and in order, except those below a node at which the walk stopped. -/
theorem runStack_agrees (step : Step σ) (ids : List NodeId) (a : Arena) (s : σ) :
    (∀ r, (∃ bound, runStack step bound ids a s = some r) ↔
      ∃ depth, walk step depth ids a s = some r) ∧
    (∀ n, ∃ b t log left,
      (∃ bound, runStack step.noted.limited bound ids a ((s, []), n) = some (b, (t, log), left)) ∧
      (∃ depth, walk step.noted.limited depth ids a ((s, []), n) = some (b, (t, log), left)) ∧
      log.length + left = n ∧
      (0 < left → ∃ bound, runStack step bound ids a s = some (b, t)) ∧ Justified ids log) ∧
    (∀ ts : List (Tree NodeId), ids = ts.map Tree.label → (∀ t ∈ ts, a.Holds t) →
      (ts.flatMap Tree.labels).Nodup → (∀ id s, (step id a s).2.1 = a) → ∃ t log,
        (∃ bound, runStack step.noted bound ids a (s, []) = some (a, t, log)) ∧
        (log.map Visit.id).Nodup ∧
        log.map (fun v => some v.id) = ((Tree.placesAmong ts).filter
          (Tree.Entered (entered log) (Tree.among? ts))).map (Tree.among? ts)) := by
  refine ⟨exists_runStack_iff step ids a s, fun n => ?_, ?_⟩
  · obtain ⟨b, ⟨t, log⟩, left, hwalk, -⟩ := exists_each_of_ends
      (fun m hm => ends_preorder_limited step.noted (n + 1) m (Nat.lt_succ_of_le hm)) ids a (s, [])
    obtain ⟨bound, hrun⟩ := (exists_runStack_iff _ _ _ _ _).mpr ⟨n + 1, hwalk⟩
    have hway : OnWay ids [] log :=
      ((keeps_onWay step ids).limited fun h => h.drop).runStack (OnWay.start ids) hrun
    have hlength := (keeps_length step n).runStack (s := ((s, []), n)) (Nat.zero_add n) hrun
    refine ⟨b, t, log, left, ⟨bound, hrun⟩, ⟨n + 1, hwalk⟩, hlength, fun hleft => ?_,
      hway.justified⟩
    exact ⟨bound, runStack_of_noted (runStack_of_limited hrun hleft)⟩
  · rintro ts rfl hholds hnodup hstep
    obtain ⟨t, log, hwalk, hcovers⟩ := each_covers
      (fun t ht => preorder_covers hstep t (hholds t ht) (Tree.length_labels_le ht)) s []
    rw [List.nil_append] at hwalk
    obtain ⟨hids, heq⟩ := hcovers.map_id_eq hnodup
    refine ⟨t, log, (exists_runStack_iff _ _ _ _ _).mpr ⟨_, hwalk⟩, hids, ?_⟩
    rw [← Tree.walkAmong_eq, ← heq, List.map_map]
    rfl

def forestArena : Arena :=
  ⟨#[⟨.variable "a", none, .source⟩, ⟨.variable "b", none, .source⟩, ⟨.other [0, 1], none, .source⟩,
    ⟨.variable "c", none, .source⟩]⟩

def forestTrees : List (Tree NodeId) := [.node 2 [.node 0 [], .node 1 []], .node 3 []]

def stopAtFirst : Step Nat := fun _ a count => (if count = 0 then .skip else .enter, a, count + 1)

theorem holds_forestTrees : ∀ t ∈ forestTrees, forestArena.Holds t := by
  simp [forestTrees, holds_node, forestArena, node?, Shape.children]

theorem runStack_agrees_stopping : (forestTrees.flatMap Tree.labels).Nodup ∧ ∃ t log,
    (∃ bound, runStack stopAtFirst.noted bound [2, 3] forestArena (0, []) =
      some (forestArena, t, log)) ∧
    log.map (fun v => some v.id) = ((Tree.placesAmong forestTrees).filter
      (Tree.Entered (entered log) (Tree.among? forestTrees))).map (Tree.among? forestTrees) := by
  have hnodup : (forestTrees.flatMap Tree.labels).Nodup := by simp [forestTrees]
  obtain ⟨t, log, hrun, -, heq⟩ := (runStack_agrees stopAtFirst [2, 3] forestArena 0).2.2
    forestTrees rfl holds_forestTrees hnodup fun _ _ => rfl
  exact ⟨hnodup, t, log, hrun, heq⟩

end FactoryLint.Arena
