import FactoryLint.Proofs.Arena.Term
import FactoryLint.Rewrite.Site

namespace FactoryLint

/-- A node that is not entered: one that was built, or a string. -/
def Label.isClosed (ℓ : Label) : Bool :=
  match ℓ.origin, ℓ.kind with
  | .built _, _ => true
  | .source, .interpolated => true
  | .source, _ => false

namespace Rewrite

variable {α β : Type}

/-- A tree that reads the member of the instance. `view` says what the labels mean. -/
def readsMember (s : Settings) (view : α → Label) : Tree α → Bool
  | .node x [.node y []] =>
    match (view x).kind with
    | .property (some name) =>
      SameName name s.memberName && (view y).kind == .variable s.selfReference
    | _ => false
  | _ => false

theorem readsMember_of_kind_ne {s : Settings} {view : α → Label} {x : α}
    (h : ∀ name, (view x).kind ≠ .property (some name)) (ts : List (Tree α)) :
    readsMember s view (.node x ts) = false := by
  unfold readsMember
  split
  · split <;> simp_all
  · rfl

/-- A property of the member, or a call on it that the settings do not exclude. -/
def isSite (s : Settings) (view : α → Label) : Tree α → Bool
  | .node x (object :: _) =>
    match (view x).kind with
    | .property _ => readsMember s view object
    | .methodCall name => !name.any (s.Excludes ·) && readsMember s view object
    | _ => false
  | _ => false

def sites (s : Settings) (view : α → Label) : Tree α → List (Tree α)
  | .node x ts =>
    if (view x).isClosed then []
    else (if isSite s view (.node x ts) then [.node x ts] else []) ++
      ts.flatMap fun t => sites s view t

def helperCall (s : Settings) (object : Term) : Term :=
  .node ⟨.functionCall (some s.helperFunction), none, .built object.label.span⟩ []

/-- The term with the object of every site replaced. -/
def rewrite (s : Settings) : Term → Term
  | .node ℓ [] => .node ℓ []
  | .node ℓ (object :: rest) =>
    if ℓ.isClosed then .node ℓ (object :: rest)
    else if isSite s id (.node ℓ (object :: rest)) then
      .node ℓ (helperCall s object :: rest.map fun t => rewrite s t)
    else .node ℓ (rewrite s object :: rest.map fun t => rewrite s t)

variable {s : Settings}

theorem sites_node (view : α → Label) (x : α) (ts : List (Tree α)) :
    sites s view (.node x ts) = if (view x).isClosed then []
      else (if isSite s view (.node x ts) then [.node x ts] else []) ++
        ts.flatMap (sites s view) := by
  rw [sites]

theorem sites_of_isClosed {view : α → Label} {x : α} (h : (view x).isClosed)
    (ts : List (Tree α)) : sites s view (.node x ts) = [] := by
  rw [sites_node, if_pos h]

theorem rewrite_of_isClosed {ℓ : Label} (h : ℓ.isClosed) (ts : List Term) :
    rewrite s (.node ℓ ts) = .node ℓ ts := by
  cases ts with
  | nil => rw [rewrite]
  | cons t ts => rw [rewrite, if_pos h]

theorem rewrite_of_isSite {ℓ : Label} {object : Term} {rest : List Term} (hℓ : ¬ℓ.isClosed)
    (h : isSite s id (.node ℓ (object :: rest))) : rewrite s (.node ℓ (object :: rest)) =
      .node ℓ (helperCall s object :: rest.map (rewrite s)) := by
  rw [rewrite, if_neg hℓ, if_pos h]

theorem rewrite_of_not_isSite {ℓ : Label} {ts : List Term} (hℓ : ¬ℓ.isClosed)
    (h : ¬isSite s id (.node ℓ ts)) : rewrite s (.node ℓ ts) = .node ℓ (ts.map (rewrite s)) := by
  cases ts with
  | nil => rw [rewrite, List.map_nil]
  | cons t ts => rw [rewrite, if_neg hℓ, if_neg h, List.map_cons]

@[simp] theorem label_rewrite (t : Term) : (rewrite s t).label = t.label := by
  cases t with
  | node ℓ ts =>
    cases ts with
    | nil => rw [rewrite]
    | cons t ts =>
      rw [rewrite]
      split_ifs <;> rfl

theorem readsMember_map (f : α → β) (view : β → Label) (t : Tree α) :
    readsMember s view (t.map f) = readsMember s (view ∘ f) t := by
  rcases t with ⟨x, _ | ⟨⟨y, _ | ⟨_, _⟩⟩, _ | ⟨_, _⟩⟩⟩ <;> simp [readsMember]

theorem isSite_map (f : α → β) (view : β → Label) (t : Tree α) :
    isSite s view (t.map f) = isSite s (view ∘ f) t := by
  rcases t with ⟨x, _ | ⟨t, ts⟩⟩ <;> simp [isSite, readsMember_map]

theorem sites_map (f : α → β) (view : β → Label) (t : Tree α) :
    sites s view (t.map f) = (sites s (view ∘ f) t).map (Tree.map f) := by
  induction t with
  | node x ts ih =>
    have hts : (ts.map (Tree.map f)).flatMap (sites s view) =
        (ts.flatMap (sites s (view ∘ f))).map (Tree.map f) := by
      rw [List.flatMap_map, List.map_flatMap]
      exact List.flatMap_congr ih
    have hsite := isSite_map (s := s) f view (.node x ts)
    rw [Tree.map_node] at hsite
    rw [Tree.map_node, sites_node, sites_node, hts, hsite, Function.comp_apply]
    split_ifs <;> simp

theorem exists_of_readsMember {view : α → Label} {t : Tree α} (h : readsMember s view t) :
    ∃ x y name, t = .node x [.node y []] ∧ (view x).kind = .property (some name) ∧
      SameName name s.memberName ∧ (view y).kind = .variable s.selfReference := by
  unfold readsMember at h
  split at h
  · rename_i x y
    split at h
    · rename_i name hk
      rw [Bool.and_eq_true, decide_eq_true_eq, beq_iff_eq] at h
      exact ⟨x, y, name, rfl, hk, h⟩
    · cases h
  · cases h

theorem readsMember_of_isSite {view : α → Label} {x : α} {object : Tree α} {rest : List (Tree α)}
    (h : isSite s view (.node x (object :: rest))) : readsMember s view object := by
  rw [isSite] at h
  split at h
  · exact h
  · exact ((Bool.and_eq_true _ _).mp h).2
  · cases h

theorem sites_of_readsMember {view : α → Label} {t : Tree α} (h : readsMember s view t) :
    sites s view t = [] := by
  obtain ⟨x, y, name, rfl, hx, -, -⟩ := exists_of_readsMember h
  simp [sites_node, isSite, hx, readsMember]

theorem isSite_congr {f g : α → Label} {t : Tree α} (h : ∀ x ∈ t.labels, f x = g x) :
    isSite s f t = isSite s g t := by
  have hf := isSite_map (s := s) f id t
  have hg := isSite_map (s := s) g id t
  rw [Tree.map_congr h] at hf
  exact hf.symm.trans hg

theorem sites_congr {f g : α → Label} {t : Tree α} (h : ∀ x ∈ t.labels, f x = g x) :
    sites s f t = sites s g t := by
  induction t with
  | node x ts ih =>
    have hts : ts.flatMap (sites s f) = ts.flatMap (sites s g) := by
      refine List.flatMap_congr fun t ht => ih t ht fun y hy => h y ?_
      rw [Tree.labels_node, List.mem_cons, List.mem_flatMap]
      exact Or.inr ⟨t, ht, hy⟩
    rw [sites_node, sites_node, hts, h x (by simp), isSite_congr h]

theorem label_mem_of_mem_sites {view : α → Label} {t u : Tree α} (h : u ∈ sites s view t) :
    u.label ∈ t.labels := by
  induction t with
  | node x ts ih =>
    rw [sites_node] at h
    split_ifs at h with hc hs
    · cases h
    · rcases List.mem_append.mp h with hu | hu
      · rw [List.mem_singleton.mp hu]
        exact Tree.label_mem_labels _
      · obtain ⟨t, ht, hu⟩ := List.mem_flatMap.mp hu
        rw [Tree.labels_node, List.mem_cons, List.mem_flatMap]
        exact Or.inr ⟨t, ht, ih t ht hu⟩
    · obtain ⟨t, ht, hu⟩ := List.mem_flatMap.mp (by simpa using h)
      rw [Tree.labels_node, List.mem_cons, List.mem_flatMap]
      exact Or.inr ⟨t, ht, ih t ht hu⟩

end Rewrite

end FactoryLint
