import FactoryLint.Proofs.Arena.Acyclic
import FactoryLint.Proofs.Rewrite.Visit

namespace FactoryLint.Rewrite

open Relation (ReflTransGen)

variable {s : Settings} {a b c : Arena} {id object j : NodeId} {n : Node}

/-- A node of the source at which the rewriting replaces `object`. -/
structure SiteAt (s : Settings) (a : Arena) (id object : NodeId) : Prop where
  user : ∃ n, a.node? id = some n ∧ n.isBuilt = false ∧
    ((∃ name, n.shape = .property object name) ∨
      ∃ name arguments, n.shape = .methodCall object name arguments ∧
        name.any (s.Excludes ·) = false)
  member : isMember s a object

def Settled (s : Settings) (a : Arena) (id : NodeId) : Prop := ∀ object, ¬SiteAt s a id object

def descent (a : Arena) (id : NodeId) : Arena.Descent :=
  match a.node? id with
  | none => .skip
  | some n =>
    if n.isBuilt then .skip
    else
      match n.shape with
      | .interpolated _ => .skip
      | _ => .enter

/-- One replacement. -/
def Fills (s : Settings) (a b : Arena) : Prop :=
  ∃ id object, SiteAt s a id object ∧ Swapped s a b id object

abbrev Filled (s : Settings) : Arena → Arena → Prop := ReflTransGen (Fills s)

theorem isMember_iff : isMember s a id ↔ ∃ n object name m, a.node? id = some n ∧
    n.shape = .property object (some name) ∧ SameName name s.memberName ∧
    a.node? object = some m ∧ m.shape = .variable s.selfReference := by
  rw [isMember, Arena.shape?]
  constructor
  · intro h
    cases hn : a.node? id with
    | none => simp [hn] at h
    | some n =>
      cases hs : n.shape with
      | property object name =>
        cases name with
        | none => simp [hn, hs] at h
        | some name =>
          simp only [hn, hs, Option.map_some, Bool.and_eq_true, decide_eq_true_eq, beq_iff_eq,
            Arena.shape?, Option.map_eq_some_iff] at h
          obtain ⟨hname, m, hm, hv⟩ := h
          exact ⟨n, object, name, m, rfl, hs, hname, hm, hv⟩
      | _ => simp [hn, hs] at h
  · rintro ⟨n, object, name, m, hn, hs, hname, hm, hv⟩
    simp [hn, hs, hname, hm, hv, Arena.shape?]

theorem SiteAt.object_lt (h : SiteAt s a id object) : object < a.size := by
  obtain ⟨n, _, _, _, hn, -⟩ := isMember_iff.mp h.member
  exact Arena.lt_size_of_node? hn

theorem SiteAt.id_lt (h : SiteAt s a id object) : id < a.size := by
  obtain ⟨n, hn, -⟩ := h.user
  exact Arena.lt_size_of_node? hn

theorem SiteAt.shape_ne_variable (h : SiteAt s a id object) (hn : a.node? id = some n)
    (name : String) : n.shape.kind ≠ .variable name := by
  obtain ⟨m, hm, -, hs⟩ := h.user
  obtain rfl : n = m := Option.some.inj (hn.symm.trans hm)
  rcases hs with ⟨_, hs⟩ | ⟨_, _, hs, -⟩ <;> simp [hs]

theorem SiteAt.children (h : SiteAt s a id object) : ∃ n rest, a.node? id = some n ∧
    n.isBuilt = false ∧ n.shape.children = object :: rest := by
  obtain ⟨n, hn, hb, ⟨_, hs⟩ | ⟨_, arguments, hs, -⟩⟩ := h.user
  · exact ⟨n, [], hn, hb, by rw [hs]; rfl⟩
  · exact ⟨n, arguments, hn, hb, by rw [hs]; rfl⟩

theorem Swapped.node?_call (h : Swapped s a b id object) (hj : a.size ≤ j)
    (hn : b.node? j = some n) : n.isBuilt ∧ n.shape = .call s.helperFunction [] := by
  have hlt := Arena.lt_size_of_node? hn
  rw [h.size] at hlt
  obtain rfl : j = a.size := Nat.le_antisymm (Nat.le_of_lt_succ hlt) hj
  rw [h.call] at hn
  obtain rfl := Option.some.inj hn
  exact ⟨rfl, rfl⟩

theorem Swapped.node?_variable (h : Swapped s a b id object) (hsite : SiteAt s a id object)
    (name : String) : (∃ n, b.node? j = some n ∧ n.shape = .variable name) ↔
      ∃ n, a.node? j = some n ∧ n.shape = .variable name := by
  have hkind : ∀ n : Node, n.shape = .variable name → n.shape.kind = .variable name := by
    intro n hs
    rw [hs]
    rfl
  by_cases hj : j < a.size
  · by_cases hid : j = id
    · subst hid
      obtain ⟨n, shape, hna, hnb, hk, -⟩ := h.parent
      have hne := hsite.shape_ne_variable hna name
      constructor
      · rintro ⟨m, hm, hs⟩
        obtain rfl := Option.some.inj (hnb.symm.trans hm)
        exact absurd (hk.symm.trans (hkind _ hs)) hne
      · rintro ⟨m, hm, hs⟩
        obtain rfl := Option.some.inj (hna.symm.trans hm)
        exact absurd (hkind _ hs) hne
    · rw [h.kept j hj hid]
  · constructor
    · rintro ⟨m, hm, hs⟩
      rw [(h.node?_call (Nat.le_of_not_lt hj) hm).2] at hs
      cases hs
    · rintro ⟨m, hm, -⟩
      exact absurd (Arena.lt_size_of_node? hm) hj

theorem Swapped.isMember_iff (h : Swapped s a b id object) (hsite : SiteAt s a id object) :
    isMember s b j ↔ isMember s a j := by
  have hvariable : ∀ {i : NodeId}, (∃ n, b.node? i = some n ∧ n.shape = .variable s.selfReference) ↔
      ∃ n, a.node? i = some n ∧ n.shape = .variable s.selfReference :=
    h.node?_variable hsite s.selfReference
  rw [Rewrite.isMember_iff, Rewrite.isMember_iff]
  constructor
  · rintro ⟨n, o, name, m, hn, hs, hname, hm⟩
    by_cases hj : j < a.size
    · by_cases hid : j = id
      · -- The object is the call now, and no variable.
        subst hid
        obtain ⟨n', shape, -, hnb, -, hc⟩ := h.parent
        obtain rfl := Option.some.inj (hnb.symm.trans hn)
        obtain rfl : shape = _ := hs
        obtain rfl := (List.cons.inj hc).1
        have hcall := h.node?_call (Nat.le_refl _) hm.1
        rw [hcall.2] at hm
        cases hm.2
      · obtain ⟨m, hm⟩ := hvariable.mp ⟨m, hm⟩
        exact ⟨n, o, name, m, (h.kept j hj hid).symm.trans hn, hs, hname, hm⟩
    · rw [(h.node?_call (Nat.le_of_not_lt hj) hn).2] at hs
      cases hs
  · rintro ⟨n, o, name, m, hn, hs, hname, hm⟩
    have hid : j ≠ id := by
      -- The object of the site is a property, and no variable.
      rintro rfl
      obtain ⟨n', hn', -, hs'⟩ := hsite.user
      obtain rfl := Option.some.inj (hn.symm.trans hn')
      obtain ⟨m', _, _, _, hm', hp, -⟩ := Rewrite.isMember_iff.mp hsite.member
      rcases hs' with ⟨_, hs'⟩ | ⟨_, _, hs', -⟩
      · obtain ⟨rfl, -⟩ := Shape.property.inj (hs.symm.trans hs')
        obtain rfl := Option.some.inj (hm.1.symm.trans hm')
        rw [hm.2] at hp
        cases hp
      · rw [hs] at hs'
        cases hs'
    obtain ⟨m, hm⟩ := hvariable.mpr ⟨m, hm⟩
    exact ⟨n, o, name, m, (h.kept j (Arena.lt_size_of_node? hn) hid).trans hn, hs, hname, hm⟩

theorem Settled.of_isBuilt (hn : ∀ n, a.node? id = some n → n.isBuilt) : Settled s a id := by
  intro object h
  obtain ⟨n, hn', hb, -⟩ := h.user
  rw [hn n hn'] at hb
  cases hb

theorem Settled.congr (h : Settled s a id) (hn : b.node? id = a.node? id)
    (hm : ∀ j, isMember s b j ↔ isMember s a j) : Settled s b id :=
  fun object hsite => h object ⟨hn ▸ hsite.user, (hm object).mp hsite.member⟩

theorem Settled.node?_eq (h : Settled s a j) (hab : Swapped s a b id object)
    (hsite : SiteAt s a id object) (hj : j < a.size) : b.node? j = a.node? j :=
  hab.kept j hj fun he => h object (he ▸ hsite)

theorem Swapped.settled (h : Swapped s a b id object) : Settled s b id := by
  intro o hsite
  obtain ⟨n, shape, -, hnb, -, hc⟩ := h.parent
  obtain ⟨n', hn', -, hs⟩ := hsite.user
  obtain rfl := Option.some.inj (hnb.symm.trans hn')
  have ho : o = a.size := by
    rcases hs with ⟨_, hs⟩ | ⟨_, _, hs, -⟩ <;> obtain rfl : shape = _ := hs <;>
      exact (List.cons.inj hc).1
  obtain ⟨m, _, _, _, hm, hp, -⟩ := Rewrite.isMember_iff.mp hsite.member
  rw [(h.node?_call (Nat.le_of_eq ho.symm) hm).2] at hp
  cases hp

theorem Fills.settled (h : Fills s a b) (hj : Settled s a j) : Settled s b j := by
  obtain ⟨id, object, hsite, hab⟩ := h
  by_cases hlt : j < a.size
  · exact hj.congr (hj.node?_eq hab hsite hlt) fun i => hab.isMember_iff hsite
  · exact .of_isBuilt fun n hn => (hab.node?_call (Nat.le_of_not_lt hlt) hn).1

theorem Filled.settled (h : Filled s a b) (hj : Settled s a j) : Settled s b j := by
  induction h with
  | refl => exact hj
  | tail _ hstep ih => exact hstep.settled ih

theorem Filled.size_le (h : Filled s a b) : a.size ≤ b.size := by
  induction h with
  | refl => exact Nat.le_refl _
  | tail _ hstep ih =>
    obtain ⟨_, _, -, hbc⟩ := hstep
    rw [hbc.size]
    exact Nat.le_succ_of_le ih

/-- Nodes that are no sites stay as they are. -/
theorem Filled.node?_eq (h : Filled s a b) (hj : Settled s a j) (hlt : j < a.size) :
    b.node? j = a.node? j := by
  induction h with
  | refl => rfl
  | tail hab hstep ih =>
    obtain ⟨_, _, hsite, hbc⟩ := hstep
    have hlt' := Nat.lt_of_lt_of_le hlt (Filled.size_le hab)
    rw [(Filled.settled hab hj).node?_eq hbc hsite hlt', ih]

theorem Filled.added (h : Filled s a b) (hj : a.size ≤ j) (hn : b.node? j = some n) :
    n.isBuilt ∧ n.shape.children = [] := by
  induction h generalizing n with
  | refl => exact absurd (Arena.lt_size_of_node? hn) (Nat.not_lt.mpr hj)
  | @tail b c hab hstep ih =>
    obtain ⟨id, object, hsite, hbc⟩ := hstep
    by_cases hlt : j < b.size
    · have hsettled : Settled s b j := .of_isBuilt fun m hm => (ih hm).1
      exact ih ((hsettled.node?_eq hbc hsite hlt).symm.trans hn)
    · obtain ⟨hbuilt, hs⟩ := hbc.node?_call (Nat.le_of_not_lt hlt) hn
      exact ⟨hbuilt, by rw [hs]; rfl⟩

theorem Filled.children (h : Filled s a b) (hj : j ∈ b.children id) :
    j ∈ a.children id ∨ a.size ≤ j := by
  induction h with
  | refl => exact Or.inl hj
  | @tail b c hab hstep ih =>
    obtain ⟨x, object, hsite, hbc⟩ := hstep
    by_cases hx : id = x
    · subst hx
      obtain ⟨n, shape, hn, hm, -, hc⟩ := hbc.parent
      rw [Arena.children_eq hm, hc, List.mem_cons] at hj
      rcases hj with rfl | hj
      · exact Or.inr (Filled.size_le hab)
      · refine ih ?_
        rw [Arena.children_eq hn]
        exact List.mem_of_mem_tail hj
    · by_cases hlt : id < b.size
      · refine ih ?_
        rwa [Arena.children, Arena.shape?, ← hbc.kept id hlt hx]
      · cases hn : c.node? id with
        | none => simp [Arena.children, Arena.shape?, hn] at hj
        | some n =>
          rw [Arena.children_eq hn, (hbc.node?_call (Nat.le_of_not_lt hlt) hn).2] at hj
          cases hj

theorem Filled.isMember_iff (h : Filled s a b) : isMember s b j ↔ isMember s a j := by
  induction h with
  | refl => rfl
  | tail _ hstep ih =>
    obtain ⟨_, _, hsite, hbc⟩ := hstep
    rw [hbc.isMember_iff hsite, ih]

/-- `b` has at `id` what `a` has there, with a new node in the place of the first child. -/
def FilledAt (s : Settings) (a b : Arena) (id : NodeId) : Prop :=
  ∃ n object rest shape new, a.node? id = some n ∧ n.shape.children = object :: rest ∧
    isMember s a object ∧ b.node? id = some { n with shape } ∧ shape.kind = n.shape.kind ∧
    shape.children = new :: rest ∧ a.size ≤ new

theorem Filled.node?_or (h : Filled s a b) (hlt : id < a.size) :
    b.node? id = a.node? id ∨ FilledAt s a b id := by
  induction h with
  | refl => exact Or.inl rfl
  | @tail b c hab hstep ih =>
    obtain ⟨x, object, hsite, hbc⟩ := hstep
    by_cases hx : id = x
    · subst hx
      obtain ⟨n, shape, hn, hnode, hkind, hchildren⟩ := hbc.parent
      rcases ih with hkept | ⟨m, o, rest, shape', new, hm, ho, hmember, hb, hkind', hc, -⟩
      · obtain ⟨n', rest, hn', -, hc⟩ := hsite.children
        obtain rfl := Option.some.inj (hn.symm.trans hn')
        rw [hc, List.tail_cons] at hchildren
        exact Or.inr ⟨n, object, rest, shape, b.size, hkept ▸ hn, hc,
          (Filled.isMember_iff hab).mp hsite.member, hnode, hkind, hchildren, Filled.size_le hab⟩
      · obtain rfl := Option.some.inj (hn.symm.trans hb)
        rw [hc, List.tail_cons] at hchildren
        exact Or.inr ⟨m, o, rest, shape, b.size, hm, ho, hmember, hnode, hkind.trans hkind',
          hchildren, Filled.size_le hab⟩
    · have hnode := hbc.kept id (Nat.lt_of_lt_of_le hlt (Filled.size_le hab)) hx
      exact ih.imp hnode.trans fun ⟨n, o, rest, shape, new, hn, ho, hm, hb, hrest⟩ =>
        ⟨n, o, rest, shape, new, hn, ho, hm, hnode.trans hb, hrest⟩

end FactoryLint.Rewrite
