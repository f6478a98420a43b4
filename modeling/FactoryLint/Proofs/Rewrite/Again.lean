import FactoryLint.Proofs.Rewrite.Apply
import FactoryLint.Proofs.Rewrite.Settled

namespace FactoryLint.Rewrite

open Relation (ReflTransGen)

variable {s : Settings} {a b c : Arena} {x y object : NodeId} {count count' : Nat}

theorem visit_of_settled (h : Settled s a x) (count : Nat) :
    visit s x a count = (descent a x, a, count) := by
  cases hn : a.node? x with
  | none => simp [visit, descent, hn]
  | some n =>
    have hshape : a.shape? x = some n.shape := by rw [Arena.shape?, hn, Option.map_some]
    cases hb : n.isBuilt with
    | true => simp [visit, descent, hn, hb]
    | false =>
      cases hs : n.shape with
      | property object name =>
        have hm : ¬isMember s a object := fun hm => h object ⟨⟨n, hn, hb, Or.inl ⟨name, hs⟩⟩, hm⟩
        simp [visit, descent, hn, hb, hs, matchProperty, hshape, offer_of_not_isMember hm, perform]
      | methodCall object name arguments =>
        have hm : matchCall s a x = none := by
          rw [matchCall, hshape, hs]
          simp only
          split_ifs with hex
          · rfl
          · refine offer_of_not_isMember fun hm => h object ⟨⟨n, hn, hb, Or.inr ?_⟩, hm⟩
            exact ⟨name, arguments, hs, Bool.eq_false_iff.mpr hex⟩
        simp [visit, descent, hn, hb, hs, hm, perform]
      | _ => simp [visit, descent, hn, hb, hs]

theorem visit_of_siteAt (h : SiteAt s a x object) (count : Nat) :
    ∃ b, visit s x a count = (.enter, b, count + 1) ∧ Swapped s a b x object := by
  obtain ⟨n, hn, hb, hs⟩ := h.user
  have hshape : a.shape? x = some n.shape := by rw [Arena.shape?, hn, Option.map_some]
  rcases hs with ⟨name, hs⟩ | ⟨name, arguments, hs, hex⟩
  · obtain ⟨b, hperform, hab⟩ := perform_offer (.property a.size name) hn h.object_lt h.member
      (by rw [hs]; rfl) (by simp [hs, Shape.replaceChild?]) (by rw [hs]; rfl) count
    exact ⟨b, by simp [visit, hn, hb, hs, matchProperty, hshape, hperform], hab⟩
  · obtain ⟨b, hperform, hab⟩ := perform_offer (.methodCall a.size name arguments) hn h.object_lt
      h.member (by rw [hs]; rfl) (by simp [hs, Shape.replaceChild?]) (by rw [hs]; rfl) count
    exact ⟨b, by simp [visit, hn, hb, hs, matchCall, hshape, hex, hperform], hab⟩

def Opens (a : Arena) (x y : NodeId) : Prop := descent a x = .enter ∧ a.Child x y

/-- A walk from these nodes meets no site. -/
def AllSettled (s : Settings) (a : Arena) (xs : List NodeId) : Prop :=
  ∀ x ∈ xs, ∀ y, ReflTransGen (Opens a) x y → Settled s a y

/-- From `a` to `b` a walk of the given nodes has replaced all that it met, and counted it. -/
structure Walked (s : Settings) (xs : List NodeId) (a b : Arena) (count count' : Nat) : Prop where
  filled : Filled s a b
  count_le : count ≤ count'
  eq_of_count : count' = count → b = a
  settled : AllSettled s b xs

theorem Filled.reach (h : Filled s b c) (hx : ∀ y, ReflTransGen (Opens b) x y → Settled s b y)
    (hxy : ReflTransGen (Opens c) x y) : ReflTransGen (Opens b) x y := by
  induction hxy with
  | refl => exact .refl
  | @tail u v _ huv ih =>
    obtain ⟨henter, hchild⟩ := huv
    have hu : c.node? u = b.node? u := by
      by_cases hlt : u < b.size
      · exact h.node?_eq (hx u ih) hlt
      · obtain ⟨n, hn⟩ : ∃ n, c.node? u = some n := by
          cases hn : c.node? u with
          | none => simp [descent, hn] at henter
          | some n => exact ⟨n, rfl⟩
        simp [descent, hn, (h.added (Nat.le_of_not_lt hlt) hn).1] at henter
    refine ih.tail ⟨?_, ?_⟩
    · rwa [descent, hu] at henter
    · rwa [Arena.Child, Arena.children, Arena.shape?, hu] at hchild

theorem Walked.nil (s : Settings) (a : Arena) (count : Nat) : Walked s [] a a count count where
  filled := .refl
  count_le := Nat.le_refl _
  eq_of_count := fun _ => rfl
  settled := fun _ hx => absurd hx List.not_mem_nil

theorem Walked.cons {xs : List NodeId} {count'' : Nat} (h₁ : Walked s [x] a b count count')
    (h₂ : Walked s xs b c count' count'') : Walked s (x :: xs) a c count count'' where
  filled := h₁.filled.trans h₂.filled
  count_le := Nat.le_trans h₁.count_le h₂.count_le
  eq_of_count h := by
    have hle := h₁.count_le
    have hle' := h₂.count_le
    rw [h₂.eq_of_count (by omega), h₁.eq_of_count (by omega)]
  settled z hz y hy := by
    rcases List.mem_cons.mp hz with rfl | hz
    · have hsettled := h₁.settled z List.mem_cons_self
      exact h₂.filled.settled (hsettled y (h₂.filled.reach hsettled hy))
    · exact h₂.settled z hz y hy

theorem walked_of_each {depth : Nat}
    (ih : ∀ {x a b count count'}, Arena.preorder (visit s) depth x a count = some (b, count') →
      Walked s [x] a b count count') {xs : List NodeId}
    (h : Arena.each (Arena.preorder (visit s) depth) xs a count = some (b, count')) :
    Walked s xs a b count count' := by
  induction xs generalizing a count with
  | nil =>
    obtain ⟨rfl, rfl⟩ := Prod.mk.inj (Option.some.inj h)
    exact .nil s a count
  | cons x xs ihxs =>
    rw [Arena.each] at h
    split at h
    · cases h
    · rename_i a' count₁ hx
      exact (ih hx).cons (ihxs h)

theorem Walked.node {b' : Arena} (hx : Settled s b x)
    (hlt : x < b.size) (h : Walked s (b.children x) b b' count count') :
    Walked s [x] b b' count count' where
  filled := h.filled
  count_le := h.count_le
  eq_of_count := h.eq_of_count
  settled z hz y hy := by
    obtain rfl := List.mem_singleton.mp hz
    rcases ReflTransGen.cases_head hy with rfl | ⟨v, ⟨-, hv⟩, hy⟩
    · exact h.filled.settled hx
    · rw [Arena.Child, Arena.children, Arena.shape?, h.filled.node?_eq hx hlt] at hv
      exact h.settled v hv y hy

theorem Walked.after {b' : Arena} (hab : Fills s a b)
    (h : Walked s [x] b b' (count + 1) count') : Walked s [x] a b' count count' where
  filled := h.filled.head hab
  count_le := Nat.le_of_succ_le h.count_le
  eq_of_count he := by
    have hle := h.count_le
    omega
  settled := h.settled

theorem walked_of_preorder {depth : Nat}
    (h : Arena.preorder (visit s) depth x a count = some (b, count')) :
    Walked s [x] a b count count' := by
  induction depth generalizing x a b count count' with
  | zero => cases h
  | succ depth ih =>
    by_cases hx : ∃ object, SiteAt s a x object
    · obtain ⟨object, hsite⟩ := hx
      obtain ⟨a', hvisit, hswap⟩ := visit_of_siteAt hsite count
      have hlt : x < a'.size := hswap.size ▸ Nat.lt_succ_of_lt hsite.id_lt
      rw [Arena.preorder, hvisit] at h
      exact ((walked_of_each ih h).node hswap.settled hlt).after ⟨x, object, hsite, hswap⟩
    · have hsettled : Settled s a x := fun object hsite => hx ⟨object, hsite⟩
      rw [Arena.preorder, visit_of_settled hsettled] at h
      cases hd : descent a x with
      | skip =>
        rw [hd] at h
        obtain ⟨rfl, rfl⟩ := Prod.mk.inj (Option.some.inj h)
        refine ⟨.refl, Nat.le_refl _, fun _ => rfl, fun z hz y hy => ?_⟩
        obtain rfl := List.mem_singleton.mp hz
        rcases ReflTransGen.cases_head hy with rfl | ⟨v, ⟨henter, -⟩, -⟩
        · exact hsettled
        · rw [hd] at henter
          cases henter
      | enter =>
        rw [hd] at h
        have hlt : x < a.size := by
          by_contra hge
          rw [descent, Arena.node?_eq_none_iff.mpr (Nat.le_of_not_lt hge)] at hd
          cases hd
        exact (walked_of_each ih h).node hsettled hlt

theorem each_of_allSettled {depth : Nat} {xs : List NodeId}
    (ih : ∀ {x b count count'}, AllSettled s a [x] →
      Arena.preorder (visit s) depth x a count = some (b, count') → b = a ∧ count' = count)
    (hxs : AllSettled s a xs)
    (h : Arena.each (Arena.preorder (visit s) depth) xs a count = some (b, count')) :
    b = a ∧ count' = count := by
  induction xs with
  | nil =>
    obtain ⟨rfl, rfl⟩ := Prod.mk.inj (Option.some.inj h)
    exact ⟨rfl, rfl⟩
  | cons x xs ihxs =>
    rw [Arena.each] at h
    split at h
    · cases h
    · rename_i a' count₁ hx
      obtain ⟨rfl, rfl⟩ := ih (fun z hz => hxs z (by simp [List.mem_singleton.mp hz])) hx
      exact ihxs (fun z hz => hxs z (List.mem_cons_of_mem _ hz)) h

theorem preorder_of_allSettled {depth : Nat} (hx : AllSettled s a [x])
    (h : Arena.preorder (visit s) depth x a count = some (b, count')) :
    b = a ∧ count' = count := by
  induction depth generalizing x b count count' with
  | zero => cases h
  | succ depth ih =>
    have hx' := hx x (List.mem_singleton_self x)
    rw [Arena.preorder, visit_of_settled (hx' x .refl)] at h
    cases hd : descent a x with
    | skip =>
      rw [hd] at h
      obtain ⟨rfl, rfl⟩ := Prod.mk.inj (Option.some.inj h)
      exact ⟨rfl, rfl⟩
    | enter =>
      rw [hd] at h
      exact each_of_allSettled ih (fun v hv y hy => hx' y (hy.head ⟨hd, hv⟩)) h

theorem exists_each {depth : Nat}
    (ih : ∀ {x b}, Filled s a b → (a.reach x).card < depth → ∀ count, ∃ c count',
      Arena.preorder (visit s) depth x b count = some (c, count'))
    {xs : List NodeId} (hab : Filled s a b) (hxs : ∀ x ∈ xs, (a.reach x).card < depth)
    (count : Nat) :
    ∃ c count', Arena.each (Arena.preorder (visit s) depth) xs b count = some (c, count') := by
  induction xs generalizing b count with
  | nil => exact ⟨b, count, rfl⟩
  | cons x xs ihxs =>
    obtain ⟨b', count', hx⟩ := ih hab (hxs x List.mem_cons_self) count
    rw [Arena.each, hx]
    exact ihxs (hab.trans (walked_of_preorder hx).filled)
      (fun z hz => hxs z (List.mem_cons_of_mem _ hz)) count'

theorem exists_preorder (ha : a.Acyclic) {depth : Nat} (hab : Filled s a b)
    (hd : (a.reach x).card < depth) (count : Nat) :
    ∃ c count', Arena.preorder (visit s) depth x b count = some (c, count') := by
  induction depth generalizing x b count with
  | zero => exact absurd hd (Nat.not_lt_zero _)
  | succ depth ih =>
    have hchildren : ∀ {b'}, Filled s a b' → ∀ v ∈ b'.children x, (a.reach v).card < depth := by
      intro b' hab' v hv
      by_cases hlt : x < a.size
      · rcases hab'.children hv with hv | hge
        · have hcard := Arena.card_reach_lt ha hv
          omega
        · have hpos := Arena.card_reach_pos hlt
          rw [Arena.card_reach_of_size_le hge]
          omega
      · cases hn : b'.node? x with
        | none => simp [Arena.children, Arena.shape?, hn] at hv
        | some n =>
          rw [Arena.children_eq hn, (hab'.added (Nat.le_of_not_lt hlt) hn).2] at hv
          cases hv
    rw [Arena.preorder]
    by_cases hx : ∃ object, SiteAt s b x object
    · obtain ⟨object, hsite⟩ := hx
      obtain ⟨b', hvisit, hswap⟩ := visit_of_siteAt hsite count
      have hab' : Filled s a b' := hab.tail ⟨x, object, hsite, hswap⟩
      rw [hvisit]
      exact exists_each ih hab' (hchildren hab') (count + 1)
    · rw [visit_of_settled fun object hsite => hx ⟨object, hsite⟩]
      cases descent b x with
      | skip => exact ⟨b, count, rfl⟩
      | enter => exact exists_each ih hab (hchildren hab) count

theorem exists_rewriteItems (ha : a.Acyclic) (hab : Filled s a b) (items : List NodeId) :
    ∃ c count, rewriteItems s b items = some (c, count) := by
  have hd : ∀ x ∈ items, (a.reach x).card < b.size + 1 := fun x _ =>
    Nat.lt_succ_of_le ((a.card_reach_le x).trans hab.size_le)
  exact exists_each (fun hab' hcard => exists_preorder ha hab' hcard) hab hd 0

theorem settled_of_literal {root : NodeId} {items : List NodeId}
    (h : a.shape? root = some (.arrayLiteral items)) : Settled s a root := by
  intro object hsite
  obtain ⟨n, hn, -, hs⟩ := hsite.user
  rw [Arena.shape?, hn, Option.map_some] at h
  rcases hs with ⟨_, hs⟩ | ⟨_, _, hs, -⟩ <;> simp [hs] at h

theorem applyIn_of_rewriteItems {context : Option ClassContext} {root : NodeId}
    {items : List NodeId} (h : a.shape? root = some (.arrayLiteral items))
    (hel : Eligible s context) (hb : rewriteItems s a items = some (b, count)) :
    applyIn s context a root = (.ofCount count, b) := by
  rw [applyIn, h]
  simp only [if_pos (any_isSubclassOf_iff.mpr hel), hb]
  cases count <;> rfl

theorem literal_of_kind {root : NodeId} (h : (a.label root).kind = .arrayLiteral) :
    ∃ items, a.shape? root = some (.arrayLiteral items) := by
  cases hn : a.node? root with
  | none =>
    rw [Arena.label, hn] at h
    cases h
  | some n =>
    rw [Arena.label_eq hn] at h
    exact ⟨n.shape.children, by
      rw [Arena.shape?, hn, Option.map_some, ← Shape.eq_arrayLiteral_of_kind h]⟩

/-- Where there is no cycle, both of two walks of the same literal end. The second one finds
nothing left, whatever the resolver makes of the new arena, and one that replaces nothing leaves
the arena as it was. -/
theorem applyIn_again (s : Settings) (resolve : Arena → NodeId → Option ClassContext) (a : Arena)
    (root : NodeId) (ha : a.Acyclic) :
    ∃ outcome b, applyIn s (resolve a root) a root = (outcome, b) ∧
      (∀ items, a.shape? root = some (.arrayLiteral items) →
        (rewriteItems s a items).isSome ∧ (rewriteItems s b items).isSome) ∧
      (outcome = .unchanged → b = a) ∧
      applyIn s (resolve b root) b root = (.unchanged, b) := by
  have hends : ∀ b, Filled s a b → ∀ items, (rewriteItems s b items).isSome := by
    intro b hab items
    obtain ⟨c, count, hc⟩ := exists_rewriteItems ha hab items
    rw [hc, Option.isSome_some]
  by_cases hel : (a.label root).kind = .arrayLiteral ∧ Eligible s (resolve a root)
  · obtain ⟨items, hitems⟩ := literal_of_kind hel.1
    obtain ⟨b, count, hb⟩ := exists_rewriteItems (s := s) ha .refl items
    have hwalked : Walked s items a b 0 count := walked_of_each walked_of_preorder hb
    refine ⟨.ofCount count, b, applyIn_of_rewriteItems hitems hel.2 hb,
      fun items _ => ⟨hends a .refl items, hends b hwalked.filled items⟩, fun hcount => ?_, ?_⟩
    · cases count with
      | zero => exact hwalked.eq_of_count rfl
      | succ count => cases hcount
    · have hroot : b.shape? root = some (.arrayLiteral items) := by
        obtain ⟨n, hn, -⟩ := Option.map_eq_some_iff.mp hitems
        rw [← hitems, Arena.shape?, Arena.shape?,
          hwalked.filled.node?_eq (settled_of_literal hitems) (Arena.lt_size_of_node? hn)]
      by_cases hel' : Eligible s (resolve b root)
      · obtain ⟨c, count', hc⟩ := exists_rewriteItems ha hwalked.filled items
        obtain ⟨rfl, rfl⟩ := each_of_allSettled preorder_of_allSettled hwalked.settled hc
        exact applyIn_of_rewriteItems hroot hel' hc
      · exact applyIn_of_not_eligible fun h => hel' h.2
  · exact ⟨.unchanged, a, applyIn_of_not_eligible hel,
      fun items _ => ⟨hends a .refl items, hends a .refl items⟩, fun _ => rfl,
      applyIn_of_not_eligible hel⟩

/-- A literal with two entries `$this->faker->name => $this->faker->unique(…)` and that call. They
are one entry, used twice, and its call once more. The member is one node in all of its three
places, and a node that was built stands among the arguments. -/
def shared : Arena where
  nodes := .mk [
    ⟨.variable "this", none, .source⟩, ⟨.property 0 (some "faker"), none, .source⟩,
    ⟨.property 1 (some "name"), none, .source⟩, ⟨.property 1 (some "word"), none, .built none⟩,
    ⟨.methodCall 1 (some "unique") [2, 3, 1], none, .source⟩,
    ⟨.arrayItem (some 2) 4, none, .source⟩, ⟨.arrayLiteral [5, 5, 4], none, .source⟩]

theorem applyIn_again_shared : shared.Acyclic ∧ ∃ b,
    applyIn .standard (some ⟨"UserFactory", [Settings.standard.baseClass]⟩) shared 6 =
      (.changed 2, b) ∧
    applyIn .standard (some ⟨"UserFactory", [Settings.standard.baseClass]⟩) b 6 =
      (.unchanged, b) := by
  have hacyclic : shared.Acyclic := Arena.acyclic_of_children_lt (by decide)
  obtain ⟨outcome, b, hb, -, -, hagain⟩ := applyIn_again .standard
    (fun _ _ => some ⟨"UserFactory", [Settings.standard.baseClass]⟩) shared 6 hacyclic
  have hcount : (applyIn .standard (some ⟨"UserFactory", [Settings.standard.baseClass]⟩)
    shared 6).1 = .changed 2 := by decide +kernel
  rw [hb] at hcount
  obtain rfl : outcome = .changed 2 := hcount
  exact ⟨hacyclic, b, hb, hagain⟩

end FactoryLint.Rewrite
