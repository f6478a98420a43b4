import FactoryLint.Classes.Scope
import Mathlib.Data.Finset.Card
import Mathlib.Data.List.Chain
import Mathlib.Data.List.DropRight
import Mathlib.Logic.Function.Iterate

namespace FactoryLint

theorem ClassName.key_bare (name : String) : key (bare name) = key name := by
  rw [key, key, bare, String.toList_ofList, List.dropWhile_idempotent]

namespace Ancestry

open ClassName

/-- What is found on following parent links from `next` for as long as there is one and it leads
past the classes of `seen`. Nothing bounds the number of steps. -/
inductive Climbs (parent? : String → Option (Option String)) :
    List String → Option String → List String → Prop
  | ended (seen : List String) : Climbs parent? seen none []
  | repeated {seen : List String} {current : String} :
    key current ∈ seen → Climbs parent? seen (some current) []
  | step {seen : List String} {current : String} {rest : List String} :
    key current ∉ seen → Climbs parent? (key current :: seen) (parent? current).join rest →
      Climbs parent? seen (some current) (bare current :: rest)

variable {parent? : String → Option (Option String)} {seen : List String} {next : Option String}
  {chain : List String} {known : Finset String}

theorem card_sdiff_cons_lt {name : String} (hknown : name ∈ known) (hseen : name ∉ seen) :
    (known \ (name :: seen).toFinset).card < (known \ seen.toFinset).card := by
  refine Finset.card_lt_card (Finset.ssubset_iff_of_subset ?_ |>.mpr ⟨name, ?_, ?_⟩)
  · refine Finset.sdiff_subset_sdiff (Finset.Subset.refl _) fun x hx => ?_
    rw [List.mem_toFinset] at hx ⊢
    exact List.mem_cons_of_mem _ hx
  · simp [hknown, hseen]
  · simp

theorem climb_none (bound : Nat) : climb parent? bound seen none = [] := by
  cases bound <;> rfl

theorem climb_climbs (hparent : ∀ name, parent? name ≠ none → key name ∈ known) {bound : Nat}
    (hbound : (known \ seen.toFinset).card < bound) :
    Climbs parent? seen next (climb parent? bound seen next) := by
  induction bound generalizing seen next with
  | zero => exact absurd hbound (Nat.not_lt_zero _)
  | succ bound ih =>
    cases next with
    | none => exact .ended seen
    | some current =>
      rw [climb]
      split_ifs with hseen
      · exact .repeated hseen
      · refine .step hseen ?_
        by_cases hcurrent : parent? current = none
        · rw [hcurrent, Option.join_none, climb_none]
          exact .ended _
        · have hlt := card_sdiff_cons_lt (hparent current hcurrent) hseen
          exact ih (by omega)

namespace Climbs

theorem to_parent {current p : String} {rest : List String} (hseen : key current ∉ seen)
    (hparent : parent? current = some (some p))
    (hrest : Climbs parent? (key current :: seen) (some p) rest) :
    Climbs parent? seen (some current) (bare current :: rest) := by
  refine .step hseen ?_
  rw [hparent]
  exact hrest

theorem to_unknown {current : String} (hseen : key current ∉ seen)
    (hparent : parent? current = none) : Climbs parent? seen (some current) [bare current] := by
  refine .step hseen ?_
  rw [hparent]
  exact .ended _

theorem eq (h : Climbs parent? seen next chain) {chain' : List String}
    (h' : Climbs parent? seen next chain') : chain' = chain := by
  induction h generalizing chain' with
  | ended =>
    cases h'
    rfl
  | repeated hseen =>
    cases h' with
    | repeated => rfl
    | step hnot => exact absurd hseen hnot
  | step hnot _ ih =>
    cases h' with
    | repeated hseen => exact absurd hseen hnot
    | step _ hrest => rw [ih hrest]

theorem not_mem_seen (h : Climbs parent? seen next chain) : ∀ a ∈ chain, key a ∉ seen := by
  induction h with
  | ended => exact fun _ ha => absurd ha List.not_mem_nil
  | repeated => exact fun _ ha => absurd ha List.not_mem_nil
  | step hseen _ ih =>
    intro a ha
    rcases List.mem_cons.mp ha with rfl | ha
    · rwa [key_bare]
    · exact fun hmem => ih a ha (List.mem_cons_of_mem _ hmem)

theorem nodup (h : Climbs parent? seen next chain) : (chain.map key).Nodup := by
  induction h with
  | ended => exact List.nodup_nil
  | repeated => exact List.nodup_nil
  | step _ hrest ih =>
    refine List.nodup_cons.mpr ⟨fun hmem => ?_, ih⟩
    obtain ⟨a, ha, hkey⟩ := List.mem_map.mp hmem
    rw [key_bare] at hkey
    exact hrest.not_mem_seen a ha (hkey ▸ List.mem_cons_self)

theorem length_le (h : Climbs parent? seen next chain)
    (hparent : ∀ name, parent? name ≠ none → key name ∈ known) :
    chain.length ≤ (known \ seen.toFinset).card + 1 := by
  induction h with
  | ended => exact Nat.zero_le _
  | repeated => exact Nat.zero_le _
  | @step seen current rest hseen hrest ih =>
    by_cases hcurrent : parent? current = none
    · rw [hcurrent, Option.join_none] at hrest
      cases hrest
      simp
    · have hlt := card_sdiff_cons_lt (hparent current hcurrent) hseen
      rw [List.length_cons]
      omega

theorem of_nil (h : Climbs parent? seen next []) :
    next = none ∨ ∃ p, next = some p ∧ key p ∈ seen := by
  cases h with
  | ended => exact Or.inl rfl
  | @repeated _ current hseen => exact Or.inr ⟨current, rfl, hseen⟩

theorem head (h : Climbs parent? seen next chain) :
    ∀ a ∈ chain.head?, ∃ p, next = some p ∧ a = bare p := by
  cases h with
  | ended => exact fun _ ha => absurd ha (by simp)
  | repeated => exact fun _ ha => absurd ha (by simp)
  | @step _ current =>
    intro a ha
    obtain rfl := Option.some.inj ha
    exact ⟨current, rfl, rfl⟩

section

variable (hbare : ∀ name, parent? (bare name) = parent? name)

include hbare

theorem linked (h : Climbs parent? seen next chain) :
    chain.IsChain fun a b => ∃ p, parent? a = some (some p) ∧ b = bare p := by
  induction h with
  | ended => exact .nil
  | repeated => exact .nil
  | @step _ current rest _ hrest ih =>
    refine List.isChain_cons.mpr ⟨fun b hb => ?_, ih⟩
    obtain ⟨p, hp, rfl⟩ := hrest.head b hb
    exact ⟨p, by rw [hbare, Option.join_eq_some_iff.mp hp], rfl⟩

theorem last (h : Climbs parent? seen next chain) : ∀ a ∈ chain.getLast?,
    parent? a = none ∨ parent? a = some none ∨
      ∃ p, parent? a = some (some p) ∧ (key p ∈ seen ∨ key p ∈ chain.map key) := by
  induction h with
  | ended => exact fun _ ha => absurd ha (by simp)
  | repeated => exact fun _ ha => absurd ha (by simp)
  | @step seen current rest _ hrest ih =>
    intro a ha
    cases rest with
    | nil =>
      rw [List.getLast?_singleton] at ha
      obtain rfl := Option.some.inj ha
      rw [hbare]
      cases hp : parent? current with
      | none => exact Or.inl rfl
      | some parent =>
        rw [hp, Option.join_some] at hrest
        refine Or.inr (hrest.of_nil.imp (congrArg some) ?_)
        rintro ⟨p, rfl, hmem⟩
        exact ⟨p, rfl, by simpa [key_bare, or_comm] using hmem⟩
    | cons b rest =>
      rw [List.getLast?_cons_cons] at ha
      refine (ih a ha).imp_right (Or.imp_right ?_)
      rintro ⟨p, hp, hmem⟩
      refine ⟨p, hp, ?_⟩
      rw [List.map_cons, key_bare, List.mem_cons]
      rw [List.mem_cons] at hmem
      tauto

end

end Climbs

/-- The class that so many parent links lead to from the one that `next` names. -/
def above (parent? : String → Option (Option String)) (next : Option String) (steps : Nat) :
    Option String :=
  (fun name => (name.bind parent?).join)^[steps] next

theorem above_none (steps : Nat) : above parent? none steps = none := by
  induction steps with
  | zero => rfl
  | succ steps ih => exact ih

theorem above_succ (current : String) (steps : Nat) :
    above parent? (some current) (steps + 1) = above parent? (parent? current).join steps := by
  simp only [above, Function.iterate_succ_apply, Option.bind_some]

/-- Parent links lead to `name` before they lead to a class of `seen` or to one class twice. -/
def Reaches (parent? : String → Option (Option String)) (seen : List String)
    (next : Option String) (name : String) : Prop :=
  ∃ steps n, above parent? next steps = some n ∧ key n = key name ∧
    ∀ i ≤ steps, ∀ m ∈ above parent? next i, key m ∉ seen ∧
      ∀ j < i, ∀ m' ∈ above parent? next j, key m' ≠ key m

theorem reaches_head {current : String} (hseen : key current ∉ seen) {name : String}
    (hkey : key current = key name) : Reaches parent? seen (some current) name := by
  refine ⟨0, current, rfl, hkey, fun i hi m hm => ?_⟩
  obtain rfl := Nat.le_zero.mp hi
  obtain rfl := Option.some.inj hm
  exact ⟨hseen, fun j hj => absurd hj (Nat.not_lt_zero j)⟩

theorem reaches_succ {current : String} (hseen : key current ∉ seen) {name : String}
    (h : Reaches parent? (key current :: seen) (parent? current).join name) :
    Reaches parent? seen (some current) name := by
  obtain ⟨steps, n, hn, hkey, hfirst⟩ := h
  refine ⟨steps + 1, n, by rw [above_succ, hn], hkey, fun i hi m hm => ?_⟩
  cases i with
  | zero =>
    obtain rfl := Option.some.inj hm
    exact ⟨hseen, fun j hj => absurd hj (Nat.not_lt_zero j)⟩
  | succ i =>
    rw [above_succ] at hm
    obtain ⟨hm', hdistinct⟩ := hfirst i (by omega) m hm
    rw [List.mem_cons, not_or] at hm'
    refine ⟨hm'.2, fun j hj m' hj' => ?_⟩
    cases j with
    | zero =>
      obtain rfl := Option.some.inj hj'
      exact Ne.symm hm'.1
    | succ j =>
      rw [above_succ] at hj'
      exact hdistinct j (by omega) m' hj'

theorem Reaches.cases_step {current name : String}
    (h : Reaches parent? seen (some current) name) :
    key current ∉ seen ∧ (key current = key name ∨
      Reaches parent? (key current :: seen) (parent? current).join name) := by
  obtain ⟨steps, n, hn, hkey, hfirst⟩ := h
  refine ⟨(hfirst 0 (Nat.zero_le _) current rfl).1, ?_⟩
  cases steps with
  | zero =>
    obtain rfl := Option.some.inj hn
    exact Or.inl hkey
  | succ steps =>
    rw [above_succ] at hn
    refine Or.inr ⟨steps, n, hn, hkey, fun i hi m hm => ?_⟩
    have hm' : m ∈ above parent? (some current) (i + 1) := by rwa [above_succ]
    obtain ⟨hseen, hdistinct⟩ := hfirst (i + 1) (by omega) m hm'
    refine ⟨?_, fun j hj m' hj' => ?_⟩
    · rw [List.mem_cons, not_or]
      exact ⟨Ne.symm (hdistinct 0 (by omega) current rfl), hseen⟩
    · exact hdistinct (j + 1) (by omega) m' (by rwa [above_succ])

theorem not_reaches_none (name : String) : ¬Reaches parent? seen none name := by
  rintro ⟨steps, n, hn, -⟩
  rw [above_none] at hn
  cases hn

theorem Climbs.mem_iff_reaches (h : Climbs parent? seen next chain) (name : String) :
    (∃ a ∈ chain, key a = key name) ↔ Reaches parent? seen next name := by
  induction h with
  | ended => simp [not_reaches_none]
  | repeated hseen =>
    refine iff_of_false (by simp) fun hr => ?_
    exact hr.cases_step.1 hseen
  | step hseen _ ih =>
    rw [List.exists_mem_cons_iff, key_bare, ih]
    constructor
    · rintro (hkey | hr)
      · exact reaches_head hseen hkey
      · exact reaches_succ hseen hr
    · exact fun hr => hr.cases_step.2

end Ancestry

namespace Scope

open ClassName Ancestry

def knownKeys (s : Scope) : Finset String :=
  (s.declarations.map (fun d => key d.name) ++ s.hierarchy.parents.keys).toFinset

theorem card_knownKeys_le (s : Scope) :
    s.knownKeys.card ≤ s.declarations.length + s.hierarchy.size := by
  refine (List.toFinset_card_le _).trans (Nat.le_of_eq ?_)
  rw [List.length_append, List.length_map, Std.HashMap.length_keys, Hierarchy.size]

theorem key_mem_knownKeys (s : Scope) (name : String) (h : s.parent? name ≠ none) :
    key name ∈ s.knownKeys := by
  rw [knownKeys, List.mem_toFinset, List.mem_append]
  rw [parent?] at h
  split at h
  · rename_i d hd
    obtain ⟨hkey, hmem⟩ := List.find?_eq_some_iff_append.mp hd |>.imp_right fun h =>
      List.mem_of_find?_eq_some hd
    exact Or.inl (List.mem_map.mpr ⟨d, hmem, of_decide_eq_true hkey⟩)
  · refine Or.inr (Std.HashMap.mem_keys.mpr ?_)
    rw [Hierarchy.parent?, ne_eq, getElem?_eq_none_iff, not_not] at h
    exact h

theorem parent?_bare (s : Scope) (name : String) : s.parent? (bare name) = s.parent? name := by
  simp only [parent?, Hierarchy.parent?, key_bare]

/-- The classes above a declaration, nearest first, up to where no parent is known or a class would
come again. -/
structure Lineage (s : Scope) (d : Declaration) (chain : List String) : Prop where
  climbs : ∀ found, Climbs s.parent? [key d.name] d.parent found ↔ found = chain
  distinct : (key d.name :: chain.map key).Nodup
  first : ∀ a ∈ chain.head?, ∃ p, d.parent = some p ∧ a = bare p
  linked : chain.IsChain fun a b => ∃ p, s.parent? a = some (some p) ∧ b = bare p
  alone : chain = [] → d.parent = none ∨ ∃ p, d.parent = some p ∧ key p = key d.name
  last : ∀ a ∈ chain.getLast?, s.parent? a = none ∨ s.parent? a = some none ∨
    ∃ p, s.parent? a = some (some p) ∧ key p ∈ key d.name :: chain.map key
  length_le : chain.length ≤ s.knownKeys.card + 1

theorem ancestors_climbs (s : Scope) (d : Declaration) :
    Climbs s.parent? [key d.name] d.parent (s.ancestors d) := by
  refine climb_climbs (s.key_mem_knownKeys) ?_
  have hcard := Finset.card_le_card (Finset.sdiff_subset (s := s.knownKeys)
    (t := [key d.name].toFinset))
  have hknown := s.card_knownKeys_le
  omega

theorem Lineage.of_climbs {s : Scope} {d : Declaration} {chain : List String}
    (h : Climbs s.parent? [key d.name] d.parent chain) : s.Lineage d chain where
  climbs found := ⟨h.eq, fun he => he ▸ h⟩
  distinct := by
    refine List.nodup_cons.mpr ⟨fun hmem => ?_, h.nodup⟩
    obtain ⟨a, ha, hkey⟩ := List.mem_map.mp hmem
    exact h.not_mem_seen a ha (hkey ▸ List.mem_cons_self)
  first := h.head
  linked := h.linked s.parent?_bare
  alone := by
    rintro rfl
    refine h.of_nil.imp_right ?_
    rintro ⟨p, hp, hmem⟩
    exact ⟨p, hp, List.mem_singleton.mp hmem⟩
  last := by
    intro a ha
    refine (h.last s.parent?_bare a ha).imp_right (Or.imp_right ?_)
    rintro ⟨p, hp, hmem⟩
    rw [List.mem_singleton] at hmem
    exact ⟨p, hp, List.mem_cons.mpr hmem⟩
  length_le := by
    have hcard := Finset.card_le_card (Finset.sdiff_subset (s := s.knownKeys)
      (t := [key d.name].toFinset))
    have hlength := h.length_le s.key_mem_knownKeys
    omega

/-- The ancestors of a class are its whole lineage, and the class around a place descends from
exactly the classes that parent links lead to before one of them comes again. -/
theorem ancestors_lineage (s : Scope) (d : Declaration) :
    s.Lineage d (s.ancestors d) ∧
    ∀ span, s.enclosing? span = some d →
      ∃ c, s.context? span = some c ∧ c.name = d.name ∧ c.ancestors = s.ancestors d ∧
        ∀ name, c.IsSubclassOf name ↔ Reaches s.parent? [key d.name] d.parent name := by
  refine ⟨.of_climbs (s.ancestors_climbs d), fun span hspan => ?_⟩
  refine ⟨⟨d.name, s.ancestors d⟩, by rw [context?, hspan]; rfl, rfl, rfl, fun name => ?_⟩
  exact (s.ancestors_climbs d).mem_iff_reaches name

def circular : Scope :=
  ⟨.empty, [⟨"A", some "B", ⟨0, 9⟩⟩, ⟨"B", some "\\a", ⟨9, 18⟩⟩]⟩

theorem ancestors_lineage_circular :
    circular.enclosing? ⟨1, 2⟩ = some ⟨"A", some "B", ⟨0, 9⟩⟩ ∧
    ∃ c, circular.context? ⟨1, 2⟩ = some c ∧ c.name = "A" ∧ c.ancestors = ["B"] ∧
      ¬Reaches circular.parent? [key "A"] (some "B") "A" := by
  have henclosing : circular.enclosing? ⟨1, 2⟩ = some ⟨"A", some "B", ⟨0, 9⟩⟩ := by decide +kernel
  have hparent : circular.parent? "B" = some (some "\\a") := by decide +kernel
  have hback : Climbs circular.parent? [key "B", key "A"] (some "\\a") [] :=
    .repeated (by decide +kernel)
  have hclimbs : Climbs circular.parent? [key "A"] (some "B") [bare "B"] :=
    .to_parent (by decide +kernel) hparent hback
  have hbare : bare "B" = "B" := by decide +kernel
  rw [hbare] at hclimbs
  obtain ⟨hlineage, hcontext⟩ := ancestors_lineage circular ⟨"A", some "B", ⟨0, 9⟩⟩
  obtain ⟨c, hc, hname, hancestors, hreaches⟩ := hcontext _ henclosing
  have hchain : c.ancestors = ["B"] := by rw [hancestors, ← (hlineage.climbs _).mp hclimbs]
  refine ⟨henclosing, c, hc, hname, hchain, fun h => ?_⟩
  obtain ⟨a, ha, hkey⟩ := (hreaches "A").mpr h
  rw [hchain, List.mem_singleton] at ha
  subst ha
  exact absurd hkey (by decide +kernel)

end Scope

end FactoryLint
