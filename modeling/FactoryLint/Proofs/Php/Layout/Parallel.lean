import FactoryLint.Proofs.Php.Layout.Sense

namespace FactoryLint.Php

namespace Parser

open Token (Alike)

variable {α β γ : Type}

theorem run_bind (p : Parser α) (f : α → Parser β) (ts : List Token) :
    (p >>= f) ts = (p ts).bind fun r => f r.1 r.2 := rfl

theorem run_ahead (f : List Token → Bool) (ts : List Token) : ahead f ts = some (f ts, ts) := rfl

theorem run_tokenIf_cons (q : Token → Bool) (t : Token) (ts : List Token) :
    tokenIf q (t :: ts) = if q t then some (t, ts) else none := by
  change (if q t then (return t : Parser Token) else failure) ts = _
  split_ifs <;> rfl

theorem run_tokenIf?_cons (q : Token → Bool) (t : Token) (ts : List Token) :
    tokenIf? q (t :: ts) = if q t then some (some t, ts) else some (none, t :: ts) := by
  change (if q t then (do set ts; return some t : Parser (Option Token)) else return none)
    (t :: ts) = _
  split_ifs <;> rfl

/-- What is alike for the relation is not told apart. -/
def Respects (R : α → α → Prop) (f : α → β) : Prop :=
  ∀ x x', R x x' → f x = f x'

namespace Respects

variable {R : α → α → Prop} {f g : α → Bool}

theorem or (hf : Respects R f) (hg : Respects R g) : Respects R fun x => f x || g x :=
  fun x x' h => congrArg₂ (· || ·) (hf x x' h) (hg x x' h)

theorem and (hf : Respects R f) (hg : Respects R g) : Respects R fun x => f x && g x :=
  fun x x' h => congrArg₂ (· && ·) (hf x x' h) (hg x x' h)

theorem not (hf : Respects R f) : Respects R fun x => !f x :=
  fun x x' h => congrArg (!·) (hf x x' h)

theorem kind (k : TokenKind) : Respects Alike (·.kind == k) :=
  fun _ _ h => congrArg (· == k) h.kind

theorem symbol (text : String) : Respects Alike (·.isSymbol text) :=
  fun _ _ h => h.isSymbol text

theorem keyword (word : String) : Respects Alike (·.isKeyword word) :=
  fun _ _ h => h.isKeyword word

theorem any (words : List String) {f : Token → String → Bool}
    (hf : ∀ word, Respects Alike (f · word)) : Respects Alike fun t => words.any (f t) :=
  fun t t' h => congrArg words.any (funext fun word => hf word t t' h)

theorem isWord : Respects Alike isWord :=
  kind .name

theorem isFreeWord : Respects Alike isFreeWord :=
  isWord.and (not fun t t' h => by rw [h.lowered])

theorem isAnyName : Respects Alike isAnyName :=
  ((kind .name).or (kind .qualifiedName)).or (kind .absoluteName)

theorem isClassName : Respects Alike isClassName :=
  (isFreeWord.or (kind .qualifiedName)).or (kind .absoluteName)

variable {p : Token → Bool}

theorem first (hp : Respects Alike p) : Respects (List.Forall₂ Alike) (first p) := by
  intro ts ts' h
  cases h with
  | nil => rfl
  | cons ht _ => exact hp _ _ ht

theorem second (hp : Respects Alike p) : Respects (List.Forall₂ Alike) (second p) :=
  fun _ _ h => first hp _ _ (List.forall₂_drop 1 h)

theorem third (hp : Respects Alike p) : Respects (List.Forall₂ Alike) (third p) :=
  fun _ _ h => first hp _ _ (List.forall₂_drop 2 h)

theorem isEmpty : Respects (List.Forall₂ Alike) List.isEmpty := by
  intro ts ts' h
  cases h <;> rfl

end Respects

abbrev RunAlike (ts ts' : List Token) (R : α → α → Prop) (p p' : Parser α) : Prop :=
  Option.Rel (fun r r' => R r.1 r'.1 ∧ r.2 <:+ ts ∧ r'.2 <:+ ts' ∧ List.Forall₂ Alike r.2 r'.2)
    (p ts) (p' ts')

/-- The parsers are run on tokens at the ends of two lists. -/
def Parallel (all all' : List Token) (R : α → α → Prop) (p p' : Parser α) : Prop :=
  ∀ ts ts', ts <:+ all → ts' <:+ all' → List.Forall₂ Alike ts ts' → RunAlike ts ts' R p p'

abbrev Steady (all all' : List Token) (R : α → α → Prop) (p : Parser α) : Prop :=
  Parallel all all' R p p

theorem RunAlike.strengthen {ts ts' : List Token} {R S : α → α → Prop} {p p' : Parser α}
    (h : RunAlike ts ts' R p p') (hS : ∀ x x' rest rest', R x x' → p ts = some (x, rest) →
      p' ts' = some (x', rest') → List.Forall₂ Alike rest rest' → S x x') :
    RunAlike ts ts' S p p' := by
  rw [RunAlike] at h ⊢
  generalize hr : p ts = r at h ⊢
  generalize hr' : p' ts' = r' at h ⊢
  cases h with
  | none => exact .none
  | some h => exact .some ⟨hS _ _ _ _ h.1 hr hr' h.2.2.2, h.2⟩

/-- Some tokens are taken first. -/
theorem RunAlike.extend {ts ts' rest rest' : List Token} {R : α → α → Prop} {p p' q q' : Parser α}
    (h : RunAlike rest rest' R p p') (hrest : rest <:+ ts) (hrest' : rest' <:+ ts')
    (hq : q ts = p rest) (hq' : q' ts' = p' rest') : RunAlike ts ts' R q q' := by
  rw [RunAlike] at h ⊢
  rw [hq, hq']
  generalize p rest = r at h ⊢
  generalize p' rest' = r' at h ⊢
  cases h with
  | none => exact .none
  | some h => exact .some ⟨h.1, h.2.1.trans hrest, h.2.2.1.trans hrest', h.2.2.2⟩

def Any : α → α → Prop := fun _ _ => True

/-- Tokens of the two lists that say the same. -/
structure AlikeIn (all all' : List Token) (t t' : Token) : Prop where
  alike : t.Alike t'
  mem : t ∈ all
  mem' : t' ∈ all'

def EndsIn (all : List Token) (s : Span) : Prop := ∃ t ∈ all, s.stop = t.span.stop

def BothEndIn (all all' : List Token) (s s' : Span) : Prop := EndsIn all s ∧ EndsIn all' s'

theorem BothEndIn.through {all all' : List Token} {s s' : Span} (h : BothEndIn all all' s s')
    (start start' : Span) : BothEndIn all all' (start.through s) (start'.through s') := h

theorem AlikeIn.ends {all all' : List Token} {t t' : Token} (h : AlikeIn all all' t t') :
    BothEndIn all all' t.span t'.span := ⟨⟨t, h.mem, rfl⟩, ⟨t', h.mem', rfl⟩⟩

theorem isSome_eq_of_rel {R : α → α → Prop} {o o' : Option α} (h : Option.Rel R o o') :
    o.isSome = o'.isSome := by
  cases h <;> rfl

theorem isNone_eq_of_rel {R : α → α → Prop} {o o' : Option α} (h : Option.Rel R o o') :
    o.isNone = o'.isNone := by
  cases h <;> rfl

namespace Parallel

variable {all all' : List Token} {R : α → α → Prop} {S : β → β → Prop} {p p' : Parser α}

theorem pure {x x' : α} (h : R x x') : Parallel all all' R (pure x) (pure x') :=
  fun _ _ _ _ halike => .some ⟨h, List.suffix_refl _, List.suffix_refl _, halike⟩

theorem failure : Steady all all' R failure :=
  fun _ _ _ _ _ => .none

theorem bind {f f' : α → Parser β} (h : Parallel all all' R p p')
    (hf : ∀ x x', R x x' → Parallel all all' S (f x) (f' x')) :
    Parallel all all' S (p >>= f) (p' >>= f') := by
  intro ts ts' hts hts' halike
  have hp := h ts ts' hts hts' halike
  rw [RunAlike] at hp ⊢
  rw [run_bind, run_bind]
  generalize p ts = r at hp
  generalize p' ts' = r' at hp
  cases hp with
  | none => exact .none
  | some hr =>
    obtain ⟨hx, hrest, hrest', hrests⟩ := hr
    have hrun := hf _ _ hx _ _ (hrest.trans hts) (hrest'.trans hts') hrests
    rw [RunAlike] at hrun
    rw [Option.bind_some, Option.bind_some]
    generalize f _ _ = s at hrun ⊢
    generalize f' _ _ = s' at hrun ⊢
    cases hrun with
    | none => exact .none
    | some hs =>
      obtain ⟨hy, hlast, hlast', hlasts⟩ := hs
      exact .some ⟨hy, hlast.trans hrest, hlast'.trans hrest', hlasts⟩

theorem mono {R' : α → α → Prop} (h : Parallel all all' R p p') (hR : ∀ x x', R x x' → R' x x') :
    Parallel all all' R' p p' := by
  intro ts ts' hts hts' halike
  exact (h ts ts' hts hts' halike).strengthen fun _ _ _ _ hx _ _ _ => hR _ _ hx

theorem ite {b b' : Bool} (hb : b = b') {q q' : Parser α} (h : b = true → Parallel all all' R p p')
    (h' : b = false → Parallel all all' R q q') :
    Parallel all all' R (if b then p else q) (if b' then p' else q') := by
  subst hb
  cases b with
  | true => exact h rfl
  | false => exact h' rfl

theorem token : Steady all all' (AlikeIn all all') token := by
  intro ts ts' hts hts' halike
  cases halike with
  | nil => exact .none
  | cons ht hrest =>
    exact .some ⟨⟨ht, hts.mem List.mem_cons_self, hts'.mem List.mem_cons_self⟩,
      List.suffix_cons _ _, List.suffix_cons _ _, hrest⟩

theorem ahead {f : List Token → Bool} (hf : Respects (List.Forall₂ Alike) f) :
    Steady all all' Eq (ahead f) :=
  fun _ _ _ _ halike => .some ⟨hf _ _ halike, List.suffix_refl _, List.suffix_refl _, halike⟩

variable {q : Token → Bool}

theorem tokenIf (hq : Respects Alike q) :
    Steady all all' (fun t t' => AlikeIn all all' t t' ∧ q t = true) (tokenIf q) := by
  refine token.bind fun t t' ht => ite (hq t t' ht.alike) (fun hb => pure ⟨ht, hb⟩) fun _ => failure

theorem tokenIf? (hq : Respects Alike q) :
    Steady all all' (Option.Rel (AlikeIn all all')) (tokenIf? q) := by
  intro ts ts' hts hts' halike
  have hnil : Option.Rel (AlikeIn all all') none none := .none
  cases halike with
  | nil => exact .some ⟨hnil, List.suffix_refl _, List.suffix_refl _, .nil⟩
  | @cons t t' rest rest' ht hrest =>
    have hin : AlikeIn all all' t t' :=
      ⟨ht, hts.mem List.mem_cons_self, hts'.mem List.mem_cons_self⟩
    rw [RunAlike, run_tokenIf?_cons, run_tokenIf?_cons, ← hq t t' ht]
    split_ifs
    · exact .some ⟨.some hin, List.suffix_cons _ _, List.suffix_cons _ _, hrest⟩
    · exact .some ⟨hnil, List.suffix_refl _, List.suffix_refl _, .cons ht hrest⟩

theorem symbol (text : String) :
    Steady all all' (BothEndIn all all') (symbol text) :=
  (tokenIf (.symbol text)).bind fun _ _ ht => pure ht.1.ends

theorem keyword (word : String) :
    Steady all all' (BothEndIn all all') (keyword word) :=
  (tokenIf (.keyword word)).bind fun _ _ ht => pure ht.1.ends

theorem span? {t t' : Option Token} (h : Option.Rel (AlikeIn all all') t t') :
    Option.Rel (BothEndIn all all') (t.map (·.span)) (t'.map (·.span)) := by
  cases h with
  | none => exact .none
  | some ht => exact .some ht.ends

theorem symbol? (text : String) :
    Steady all all' (Option.Rel (BothEndIn all all')) (symbol? text) :=
  (tokenIf? (.symbol text)).bind fun _ _ ht => pure (span? ht)

theorem keyword? (word : String) :
    Steady all all' (Option.Rel (BothEndIn all all')) (keyword? word) :=
  (tokenIf? (.keyword word)).bind fun _ _ ht => pure (span? ht)

theorem peek {f f' : List Token → Parser α} (h : ∀ ts ts', ts <:+ all → ts' <:+ all' →
    List.Forall₂ Alike ts ts' → RunAlike ts ts' R (f ts) (f' ts')) :
    Parallel all all' R (do f (← get)) (do f' (← get)) := h

theorem drop (h : Parallel all all' R p p') {t t' : Token} {ts ts' : List Token}
    (hts : t :: ts <:+ all) (hts' : t' :: ts' <:+ all')
    (halike : List.Forall₂ Alike (t :: ts) (t' :: ts')) :
    RunAlike (t :: ts) (t' :: ts') R (do set ts; p) (do set ts'; p') := by
  have hrun := h ts ts' ((List.suffix_cons t ts).trans hts) ((List.suffix_cons t' ts').trans hts')
    (List.forall₂_cons.mp halike).2
  exact hrun.extend (List.suffix_cons t ts) (List.suffix_cons t' ts') rfl rfl

theorem ifAhead {f : List Token → Bool} (hf : Respects (List.Forall₂ Alike) f) {q q' : Parser α}
    (h : Parallel all all' R p p') (h' : Parallel all all' R q q') :
    Parallel all all' R (do if ← Parser.ahead f then p else q)
      (do if ← Parser.ahead f then p' else q') :=
  (ahead hf).bind fun _ _ hb => ite hb (fun _ => h) fun _ => h'

theorem ifSymbol (text : String) {q q' : Parser α} (h : Parallel all all' R p p')
    (h' : Parallel all all' R q q') :
    Parallel all all' R (do if (← Parser.symbol? text).isSome then p else q)
      (do if (← Parser.symbol? text).isSome then p' else q') :=
  (symbol? text).bind fun _ _ hb => ite (isSome_eq_of_rel hb) (fun _ => h) fun _ => h'

theorem ifKeyword (word : String) {q q' : Parser α} (h : Parallel all all' R p p')
    (h' : Parallel all all' R q q') :
    Parallel all all' R (do if (← Parser.keyword? word).isSome then p else q)
      (do if (← Parser.keyword? word).isSome then p' else q') :=
  (keyword? word).bind fun _ _ hb => ite (isSome_eq_of_rel hb) (fun _ => h) fun _ => h'

theorem many {more : List Token → Bool} (hmore : Respects (List.Forall₂ Alike) more)
    (h : Parallel all all' R p p') :
    Parallel all all' (List.Forall₂ R) (many more p) (many more p') := by
  have hupTo : ∀ bound, Parallel all all' (List.Forall₂ R) (manyUpTo more p bound)
      (manyUpTo more p' bound) := by
    intro bound
    induction bound with
    | zero => exact pure .nil
    | succ bound ih =>
      refine ifAhead hmore ?_ (pure .nil)
      exact h.bind fun x x' hx => ih.bind fun xs xs' hxs => pure (.cons hx hxs)
  intro ts ts' hts hts' halike
  have hmany : ∀ (p : Parser α) ts, Parser.many more p ts = manyUpTo more p ts.length ts :=
    fun _ _ => rfl
  rw [RunAlike, hmany, hmany, ← halike.length_eq]
  exact hupTo ts.length ts ts' hts hts' halike

theorem iterate {step step' : α → Parser (Option α)}
    (h : ∀ x x', R x x' → Parallel all all' (Option.Rel R) (step x) (step' x')) {x x' : α}
    (hx : R x x') : Parallel all all' R (iterate step x) (iterate step' x') := by
  have hupTo : ∀ bound x x', R x x' → Parallel all all' R (iterateUpTo step bound x)
      (iterateUpTo step' bound x') := by
    intro bound
    induction bound with
    | zero => exact fun x x' hx => pure hx
    | succ bound ih =>
      intro x x' hx
      refine (h x x' hx).bind fun y y' hy => ?_
      cases hy with
      | none => exact pure hx
      | some hy => exact ih _ _ hy
  intro ts ts' hts hts' halike
  have hiterate : ∀ (step : α → Parser (Option α)) x ts,
      Parser.iterate step x ts = iterateUpTo step ts.length x ts := fun _ _ _ => rfl
  rw [RunAlike, hiterate, hiterate, ← halike.length_eq]
  exact hupTo ts.length x x' hx ts ts' hts hts' halike

theorem commaList (h : Parallel all all' R p p') :
    Parallel all all' (List.Forall₂ R) (commaList p) (commaList p') := by
  refine h.bind fun x x' hx => ?_
  refine (many (Respects.symbol ",").first ((symbol ",").bind fun _ _ _ => h)).bind ?_
  exact fun xs xs' hxs => pure (.cons hx hxs)

theorem commaListUpTo (close : String) (h : Parallel all all' R p p') :
    Parallel all all' (fun r r' => List.Forall₂ R r.1 r'.1 ∧ BothEndIn all all' r.2 r'.2)
      (commaListUpTo close p) (commaListUpTo close p') := by
  have hclose : Respects (List.Forall₂ Alike) (first (·.isSymbol close)) :=
    (Respects.symbol close).first
  refine (many hclose.not ?_).bind fun xs xs' hxs =>
    (symbol close).bind fun s s' hs => pure ⟨hxs, hs⟩
  refine h.bind fun x x' hx => (symbol? ",").bind fun o o' ho => ?_
  refine (ahead hclose).bind fun b b' hb => ite ?_ (fun _ => failure) fun _ => pure hx
  rw [isNone_eq_of_rel ho, hb]

theorem parenthesized (h : Parallel all all' R p p') :
    Parallel all all' R (parenthesized p) (parenthesized p') :=
  (symbol "(").bind fun _ _ _ => h.bind fun _ _ hx => (symbol ")").bind fun _ _ _ => pure hx

theorem className :
    Steady all all' (fun t t' => AlikeIn all all' t t' ∧ isClassName t = true) className :=
  tokenIf .isClassName

theorem parameterAmpersand : Respects (List.Forall₂ Alike) atParameterAmpersand :=
  (Respects.symbol "&").first.and
    (((Respects.kind .variable).or (.symbol "...")).or (.symbol "&")).second

theorem joinedTypes {p p' : Parser Unit} (h : Parallel all all' Any p p') :
    Parallel all all' Any (joinedTypes p) (joinedTypes p') := by
  have hmore : Respects (List.Forall₂ Alike) atTypeOperator :=
    (Respects.symbol "|").first.or ((Respects.symbol "&").first.and parameterAmpersand.not)
  have hnext : Parallel all all' Any (do let _ ← Parser.token; p) (do let _ ← Parser.token; p') :=
    token.bind fun _ _ _ => h
  exact h.bind fun _ _ _ => (many hmore hnext).bind fun _ _ _ => pure trivial

theorem typeHint : Steady all all' Any typeHint := by
  have hsimple : Steady all all' Any simpleType :=
    (tokenIf .isAnyName).bind fun _ _ _ => pure trivial
  refine (symbol? "?").bind fun _ _ _ => joinedTypes ?_
  exact ifAhead (Respects.symbol "(").first (parenthesized (joinedTypes hsimple)) hsimple

theorem resultType : Steady all all' Any resultType :=
  ifSymbol ":" typeHint (pure trivial)

end Parallel

end Parser

end FactoryLint.Php
