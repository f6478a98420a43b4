import FactoryLint.Php.Parser.Stmt
import FactoryLint.Proofs.Php.Declared
import FactoryLint.Proofs.Php.Written
import FactoryLint.Proofs.Php.Layout.Parallel

namespace FactoryLint.Php

open FactoryLint.Php.Parser
open Token (Alike)

def SameName (all all' : List Token) (name name' : String) : Prop :=
  ∃ t t', AlikeIn all all' t t' ∧ isClassName t = true ∧ t.text = name ∧ t'.text = name'

def isMark (t : Token) : Bool :=
  t.isSymbol "\x7b" || t.isSymbol ";" || t.kind == .closeTag

def isSpaceName (t : Token) : Bool := isFreeWord t || t.kind == .qualifiedName

/-- The head of a namespace stands at the start of some tokens, after its keyword `t`, and its span
ends with one of those that follow. -/
def IsHead (t : Token) (ts : List Token) (span : Span) : Prop :=
  ∃ (name : Option Token) (mark : Token) (rest : List Token), ts = name.toList ++ mark :: rest ∧
    (∀ n ∈ name, isSpaceName n = true) ∧ isMark mark = true ∧
    span.start = t.span.start ∧ EndsIn (mark :: rest) span

def IsUse (t : Token) (ts rest : List Token) (span : Span) : Prop :=
  t.isKeyword "use" = true ∧ useFrom t.span ts = some (.useDecl span, rest)

inductive StopAlike (all all' : List Token) : Visited → Visited → Prop
  | silent {v v' : Visited} (h : v.IsSilent) (h' : v'.IsSilent) : StopAlike all all' v v'
  | enter {t t' : Token} {ts ts' : List Token} {span span' : Span} {body body' : List Stmt}
    (hts : t :: ts <:+ all) (hts' : t' :: ts' <:+ all')
    (halike : List.Forall₂ Alike (t :: ts) (t' :: ts')) (hkeyword : t.isKeyword "namespace" = true)
    (hhead : IsHead t ts span) (hhead' : IsHead t' ts' span') :
    StopAlike all all' (.stmt (.namespaceDecl span body)) (.stmt (.namespaceDecl span' body'))
  | use {t t' : Token} {ts ts' rest rest' : List Token} {span span' : Span}
    (hts : t :: ts <:+ all) (hts' : t' :: ts' <:+ all')
    (halike : List.Forall₂ Alike (t :: ts) (t' :: ts')) (huse : IsUse t ts rest span)
    (huse' : IsUse t' ts' rest' span') (hrest : List.Forall₂ Alike rest rest') :
    StopAlike all all' (.stmt (.useDecl span)) (.stmt (.useDecl span'))
  | declare {span span' : Span} {name : String} {parent parent' : Option String}
    {members members' : List Member} (hparent : Option.Rel (SameName all all') parent parent') :
    StopAlike all all' (.stmt (.classDecl span name parent members))
      (.stmt (.classDecl span' name parent' members'))

/-- The stops of the walks that start here stand side by side. -/
def AlikeBelow (all all' : List Token) (v v' : Visited) : Prop :=
  List.Forall₂ (StopAlike all all') (v.preorder entersStatements) (v'.preorder entersStatements)

/-- Statements that are read side by side. -/
structure StmtAlike (all all' : List Token) (s s' : Stmt) : Prop where
  ends : BothEndIn all all' s.span s'.span
  below : AlikeBelow all all' (.stmt s) (.stmt s')

def MembersAlike (all all' : List Token) (ms ms' : List Member) : Prop :=
  List.Forall₂ (StmtAlike all all') (ms.flatMap Member.stmts) (ms'.flatMap Member.stmts)

variable {all all' : List Token}

theorem Parser.EndsIn.mono {more : List Token} {s : Span} (h : EndsIn all s) (hsub : all ⊆ more) :
    EndsIn more s := by
  obtain ⟨t, ht, hs⟩ := h
  exact ⟨t, hsub ht, hs⟩

section mono

variable {more more' : List Token} (hall : all <:+ more) (hall' : all' <:+ more')

include hall hall'

theorem SameName.mono {name name' : String} (h : SameName all all' name name') :
    SameName more more' name name' := by
  obtain ⟨t, t', ht, hname⟩ := h
  exact ⟨t, t', ⟨ht.alike, hall.subset ht.mem, hall'.subset ht.mem'⟩, hname⟩

theorem StopAlike.mono {v v' : Visited} (h : StopAlike all all' v v') :
    StopAlike more more' v v' := by
  cases h with
  | silent h h' => exact .silent h h'
  | enter hts hts' halike hkeyword hhead hhead' =>
    exact .enter (hts.trans hall) (hts'.trans hall') halike hkeyword hhead hhead'
  | use hts hts' halike huse huse' hrest =>
    exact .use (hts.trans hall) (hts'.trans hall') halike huse huse' hrest
  | declare hparent =>
    refine .declare ?_
    cases hparent with
    | none => exact .none
    | some hp => exact .some (hp.mono hall hall')

theorem StmtAlike.mono {s s' : Stmt} (h : StmtAlike all all' s s') : StmtAlike more more' s s' :=
  ⟨⟨h.ends.1.mono hall.subset, h.ends.2.mono hall'.subset⟩, h.below.imp fun _ _ h => h.mono hall hall'⟩

end mono

theorem alikeBelow_expr (e e' : Expr) : AlikeBelow all all' (.expr e) (.expr e') :=
  .cons (.silent trivial trivial) .nil

theorem forall₂_flatMap {α β : Type} {R : α → α → Prop} {S : β → β → Prop} {f : α → List β}
    (hf : ∀ x x', R x x' → List.Forall₂ S (f x) (f x')) {xs xs' : List α}
    (h : List.Forall₂ R xs xs') : List.Forall₂ S (xs.flatMap f) (xs'.flatMap f) := by
  induction h with
  | nil => exact .nil
  | cons hx _ ih => exact List.rel_append (hf _ _ hx) ih

theorem AlikeBelow.stmt {s s' : Stmt} (h : StopAlike all all' (.stmt s) (.stmt s'))
    (hparts : List.Forall₂ (AlikeBelow all all') (Visited.stmt s).parts (Visited.stmt s').parts) :
    AlikeBelow all all' (.stmt s) (.stmt s') := by
  have hpreorder : ∀ s : Stmt, (Visited.stmt s).preorder entersStatements =
      .stmt s :: (Visited.stmt s).parts.flatMap (Visited.preorder entersStatements) := fun s =>
    congrArg (Visited.stmt s :: ·) (inside_eq entersStatements (.stmt s))
  rw [AlikeBelow, hpreorder, hpreorder]
  exact .cons h (forall₂_flatMap (fun _ _ h => h) hparts)

theorem forall₂_stmts {ss ss' : List Stmt} (h : List.Forall₂ (StmtAlike all all') ss ss') :
    List.Forall₂ (AlikeBelow all all') (ss.map .stmt) (ss'.map .stmt) := by
  rw [List.forall₂_map_left_iff, List.forall₂_map_right_iff]
  exact h.imp fun _ _ h => h.below

namespace StmtAlike

variable {span span' : Span} (h : BothEndIn all all' span span')

include h

theorem other : StmtAlike all all' (.other span) (.other span') :=
  ⟨h, .stmt (.silent trivial trivial) .nil⟩

theorem expression (e e' : Expr) : StmtAlike all all' (.expression span e) (.expression span' e') :=
  ⟨h, .stmt (.silent trivial trivial) (.cons (alikeBelow_expr e e') .nil)⟩

theorem ret {e e' : Option Expr} (he : Option.Rel Any e e') :
    StmtAlike all all' (.ret span e) (.ret span' e') := by
  refine ⟨h, .stmt (.silent trivial trivial) ?_⟩
  cases he with
  | none => exact .nil
  | some _ => exact .cons (alikeBelow_expr _ _) .nil

theorem block {body body' : List Stmt} (hbody : List.Forall₂ (StmtAlike all all') body body') :
    StmtAlike all all' (.block span body) (.block span' body') :=
  ⟨h, .stmt (.silent trivial trivial) (forall₂_stmts hbody)⟩

theorem control {form form' : Control}
    (hparts : List.Forall₂ (AlikeBelow all all') form.parts form'.parts) :
    StmtAlike all all' (.control span form) (.control span' form') :=
  ⟨h, .stmt (.silent trivial trivial) hparts⟩

theorem classDecl (name : String) {parent parent' : Option String} {members members' : List Member}
    (hparent : Option.Rel (SameName all all') parent parent')
    (hmembers : MembersAlike all all' members members') :
    StmtAlike all all' (.classDecl span name parent members)
      (.classDecl span' name parent' members') :=
  ⟨h, .stmt (.declare hparent) (forall₂_stmts hmembers)⟩

end StmtAlike

theorem forall₂_exprs {es es' : List Expr} (h : List.Forall₂ Any es es') :
    List.Forall₂ (AlikeBelow all all') (es.map .expr) (es'.map .expr) := by
  rw [List.forall₂_map_left_iff, List.forall₂_map_right_iff]
  exact h.imp fun e e' _ => alikeBelow_expr e e'

/-- Parsers for one level of nesting run side by side on all tokens. -/
structure Nested.IsParallel (d : Nested) : Prop where
  expr : ∀ all all' power, Parallel all all' Any (d.expr power) (d.expr power)
  stmt : ∀ all all', Parallel all all' (StmtAlike all all') d.stmt d.stmt

end FactoryLint.Php
