import FactoryLint.Proofs.Php.Layout.Expr

namespace FactoryLint.Php.Parser

open Token (Alike)

def BodyAlike (all all' : List Token) (r r' : Body × Span) : Prop :=
  List.Forall₂ (StmtAlike all all') r.1.stmts r'.1.stmts ∧ BothEndIn all all' r.2 r'.2

structure BranchesAlike (all all' : List Token) (r r' : Branches) : Prop where
  elseIfs : List.Forall₂ (AlikeBelow all all') (r.elseIfs.flatMap ElseIf.parts)
    (r'.elseIfs.flatMap ElseIf.parts)
  otherwise : List.Forall₂ (StmtAlike all all') (r.otherwise.toList.flatMap Body.stmts)
    (r'.otherwise.toList.flatMap Body.stmts)
  stop : BothEndIn all all' r.stop r'.stop

theorem getD_ends {all all' : List Token} {o o' : Option Span} {stop stop' : Span}
    (h : Option.Rel (BothEndIn all all') o o') (hstop : BothEndIn all all' stop stop') :
    BothEndIn all all' (o.getD stop) (o'.getD stop') := by
  cases h with
  | none => exact hstop
  | some h => exact h

theorem getLast?_rel {α : Type} {R : α → α → Prop} {xs xs' : List α} (h : List.Forall₂ R xs xs') :
    Option.Rel R xs.getLast? xs'.getLast? := by
  induction h with
  | nil => exact .none
  | @cons x x' xs xs' hx hxs ih =>
    rw [List.getLast?_cons, List.getLast?_cons]
    generalize xs.getLast? = o at ih ⊢
    generalize xs'.getLast? = o' at ih ⊢
    cases ih with
    | none => exact .some hx
    | some h => exact .some h

theorem map_rel {α β : Type} {R : α → α → Prop} {S : β → β → Prop} {f : α → β} {o o' : Option α}
    (h : Option.Rel R o o') (hf : ∀ x x', R x x' → S (f x) (f x')) :
    Option.Rel S (o.map f) (o'.map f) := by
  cases h with
  | none => exact .none
  | some h => exact .some (hf _ _ h)

namespace Parallel

variable {d : Nested} (hd : d.IsParallel) {all all' : List Token}

include hd

theorem stmtsUntil (words : List String) :
    Steady all all' (List.Forall₂ (StmtAlike all all')) (stmtsUntil d words) :=
  stmts hd (Respects.isEmpty.not.and (Respects.any words .keyword).first.not)

theorem loopBody (closing : String) :
    Steady all all' (BodyAlike all all') (loopBody d closing) := by
  refine ifSymbol ":" ?_ ((hd.stmt _ _).bind fun s s' hs => pure ⟨.cons hs .nil, hs.ends⟩)
  exact (stmtsUntil hd _).bind fun _ _ hbody => (keyword closing).bind fun _ _ _ =>
    terminator.bind fun _ _ hstop => pure ⟨hbody, hstop⟩

theorem plainBranches {stop stop' : Span} (hstop : BothEndIn all all' stop stop') :
    Parallel all all' (BranchesAlike all all') (plainBranches d stop) (plainBranches d stop') := by
  have helse : Respects (List.Forall₂ Alike) fun ts =>
      first (·.isKeyword "else") ts && !second (·.isSymbol ":") ts :=
    (Respects.keyword "else").first.and (Respects.symbol ":").second.not
  have helseif : Steady all all' (fun r r' : Expr × Stmt => StmtAlike all all' r.2 r'.2) (do
      let _ ← Parser.token
      let condition ← Parser.parenthesized (d.expr 0)
      let s ← d.stmt
      return (condition, s)) :=
    token.bind fun _ _ _ => (parenthesized (hd.expr _ _ 0)).bind fun _ _ _ =>
      (hd.stmt _ _).bind fun _ _ hs => pure hs
  refine (many (Respects.keyword "elseif").first helseif).bind fun clauses clauses' h => ?_
  have helseIfs : List.Forall₂ (AlikeBelow all all')
      ((clauses.map fun r => ElseIf.mk r.1 (.statement r.2)).flatMap ElseIf.parts)
      ((clauses'.map fun r => ElseIf.mk r.1 (.statement r.2)).flatMap ElseIf.parts) := by
    rw [List.flatMap_map, List.flatMap_map]
    exact forall₂_flatMap (fun r r' hr => .cons (alikeBelow_expr r.1 r'.1) (.cons hr.below .nil)) h
  have hlast := getD_ends (map_rel (f := (·.2.span)) (getLast?_rel h) fun _ _ hr => hr.ends) hstop
  refine ifAhead helse ?_ (pure ⟨helseIfs, .nil, hlast⟩)
  exact token.bind fun _ _ _ => (hd.stmt _ _).bind fun s s' hs =>
    pure ⟨helseIfs, .cons hs .nil, hs.ends⟩

theorem colonBranches : Steady all all' (fun r r' : List Stmt × Branches =>
    List.Forall₂ (StmtAlike all all') r.1 r'.1 ∧ BranchesAlike all all' r.2 r'.2)
    (colonBranches d) := by
  have helseif : Steady all all'
      (fun x x' : ElseIf => List.Forall₂ (AlikeBelow all all') x.parts x'.parts) (do
      let _ ← Parser.token
      let condition ← Parser.parenthesized (d.expr 0)
      let _ ← Parser.symbol ":"
      return .mk condition (.delimited (← Parser.stmtsUntil d ["elseif", "else", "endif"]))) :=
    token.bind fun _ _ _ => (parenthesized (hd.expr _ _ 0)).bind fun e e' _ =>
      (symbol ":").bind fun _ _ _ => (stmtsUntil hd _).bind fun _ _ hs =>
        pure (.cons (alikeBelow_expr e e') (forall₂_stmts hs))
  refine (stmtsUntil hd _).bind fun body body' hbody =>
    (many (Respects.keyword "elseif").first helseif).bind fun elseIfs elseIfs' helseIfs => ?_
  have hrest : ∀ {otherwise otherwise' : Option Body},
      List.Forall₂ (StmtAlike all all') (otherwise.toList.flatMap Body.stmts)
        (otherwise'.toList.flatMap Body.stmts) →
      Parallel all all' (fun r r' : List Stmt × Branches =>
          List.Forall₂ (StmtAlike all all') r.1 r'.1 ∧ BranchesAlike all all' r.2 r'.2)
        (do
          let _ ← Parser.keyword "endif"
          return (body, ⟨elseIfs, otherwise, ← Parser.terminator⟩))
        (do
          let _ ← Parser.keyword "endif"
          return (body', ⟨elseIfs', otherwise', ← Parser.terminator⟩)) := fun ho =>
    (keyword "endif").bind fun _ _ _ => terminator.bind fun _ _ hstop =>
      pure ⟨hbody, forall₂_flatMap (fun _ _ h => h) helseIfs, ho, hstop⟩
  refine ifKeyword "else" ?_ (hrest .nil)
  exact (symbol ":").bind fun _ _ _ => (stmtsUntil hd _).bind fun _ _ ho =>
    hrest (by simpa [Body.stmts] using ho)

variable (start start' : Span)

omit hd in
theorem branch (e e' : Expr) {body body' : Body} {r r' : Branches}
    (hbody : List.Forall₂ (StmtAlike all all') body.stmts body'.stmts)
    (h : BranchesAlike all all' r r') :
    StmtAlike all all' (.control (start.through r.stop) (.branch e body r.elseIfs r.otherwise))
      (.control (start'.through r'.stop) (.branch e' body' r'.elseIfs r'.otherwise)) :=
  .control (h.stop.through _ _) (.cons (alikeBelow_expr e e')
    (List.rel_append (List.rel_append (forall₂_stmts hbody) h.elseIfs) (forall₂_stmts h.otherwise)))

theorem branchFrom : Parallel all all' (StmtAlike all all') (branchFrom d start)
    (branchFrom d start') := by
  refine (parenthesized (hd.expr _ _ 0)).bind fun e e' _ => ifSymbol ":" ?_ ?_
  · exact (colonBranches hd).bind fun _ _ h => pure (branch start start' e e' h.1 h.2)
  · exact (hd.stmt _ _).bind fun s s' hs => (plainBranches hd hs.ends).bind fun _ _ h =>
      pure (branch start start' e e' (.cons hs .nil) h)

theorem whileFrom : Parallel all all' (StmtAlike all all') (whileFrom d start)
    (whileFrom d start') :=
  (parenthesized (hd.expr _ _ 0)).bind fun e e' _ => (loopBody hd _).bind fun _ _ hbody =>
    pure (.control (hbody.2.through _ _) (.cons (alikeBelow_expr e e') (forall₂_stmts hbody.1)))

theorem doFrom : Parallel all all' (StmtAlike all all') (doFrom d start) (doFrom d start') :=
  (hd.stmt _ _).bind fun _ _ hs => (keyword "while").bind fun _ _ _ =>
    (parenthesized (hd.expr _ _ 0)).bind fun e e' _ => terminator.bind fun _ _ hstop =>
      pure (.control (hstop.through _ _) (.cons hs.below (.cons (alikeBelow_expr e e') .nil)))

theorem foreachFrom : Parallel all all' (StmtAlike all all') (foreachFrom d start)
    (foreachFrom d start') := by
  have hcollection : Steady all all' Any (do
      let e ← d.expr 0
      let _ ← Parser.keyword "as"
      let _ ← d.expr 0
      if (← Parser.symbol? "=>").isSome then
        let _ ← d.expr 0
      return e) := by
    refine (hd.expr _ _ 0).bind fun _ _ _ => (keyword "as").bind fun _ _ _ =>
      (hd.expr _ _ 0).bind fun _ _ _ => ifSymbol "=>" ?_ (pure trivial)
    exact (hd.expr _ _ 0).bind fun _ _ _ => pure trivial
  exact (parenthesized hcollection).bind fun e e' _ => (loopBody hd _).bind fun _ _ hbody =>
    pure (.control (hbody.2.through _ _) (.cons (alikeBelow_expr e e') (forall₂_stmts hbody.1)))

theorem forFrom : Parallel all all' (StmtAlike all all') (forFrom d start) (forFrom d start') := by
  refine (symbol "(").bind fun _ _ _ => (commaListUpTo ";" (hd.expr _ _ 0)).bind
    fun _ _ h₁ => (commaListUpTo ";" (hd.expr _ _ 0)).bind
    fun _ _ h₂ => (commaListUpTo ")" (hd.expr _ _ 0)).bind
    fun _ _ h₃ => (loopBody hd _).bind fun _ _ hbody => ?_
  have hexprs := List.rel_append (List.rel_append h₁.1 h₂.1) h₃.1
  exact pure (.control (hbody.2.through _ _)
    (List.rel_append (forall₂_exprs hexprs) (forall₂_stmts hbody.1)))

theorem switchCase {closing : Token → Bool} (hclosing : Respects Alike closing) :
    Steady all all' (List.Forall₂ (StmtAlike all all')) (switchCase d closing) := by
  have hmore : Respects (List.Forall₂ Alike) fun ts => !ts.isEmpty &&
      !first (fun t => t.isKeyword "case" || t.isKeyword "default" || closing t) ts :=
    Respects.isEmpty.not.and
      (((Respects.keyword "case").or (.keyword "default")).or hclosing).first.not
  have hrest : Steady all all' (List.Forall₂ (StmtAlike all all')) (do
      let _ ← Parser.tokenIf fun t => t.isSymbol ":" || t.isSymbol ";"
      Parser.many (fun ts => !ts.isEmpty && !first
        (fun t => t.isKeyword "case" || t.isKeyword "default" || closing t) ts) d.stmt) :=
    (tokenIf ((Respects.symbol ":").or (.symbol ";"))).bind fun _ _ _ => stmts hd hmore
  refine (keyword? "default").bind fun o o' ho => ite (isNone_eq_of_rel ho) (fun _ => ?_) fun _ => hrest
  exact (keyword "case").bind fun _ _ _ => (hd.expr _ _ 0).bind fun _ _ _ => hrest

omit hd in
theorem choice {span span' : Span} (hends : BothEndIn all all' span span') (e e' : Expr)
    {cases cases' : List (List Stmt)}
    (h : List.Forall₂ (List.Forall₂ (StmtAlike all all')) cases cases') :
    StmtAlike all all' (.control (start.through span) (.choice e cases))
      (.control (start'.through span') (.choice e' cases')) :=
  .control (hends.through _ _)
    (.cons (alikeBelow_expr e e') (forall₂_stmts (List.rel_flatten h)))

theorem switchFrom : Parallel all all' (StmtAlike all all') (switchFrom d start)
    (switchFrom d start') := by
  refine (parenthesized (hd.expr _ _ 0)).bind fun e e' _ => ifSymbol ":" ?_ ?_
  · have hclosing := Respects.keyword "endswitch"
    exact (many hclosing.first.not (switchCase hd hclosing)).bind fun _ _ hcases =>
      (keyword "endswitch").bind fun _ _ _ => terminator.bind fun _ _ hstop =>
        pure (choice start start' hstop e e' hcases)
  · have hclosing := Respects.symbol "\x7d"
    exact (symbol "\x7b").bind fun _ _ _ => (many hclosing.first.not (switchCase hd hclosing)).bind
      fun _ _ hcases => (symbol "\x7d").bind fun _ _ hstop =>
        pure (choice start start' hstop e e' hcases)

theorem catchClause : Steady all all' (BlockAlike all all') (catchClause d) := by
  have htype : Steady all all' Any (do
      Parser.typeHint
      let _ ← Parser.tokenIf? (·.kind == .variable)) :=
    typeHint.bind fun _ _ _ => (tokenIf? (.kind .variable)).bind fun _ _ _ => pure trivial
  exact (keyword "catch").bind fun _ _ _ => (parenthesized htype).bind fun _ _ _ => block hd

omit hd in
theorem attempt {body body' : List Stmt} {handlers handlers' : List (List Stmt × Span)}
    {last last' : Option (List Stmt × Span)}
    (hbody : List.Forall₂ (StmtAlike all all') body body')
    (hhandlers : List.Forall₂ (BlockAlike all all') handlers handlers')
    (hlast : Option.Rel (BlockAlike all all') last last') :
    Parallel all all' (StmtAlike all all')
      (match (handlers ++ last.toList).getLast? with
        | none => Alternative.failure
        | some (_, stop) => Pure.pure (Stmt.control (start.through stop)
          (.attempt body (handlers.map (·.1)) (last.map (·.1)))))
      (match (handlers' ++ last'.toList).getLast? with
        | none => Alternative.failure
        | some (_, stop) => Pure.pure (Stmt.control (start'.through stop)
          (.attempt body' (handlers'.map (·.1)) (last'.map (·.1))))) := by
  have hblocks : List.Forall₂ (StmtAlike all all')
      (body ++ (handlers.map (·.1)).flatten ++ (last.map (·.1)).getD [])
      (body' ++ (handlers'.map (·.1)).flatten ++ (last'.map (·.1)).getD []) := by
    refine List.rel_append (List.rel_append hbody ?_) ?_
    · rw [← List.flatMap_def, ← List.flatMap_def]
      exact forall₂_flatMap (fun _ _ h => h.1) hhandlers
    · cases hlast with
      | none => exact .nil
      | some h => exact h.1
  have hlasts : List.Forall₂ (BlockAlike all all') last.toList last'.toList := by
    cases hlast with
    | none => exact .nil
    | some h => exact .cons h .nil
  have hend := getLast?_rel (List.rel_append hhandlers hlasts)
  generalize (handlers ++ last.toList).getLast? = o at hend ⊢
  generalize (handlers' ++ last'.toList).getLast? = o' at hend ⊢
  cases hend with
  | none => exact failure
  | some h => exact pure (.control (h.2.through _ _) (forall₂_stmts hblocks))

theorem tryFrom : Parallel all all' (StmtAlike all all') (tryFrom d start) (tryFrom d start') := by
  refine (block hd).bind fun _ _ hbody => (many (Respects.keyword "catch").first (catchClause hd)).bind
    fun _ _ hhandlers => ifKeyword "finally" ?_ (attempt start start' hbody.1 hhandlers .none)
  exact (block hd).bind fun _ _ hlast => attempt start start' hbody.1 hhandlers (.some hlast)

theorem declareFrom : Parallel all all' (StmtAlike all all') (declareFrom d start)
    (declareFrom d start') := by
  have hend : Respects Alike fun t => t.isSymbol ";" || t.kind == .closeTag :=
    (Respects.symbol ";").or (.kind .closeTag)
  refine (symbol "(").bind fun _ _ _ => (commaListUpTo ")" (constantEntry hd)).bind fun _ _ _ =>
    ifAhead hend.first ?_ ?_
  · exact terminator.bind fun _ _ hstop => pure (.other (hstop.through _ _))
  · exact (loopBody hd _).bind fun _ _ hbody => pure (.other (hbody.2.through _ _))

end Parallel

end FactoryLint.Php.Parser
