import FactoryLint.Php.Parser.Program
import FactoryLint.Proofs.Php.Layout.Statement

namespace FactoryLint.Php

open FactoryLint.Php.Parser
open Token (Alike)

namespace Parser

namespace Parallel

variable {d : Nested} (hd : d.IsParallel) {all all' : List Token}

theorem importAlias : Steady all all' Any importAlias :=
  ifKeyword "as" ((tokenIf .isFreeWord).bind fun _ _ _ => pure trivial) (pure trivial)

theorem importKind : Steady all all' Any importKind := by
  have hkind : Respects (List.Forall₂ Alike) fun ts =>
      first (fun t => t.isKeyword "function" || t.isKeyword "const") ts && second isAnyName ts :=
    ((Respects.keyword "function").or (.keyword "const")).first.and Respects.isAnyName.second
  exact ifAhead hkind (token.bind fun _ _ _ => pure trivial) (pure trivial)

theorem importEntry : Steady all all' Any importEntry :=
  importKind.bind fun _ _ _ => className.bind fun _ _ _ => importAlias

theorem useFrom (start start' : Span) : Parallel all all' (fun s s' => ∃ span span',
      s = .useDecl span ∧ s' = .useDecl span' ∧ BothEndIn all all' span span')
    (useFrom start) (useFrom start') := by
  have hrest : Parallel all all' (fun s s' => ∃ span span',
        s = Stmt.useDecl span ∧ s' = Stmt.useDecl span' ∧ BothEndIn all all' span span')
      (do return .useDecl (start.through (← Parser.terminator)))
      (do return .useDecl (start'.through (← Parser.terminator))) :=
    terminator.bind fun _ _ hstop => pure ⟨_, _, rfl, rfl, hstop.through _ _⟩
  have hnext : Steady all all' Any (do
      let _ ← Parser.token
      let _ ← Parser.className
      Parser.importAlias) :=
    token.bind fun _ _ _ => className.bind fun _ _ _ => importAlias
  refine importKind.bind fun _ _ _ => className.bind fun _ _ _ => ifSymbol "\\" ?_ ?_
  · exact (symbol "\x7b").bind fun _ _ _ => (commaListUpTo "\x7d" importEntry).bind fun _ _ _ => hrest
  · exact importAlias.bind fun _ _ _ => (many (Respects.symbol ",").first hnext).bind
      fun _ _ _ => hrest

theorem useFrom_run {t t' : Token} {ts ts' : List Token} (hts : t :: ts <:+ all)
    (hts' : t' :: ts' <:+ all') (halike : List.Forall₂ Alike (t :: ts) (t' :: ts'))
    (hkeyword : t.isKeyword "use" = true) :
    RunAlike ts ts' (StmtAlike all all') (Parser.useFrom t.span) (Parser.useFrom t'.span) := by
  obtain ⟨ht, hrest⟩ := List.forall₂_cons.mp halike
  have hrun := useFrom t.span t'.span ts ts' ((List.suffix_cons t ts).trans hts)
    ((List.suffix_cons t' ts').trans hts') hrest
  refine hrun.strengthen ?_
  rintro s s' rest rest' ⟨span, span', rfl, rfl, hends⟩ hr hr' hlast
  have hkeyword' : t'.isKeyword "use" = true := (ht.isKeyword "use").symm.trans hkeyword
  exact ⟨hends, .stmt (.use hts hts' halike ⟨hkeyword, hr⟩ ⟨hkeyword', hr'⟩ hlast) .nil⟩

/-- A namespace from the mark on that ends its head. -/
def namespaceBody (d : Nested) (start : Span) : Parser Stmt := do
  if ← atSymbol "\x7b" then
    let (body, stop) ← Parser.block d
    return .namespaceDecl (start.through stop) body
  else
    let stop ← Parser.terminator
    let body ← Parser.stmtsUntil d ["namespace"]
    let stop := (body.getLast?.map (·.span)).getD stop
    return .namespaceDecl (start.through stop) body

theorem namespaceFrom_eq (d : Nested) (start : Span) : namespaceFrom d start = (do
    let _ ← Parser.tokenIf? isSpaceName
    namespaceBody d start) := rfl

include hd in
theorem namespaceBody_parallel (start start' : Span) :
    Parallel all all' (fun s s' => ∃ span span' body body', s = .namespaceDecl span body ∧
        s' = .namespaceDecl span' body' ∧ span.start = start.start ∧ span'.start = start'.start ∧
        BothEndIn all all' span span' ∧ List.Forall₂ (StmtAlike all all') body body')
      (namespaceBody d start) (namespaceBody d start') := by
  refine ifAhead (Respects.symbol "\x7b").first ?_ ?_
  · exact (block hd).bind fun _ _ h =>
      pure ⟨_, _, _, _, rfl, rfl, rfl, rfl, h.2.through _ _, h.1⟩
  · refine terminator.bind fun _ _ hstop => (stmtsUntil hd _).bind fun _ _ hbody => ?_
    have hlast := getD_ends (map_rel (getLast?_rel hbody) fun _ _ h => h.ends) hstop
    exact pure ⟨_, _, _, _, rfl, rfl, rfl, rfl, hlast.through _ _, hbody⟩

theorem exists_mark {d : Nested} {start : Span} {ts : List Token} {r : Stmt × List Token}
    (h : namespaceBody d start ts = some r) : ∃ mark rest, ts = mark :: rest ∧ isMark mark = true := by
  cases ts with
  | nil => cases h
  | cons t ts =>
    refine ⟨t, ts, rfl, ?_⟩
    by_contra hmark
    simp only [isMark, Bool.or_eq_true, not_or, Bool.not_eq_true] at hmark
    obtain ⟨⟨hopen, hstop⟩, htag⟩ := hmark
    have hfirst : first (·.isSymbol "\x7b") (t :: ts) = false := hopen
    have hend : (t.isSymbol ";" || t.kind == .closeTag) = false := by rw [hstop, htag]; rfl
    rw [namespaceBody, run_bind, atSymbol, run_ahead, hfirst, Option.bind_some,
      if_neg Bool.false_ne_true, run_bind, Parser.terminator, run_bind, run_tokenIf_cons, hend] at h
    cases h

theorem exists_names (d : Nested) {ts ts' : List Token} (halike : List.Forall₂ Alike ts ts') :
    ∃ (name name' : Option Token) (rest rest' : List Token), ts = name.toList ++ rest ∧
      ts' = name'.toList ++ rest' ∧ List.Forall₂ Alike rest rest' ∧
      (∀ n ∈ name, isSpaceName n = true) ∧ (∀ n ∈ name', isSpaceName n = true) ∧
      (∀ start, namespaceFrom d start ts = namespaceBody d start rest) ∧
      ∀ start, namespaceFrom d start ts' = namespaceBody d start rest' := by
  have hrespects : Respects Alike isSpaceName := Respects.isFreeWord.or (.kind .qualifiedName)
  cases halike with
  | nil => exact ⟨none, none, [], [], rfl, rfl, .nil, nofun, nofun, fun _ => rfl, fun _ => rfl⟩
  | @cons n n' rest rest' hn hrest =>
    have hrun : ∀ n rest start, namespaceFrom d start (n :: rest) =
        namespaceBody d start (if isSpaceName n then rest else n :: rest) := by
      intro n rest start
      rw [namespaceFrom_eq, run_bind, run_tokenIf?_cons]
      split_ifs <;> rfl
    cases hname : isSpaceName n with
    | true =>
      have hname' := (hrespects n n' hn).symm.trans hname
      refine ⟨some n, some n', rest, rest', rfl, rfl, hrest, ?_, ?_, ?_, ?_⟩
      · rintro _ ⟨⟩
        exact hname
      · rintro _ ⟨⟩
        exact hname'
      · exact fun start => by rw [hrun, hname, if_pos rfl]
      · exact fun start => by rw [hrun, hname', if_pos rfl]
    | false =>
      have hname' := (hrespects n n' hn).symm.trans hname
      refine ⟨none, none, n :: rest, n' :: rest', rfl, rfl, .cons hn hrest, nofun, nofun, ?_, ?_⟩
      · exact fun start => by rw [hrun, hname, if_neg Bool.false_ne_true]
      · exact fun start => by rw [hrun, hname', if_neg Bool.false_ne_true]

include hd in
theorem namespaceFrom_run {t t' : Token} {ts ts' : List Token} (hts : t :: ts <:+ all)
    (hts' : t' :: ts' <:+ all') (halike : List.Forall₂ Alike (t :: ts) (t' :: ts'))
    (hkeyword : t.isKeyword "namespace" = true) :
    RunAlike ts ts' (StmtAlike all all') (namespaceFrom d t.span) (namespaceFrom d t'.span) := by
  obtain ⟨name, name', rest, rest', rfl, rfl, hrest, hname, hname', hfrom, hfrom'⟩ :=
    exists_names d (List.forall₂_cons.mp halike).2
  have hsuffix : rest <:+ all :=
    (List.suffix_append name.toList rest).trans ((List.suffix_cons t _).trans hts)
  have hsuffix' : rest' <:+ all' :=
    (List.suffix_append name'.toList rest').trans ((List.suffix_cons t' _).trans hts')
  -- the statements of the body are read from what follows the head, so they end after it
  have hbody : Parallel rest rest' _ _ _ := namespaceBody_parallel hd t.span t'.span
  have hrun := hbody rest rest' (List.suffix_refl _) (List.suffix_refl _) hrest
  refine RunAlike.extend (hrun.strengthen ?_) (List.suffix_append _ _) (List.suffix_append _ _)
    (hfrom _) (hfrom' _)
  rintro s s' last last' ⟨span, span', body, body', rfl, rfl, hstart, hstart', hends, hstmts⟩ hr hr' -
  obtain ⟨mark, more, rfl, hmark⟩ := exists_mark hr
  obtain ⟨mark', more', rfl, hmark'⟩ := exists_mark hr'
  have hstmts' : List.Forall₂ (StmtAlike all all') body body' :=
    hstmts.imp fun _ _ h => h.mono hsuffix hsuffix'
  refine ⟨⟨hends.1.mono hsuffix.subset, hends.2.mono hsuffix'.subset⟩, .stmt ?_
    (forall₂_stmts hstmts')⟩
  exact .enter hts hts' halike hkeyword ⟨name, mark, more, rfl, hname, hmark, hstart, hends.1⟩
    ⟨name', mark', more', rfl, hname', hmark', hstart', hends.2⟩

theorem isClassModifier : Respects Alike isClassModifier :=
  ((Respects.keyword "abstract").or (.keyword "final")).or (.keyword "readonly")

theorem atDeclaration : Respects (List.Forall₂ Alike) atDeclaration := by
  have hclass : Respects Alike fun t =>
      t.isKeyword "class" || t.isKeyword "trait" || t.isKeyword "interface" :=
    ((Respects.keyword "class").or (.keyword "trait")).or (.keyword "interface")
  have hmodified : Respects (List.Forall₂ Alike) fun ts => first Parser.isClassModifier ts &&
      second (fun t => Parser.isClassModifier t || t.isKeyword "class") ts :=
    isClassModifier.first.and (isClassModifier.or (.keyword "class")).second
  have hfunction : Respects (List.Forall₂ Alike) fun ts => first (·.isKeyword "function") ts &&
      (second isWord ts || second (·.isSymbol "&") ts && third isWord ts) :=
    (Respects.keyword "function").first.and
      (Respects.isWord.second.or ((Respects.symbol "&").second.and Respects.isWord.third))
  have henum : Respects (List.Forall₂ Alike) fun ts =>
      first (·.isKeyword "enum") ts && second isFreeWord ts :=
    (Respects.keyword "enum").first.and Respects.isFreeWord.second
  exact ((hclass.first.or hmodified).or henum).or hfunction

include hd

section

variable (start start' : Span)

theorem functionDeclFrom : Parallel all all' (StmtAlike all all') (functionDeclFrom d start)
    (functionDeclFrom d start') :=
  (keyword "function").bind fun _ _ _ => (symbol? "&").bind fun _ _ _ =>
    (tokenIf .isFreeWord).bind fun _ _ _ => (parameters hd).bind fun _ _ _ =>
      resultType.bind fun _ _ _ => (block hd).bind fun _ _ h =>
        pure (.control (h.2.through _ _) (forall₂_stmts h.1))

theorem classFrom : Parallel all all' (StmtAlike all all') (classFrom d start)
    (classFrom d start') := by
  refine (keyword "class").bind fun _ _ _ => (tokenIf .isFreeWord).bind fun name name' hname =>
    parent?.bind fun parent parent' hparent => interfaces.bind fun _ _ _ => (members hd).bind fun _ _ h => ?_
  have hsame : name.text = name'.text := by
    have hfree := (Respects.isFreeWord _ _ hname.1.alike).symm.trans hname.2
    have hword := hname.1.alike.word
    rw [Token.word_of_isFreeWord hname.2, Token.word_of_isFreeWord hfree] at hword
    exact String.toList_injective hword
  have hparents : Option.Rel (SameName all all') (parent.map (·.text)) (parent'.map (·.text)) :=
    map_rel hparent fun t t' ht => ⟨t, t', ht.1, ht.2, rfl, rfl⟩
  rw [hsame]
  exact pure (.classDecl (h.2.through _ _) _ hparents h.1)

theorem traitFrom : Parallel all all' (StmtAlike all all') (traitFrom d start)
    (traitFrom d start') :=
  (keyword "trait").bind fun _ _ _ => (tokenIf .isFreeWord).bind fun _ _ _ =>
    (members hd).bind fun _ _ h =>
      pure (.control (h.2.through _ _) (forall₂_stmts h.1))

theorem interfaceFrom : Parallel all all' (StmtAlike all all') (interfaceFrom d start)
    (interfaceFrom d start') :=
  (keyword "interface").bind fun _ _ _ => (tokenIf .isFreeWord).bind fun _ _ _ =>
    parent?.bind fun _ _ _ => (members hd).bind fun _ _ h => pure (.other (h.2.through _ _))

theorem enumFrom : Parallel all all' (StmtAlike all all') (enumFrom d start) (enumFrom d start') :=
  (keyword "enum").bind fun _ _ _ => (tokenIf .isFreeWord).bind fun _ _ _ =>
    resultType.bind fun _ _ _ => interfaces.bind fun _ _ _ =>
      (members hd).bind fun _ _ h => pure (.other (h.2.through _ _))

end

theorem declaration (start start' : Option Span) :
    Parallel all all' (StmtAlike all all') (declaration d start) (declaration d start') := by
  refine (many isClassModifier.first token).bind fun modifiers modifiers' hmodifiers => ?_
  have hempty : modifiers.isEmpty = modifiers'.isEmpty := by cases hmodifiers <;> rfl
  refine peek fun ts ts' hts hts' halike => ?_
  cases halike with
  | nil => exact .none
  | @cons t t' rest rest' ht hrest =>
    have hchoice : ∀ start start', Parallel all all' (StmtAlike all all')
        (if t.isKeyword "class" then Parser.classFrom d start
          else if !modifiers.isEmpty then Alternative.failure
          else if t.isKeyword "trait" then Parser.traitFrom d start
          else if t.isKeyword "interface" then Parser.interfaceFrom d start
          else if t.isKeyword "enum" then Parser.enumFrom d start
          else Parser.functionDeclFrom d start)
        (if t'.isKeyword "class" then Parser.classFrom d start'
          else if !modifiers'.isEmpty then Alternative.failure
          else if t'.isKeyword "trait" then Parser.traitFrom d start'
          else if t'.isKeyword "interface" then Parser.interfaceFrom d start'
          else if t'.isKeyword "enum" then Parser.enumFrom d start'
          else Parser.functionDeclFrom d start') := fun start start' =>
      ite (ht.isKeyword _) (fun _ => classFrom hd _ _) fun _ =>
        ite (congrArg (!·) hempty) (fun _ => failure) fun _ =>
        ite (ht.isKeyword _) (fun _ => traitFrom hd _ _) fun _ =>
        ite (ht.isKeyword _) (fun _ => interfaceFrom hd _ _) fun _ =>
        ite (ht.isKeyword _) (fun _ => enumFrom hd _ _) fun _ => functionDeclFrom hd _ _
    exact hchoice _ _ _ _ hts hts' (.cons ht hrest)

theorem expressionStmt : Steady all all' (StmtAlike all all') (expressionStmt d) :=
  (hd.expr _ _ 0).bind fun e e' _ => terminator.bind fun _ _ hstop =>
    pure (.expression (hstop.through _ _) e e')

theorem simpleFrom? {t t' : Token} (h : t.Alike t') :
    Option.Rel (Parallel all all' Any) (simpleFrom? d t) (simpleFrom? d t') := by
  have hend : Respects Alike fun t => t.isSymbol ";" || t.kind == .closeTag :=
    (Respects.symbol ";").or (.kind .closeTag)
  have hjump : Steady all all' Any (do
      if !(← Parser.ahead (first fun t => t.isSymbol ";" || t.kind == .closeTag)) then
        let _ ← d.expr 0) :=
    (ahead hend.first).bind fun _ _ hb => ite (congrArg (!·) hb)
      (fun _ => (hd.expr _ _ 0).bind fun _ _ _ => pure trivial) fun _ => pure trivial
  rw [Parser.simpleFrom?, Parser.simpleFrom?, h.lowered]
  generalize t'.lowered = word
  split
  · exact .some ((commaList (constantEntry hd)).bind fun _ _ _ => pure trivial)
  · exact .some ((commaList (hd.expr _ _ _)).bind fun _ _ _ => pure trivial)
  · exact .some ((commaList (propertyEntry hd)).bind fun _ _ _ => pure trivial)
  · exact .some ((symbol "(").bind fun _ _ _ => (commaListUpTo ")" (hd.expr _ _ 0)).bind
      fun _ _ _ => pure trivial)
  · exact .some hjump
  · exact .some hjump
  · exact .some ((tokenIf .isFreeWord).bind fun _ _ _ => pure trivial)
  · exact .some ((symbol "(").bind fun _ _ _ => (symbol ")").bind fun _ _ _ => pure trivial)
  · exact .none

theorem wordStmt? {t t' : Token} {ts ts' : List Token} (hts : t :: ts <:+ all)
    (hts' : t' :: ts' <:+ all') (halike : List.Forall₂ Alike (t :: ts) (t' :: ts'))
    (hkind : t.kind = .name) :
    Option.Rel (RunAlike ts ts' (StmtAlike all all')) (wordStmt? d t) (wordStmt? d t') := by
  obtain ⟨ht, hrest⟩ := List.forall₂_cons.mp halike
  have hrun : ∀ {p p' : Parser Stmt}, Parallel all all' (StmtAlike all all') p p' →
      Option.Rel (RunAlike ts ts' (StmtAlike all all')) (some p) (some p') := fun hp =>
    .some (hp ts ts' ((List.suffix_cons t ts).trans hts) ((List.suffix_cons t' ts').trans hts') hrest)
  have hend : Respects Alike fun t => t.isSymbol ";" || t.kind == .closeTag :=
    (Respects.symbol ";").or (.kind .closeTag)
  have hkeyword : ∀ word, t'.lowered = word → t.isKeyword word = true := by
    rintro word rfl
    rw [ht.isKeyword, Token.isKeyword, ← ht.kind, hkind]
    exact beq_self_eq_true _
  rw [Parser.wordStmt?, Parser.wordStmt?, ht.lowered]
  generalize hword : t'.lowered = word at hkeyword ⊢
  split
  · exact hrun (branchFrom hd _ _)
  · exact hrun (whileFrom hd _ _)
  · exact hrun (doFrom hd _ _)
  · exact hrun (forFrom hd _ _)
  · exact hrun (foreachFrom hd _ _)
  · exact hrun (switchFrom hd _ _)
  · exact hrun (tryFrom hd _ _)
  · exact hrun (declareFrom hd _ _)
  · exact .some (namespaceFrom_run hd hts hts' halike (hkeyword _ rfl))
  · exact .some (useFrom_run hts hts' halike (hkeyword _ rfl))
  · exact hrun ((commaList (hd.expr _ _ 0)).bind fun _ _ hes => terminator.bind fun _ _ hstop =>
      pure (.control (hstop.through _ _) (forall₂_exprs hes)))
  · refine hrun (ifAhead hend.first ?_ ?_)
    · exact terminator.bind fun _ _ hstop => pure (.ret (hstop.through _ _) .none)
    · exact (hd.expr _ _ 0).bind fun _ _ _ => terminator.bind fun _ _ hstop =>
        pure (.ret (hstop.through _ _) (.some trivial))
  · have hsimple : Option.Rel (Parallel all all' Any) _ _ := simpleFrom? hd ht
    generalize Parser.simpleFrom? d t = p at hsimple ⊢
    generalize Parser.simpleFrom? d t' = p' at hsimple ⊢
    cases hsimple with
    | none => exact .none
    | some hp =>
      exact hrun (hp.bind fun _ _ _ => terminator.bind fun _ _ hstop =>
        pure (.other (hstop.through _ _)))

theorem worded {t t' : Token} {ts ts' : List Token} (hts : t :: ts <:+ all)
    (hts' : t' :: ts' <:+ all') (halike : List.Forall₂ Alike (t :: ts) (t' :: ts'))
    (hkind : t.kind = .name) : RunAlike (t :: ts) (t' :: ts') (StmtAlike all all')
      (match if beginsExpression t ts then none else Parser.wordStmt? d t with
        | some p => do set ts; p
        | none => Parser.expressionStmt d)
      (match if beginsExpression t' ts' then none else Parser.wordStmt? d t' with
        | some p => do set ts'; p
        | none => Parser.expressionStmt d) := by
  have hexpression := expressionStmt hd _ _ hts hts' halike
  obtain ⟨ht, hrest⟩ := List.forall₂_cons.mp halike
  have hbegins : beginsExpression t ts = beginsExpression t' ts' :=
    congrArg₂ (· && ·) (ht.isKeyword _)
      (congrArg (!·) ((Respects.kind .variable).first _ _ hrest))
  rw [← hbegins]
  cases beginsExpression t ts with
  | true => exact hexpression
  | false =>
    have hword := wordStmt? hd hts hts' halike hkind
    rw [if_neg Bool.false_ne_true, if_neg Bool.false_ne_true]
    generalize Parser.wordStmt? d t = p at hword ⊢
    generalize Parser.wordStmt? d t' = p' at hword ⊢
    cases hword with
    | none => exact hexpression
    | some hp => exact hp.extend (List.suffix_cons t ts) (List.suffix_cons t' ts') rfl rfl

omit hd in
theorem labeled {t t' : Token} {ts ts' : List Token} (hts : t :: ts <:+ all)
    (hts' : t' :: ts' <:+ all') (halike : List.Forall₂ Alike (t :: ts) (t' :: ts')) :
    RunAlike (t :: ts) (t' :: ts') (StmtAlike all all')
      (do set (ts.drop 1); return .other (t.span.through ((ts.head?.map (·.span)).getD t.span)))
      (do set (ts'.drop 1); return .other (t'.span.through ((ts'.head?.map (·.span)).getD t'.span))) := by
  obtain ⟨ht, hrest⟩ := List.forall₂_cons.mp halike
  have hends : BothEndIn all all' ((ts.head?.map (·.span)).getD t.span)
      ((ts'.head?.map (·.span)).getD t'.span) := by
    cases hrest with
    | nil => exact AlikeIn.ends ⟨ht, hts.mem List.mem_cons_self, hts'.mem List.mem_cons_self⟩
    | cons hn _ =>
      exact AlikeIn.ends ⟨hn, hts.mem (List.mem_cons_of_mem _ List.mem_cons_self),
        hts'.mem (List.mem_cons_of_mem _ List.mem_cons_self)⟩
  have hdrop : ∀ (t : Token) ts, ts.drop 1 <:+ t :: ts := fun t ts =>
    (List.drop_suffix 1 ts).trans (List.suffix_cons t ts)
  have hlabel : Parallel all all' (StmtAlike all all')
      (Pure.pure (Stmt.other (t.span.through ((ts.head?.map (·.span)).getD t.span))))
      (Pure.pure (Stmt.other (t'.span.through ((ts'.head?.map (·.span)).getD t'.span)))) :=
    pure (.other (hends.through _ _))
  have hrun := hlabel (ts.drop 1) (ts'.drop 1) ((hdrop t ts).trans hts) ((hdrop t' ts').trans hts')
    (List.forall₂_drop 1 hrest)
  exact hrun.extend (hdrop t ts) (hdrop t' ts') rfl rfl

/-- A statement that may begin with attributes. It is read anew if no declaration follows them. -/
theorem attributed {ts ts' : List Token} (hts : ts <:+ all) (hts' : ts' <:+ all')
    (halike : List.Forall₂ Alike ts ts') : RunAlike ts ts' (StmtAlike all all')
      (do
        let groups ← Parser.attributes d
        if ← Parser.ahead Parser.atDeclaration then Parser.declaration d groups.head?
        else
          set ts
          Parser.expressionStmt d)
      (do
        let groups ← Parser.attributes d
        if ← Parser.ahead Parser.atDeclaration then Parser.declaration d groups.head?
        else
          set ts'
          Parser.expressionStmt d) := by
  have hrun : ∀ ts : List Token, (do
      let groups ← Parser.attributes d
      if ← Parser.ahead Parser.atDeclaration then Parser.declaration d groups.head?
      else
        set ts
        Parser.expressionStmt d) ts = (Parser.attributes d ts).bind fun r =>
          if Parser.atDeclaration r.2 then Parser.declaration d r.1.head? r.2
          else Parser.expressionStmt d ts := by
    intro ts
    rw [run_bind]
    refine congrArg _ (funext fun r => ?_)
    rw [run_bind, run_ahead, Option.bind_some]
    cases Parser.atDeclaration r.2 <;> rfl
  have hattributes := attributes hd ts ts' hts hts' halike
  rw [RunAlike] at hattributes ⊢
  rw [hrun, hrun]
  generalize Parser.attributes d ts = r at hattributes ⊢
  generalize Parser.attributes d ts' = r' at hattributes ⊢
  cases hattributes with
  | none => exact .none
  | @some r r' h =>
    obtain ⟨-, hrest, hrest', hrests⟩ := h
    rw [Option.bind_some, Option.bind_some, ← atDeclaration _ _ hrests]
    split_ifs
    · have hdeclaration := declaration hd r.1.head? r'.1.head? _ _ (hrest.trans hts)
        (hrest'.trans hts') hrests
      have hwhole : RunAlike ts ts' (StmtAlike all all')
          (fun _ => Parser.declaration d r.1.head? r.2)
          (fun _ => Parser.declaration d r'.1.head? r'.2) :=
        hdeclaration.extend hrest hrest' rfl rfl
      exact hwhole
    · exact expressionStmt hd ts ts' hts hts' halike

theorem stmt : Steady all all' (StmtAlike all all') (stmt d) := by
  refine peek fun ts ts' hts hts' halike => ?_
  have hexpression := expressionStmt hd ts ts' hts hts' halike
  rw [← atDeclaration ts ts' halike]
  split_ifs
  · exact declaration hd none none ts ts' hts hts' halike
  · cases halike with
    | nil => exact .none
    | @cons t t' rest rest' ht hrest =>
      have hall : List.Forall₂ Alike (t :: rest) (t' :: rest') := .cons ht hrest
      have hin : AlikeIn all all' t t' :=
        ⟨ht, hts.mem List.mem_cons_self, hts'.mem List.mem_cons_self⟩
      have hsilent : RunAlike (t :: rest) (t' :: rest') (StmtAlike all all')
          (do set rest; return .other t.span) (do set rest'; return .other t'.span) :=
        drop (pure (.other hin.ends)) hts hts' hall
      dsimp only
      rw [← ht.kind]
      cases hkind : t.kind with
      | inlineText | openTag | closeTag => exact hsilent
      | echoTag =>
        refine drop ((commaList (hd.expr _ _ 0)).bind fun _ _ _ => ?_) hts hts' hall
        exact terminator.bind fun _ _ hstop => pure (.other (hstop.through _ _))
      | name =>
        dsimp only
        rw [← Respects.isFreeWord t t' ht, ← (Respects.symbol ":").first rest rest' hrest]
        cases first (·.isSymbol ":") rest && isFreeWord t with
        | true => exact labeled hts hts' hall
        | false => exact worded hd hts hts' hall hkind
      | symbol =>
        have htext : t.text = t'.text := ht.text (by simp [hkind]) (by simp [hkind])
        dsimp only
        rw [← htext]
        split_ifs
        · have hblock : Steady all all' (StmtAlike all all') (do
              let (body, span) ← Parser.block d
              return .block span body) := (block hd).bind fun _ _ h => pure (.block h.2 h.1)
          exact hblock _ _ hts hts' hall
        · exact hsilent
        · exact attributed hd hts hts' hall
        · exact hexpression
      | _ => exact hexpression

end Parallel

end Parser

theorem Nested.upTo_isParallel (depth : Nat) : (Nested.upTo depth).IsParallel := by
  induction depth with
  | zero => exact ⟨fun _ _ _ => .failure, fun _ _ => .failure⟩
  | succ depth ih => exact ⟨fun _ _ power => .expr ih power, fun _ _ => .stmt ih⟩

/-- From tokens that say the same, both programs are well formed or none, and the stops of the walks
through them stand side by side. -/
theorem Program.ofTokens?_alike {tokens tokens' : List Token}
    (h : List.Forall₂ Alike tokens tokens') :
    Option.Rel (fun program program' => List.Forall₂ (StopAlike tokens tokens')
        (program.visits entersStatements) (program'.visits entersStatements))
      (Program.ofTokens? tokens) (Program.ofTokens? tokens') := by
  have hnested := Nested.upTo_isParallel (2 * tokens.length + 2)
  have hstmts : Parallel tokens tokens' _ _ _ := .stmts hnested Respects.isEmpty.not
  have hrun := hstmts tokens tokens' (List.suffix_refl _) (List.suffix_refl _) h
  rw [Program.ofTokens?, Program.ofTokens?, ← h.length_eq]
  change Option.Rel _ ((many _ _ tokens).bind _) ((many _ _ tokens').bind _)
  rw [RunAlike] at hrun
  generalize many _ _ tokens = r at hrun ⊢
  generalize many _ _ tokens' = r' at hrun ⊢
  cases hrun with
  | none => exact .none
  | @some r r' hr =>
    obtain ⟨hstmts, -, -, hrest⟩ := hr
    have hempty : r.2.isEmpty = r'.2.isEmpty := Respects.isEmpty _ _ hrest
    rw [Option.bind_some, Option.bind_some]
    dsimp only
    rw [hempty]
    split_ifs
    · refine .some ?_
      rw [visits_eq, visits_eq]
      exact forall₂_flatMap (fun _ _ h => h) (forall₂_stmts hstmts)
    · exact .none

end FactoryLint.Php
