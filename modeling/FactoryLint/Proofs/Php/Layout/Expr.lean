import FactoryLint.Proofs.Php.Layout.Nested

namespace FactoryLint.Php.Parser

open Token (Alike)

def ClassAlike (all all' : List Token) (t t' : Token) : Prop :=
  AlikeIn all all' t t' ∧ isClassName t = true

def MemberAlike (all all' : List Token) (m m' : Member) : Prop :=
  List.Forall₂ (StmtAlike all all') m.stmts m'.stmts

def ClassBodyAlike (all all' : List Token) (r r' : List Member × Span) : Prop :=
  MembersAlike all all' r.1 r'.1 ∧ BothEndIn all all' r.2 r'.2

namespace Parallel

variable {d : Nested} (hd : d.IsParallel) {all all' : List Token}

theorem traitUse : Steady all all' Any traitUse := by
  have hrules : Respects (List.Forall₂ Alike) fun ts =>
      !first (fun t => t.isSymbol "\x7d" || t.isSymbol "\x7b") ts :=
    ((Respects.symbol "\x7d").or (.symbol "\x7b")).first.not
  refine (keyword "use").bind fun _ _ _ => (commaList className).bind fun _ _ _ =>
    ifSymbol "\x7b" ?_ (terminator.bind fun _ _ _ => pure trivial)
  exact (many hrules token).bind fun _ _ _ => (symbol "\x7d").bind fun _ _ _ => pure trivial

theorem parent? : Steady all all' (Option.Rel (ClassAlike all all')) parent? := by
  refine ifKeyword "extends" ((commaList className).bind fun ts ts' hts => ?_) (pure .none)
  cases hts with
  | nil => exact pure .none
  | cons ht _ => exact pure (.some ht)

theorem interfaces : Steady all all' Any interfaces :=
  ifKeyword "implements" ((commaList className).bind fun _ _ _ => pure trivial) (pure trivial)

include hd

theorem constantEntry : Steady all all' Any (constantEntry d) :=
  (tokenIf .isWord).bind fun _ _ _ => (symbol "=").bind fun _ _ _ =>
    (hd.expr _ _ 0).bind fun _ _ _ => pure trivial

theorem classConstants : Steady all all' Any (classConstants d) := by
  have hrest : Steady all all' Any (do
      let _ ← Parser.commaList (Parser.constantEntry d)
      let _ ← Parser.terminator) :=
    (commaList (constantEntry hd)).bind fun _ _ _ => terminator.bind fun _ _ _ => pure trivial
  refine (keyword "const").bind fun _ _ _ => (ahead (Respects.symbol "=").second).bind
    fun b b' hb => ite (congrArg (!·) hb) (fun _ => ?_) fun _ => hrest
  exact typeHint.bind fun _ _ _ => hrest

theorem enumCase : Steady all all' Any (enumCase d) :=
  (keyword "case").bind fun _ _ _ => (tokenIf .isWord).bind fun _ _ _ =>
    (initializer? hd).bind fun _ _ _ => terminator.bind fun _ _ _ => pure trivial

theorem method : Steady all all' (MemberAlike all all') (method d) := by
  refine (keyword "function").bind fun _ _ _ => (symbol? "&").bind fun _ _ _ =>
    (tokenIf .isWord).bind fun _ _ _ => (parameters hd).bind fun _ _ _ => resultType.bind
    fun _ _ _ => ifAhead (Respects.symbol "\x7b").first ?_ ?_
  · exact (block hd).bind fun _ _ hbody => pure hbody.1
  · exact terminator.bind fun _ _ _ => pure .nil

theorem propertyEntry : Steady all all' Any (propertyEntry d) :=
  (tokenIf (.kind .variable)).bind fun _ _ _ => (initializer? hd).bind fun _ _ _ => pure trivial

theorem properties : Steady all all' Any (properties d) := by
  have hrest : Steady all all' Any (do
      let _ ← Parser.commaList (Parser.propertyEntry d)
      if ← atSymbol "\x7b" then Parser.hooks d
      else
        let _ ← Parser.terminator) :=
    (commaList (propertyEntry hd)).bind fun _ _ _ => ifAhead (Respects.symbol "\x7b").first
      (hooks hd) (terminator.bind fun _ _ _ => pure trivial)
  refine (ahead (Respects.kind .variable).first).bind
    fun b b' hb => ite (congrArg (!·) hb) (fun _ => ?_) fun _ => hrest
  exact typeHint.bind fun _ _ _ => hrest

theorem member : Steady all all' (MemberAlike all all') (member d) := by
  refine ifAhead (Respects.keyword "use").first (traitUse.bind fun _ _ _ => pure .nil) ?_
  refine (attributes hd).bind fun _ _ _ => someModifiers.bind fun modifiers modifiers' hm => ?_
  refine ifAhead (Respects.keyword "function").first (method hd) ?_
  refine ifAhead (Respects.keyword "const").first ((classConstants hd).bind fun _ _ _ => pure .nil) ?_
  refine ifAhead (Respects.keyword "case").first ((enumCase hd).bind fun _ _ _ => pure .nil) ?_
  refine (keyword? "var").bind fun o o' ho => ite ?_
    (fun _ => (properties hd).bind fun _ _ _ => pure .nil) fun _ => failure
  have hempty : modifiers.isEmpty = modifiers'.isEmpty := by cases hm <;> rfl
  rw [isSome_eq_of_rel ho, hempty]

theorem members : Steady all all' (ClassBodyAlike all all') (members d) :=
  (symbol "\x7b").bind fun _ _ _ => (many (Respects.symbol "\x7d").first.not (member hd)).bind
    fun _ _ hmembers => (symbol "\x7d").bind
      fun _ _ hstop => pure ⟨forall₂_flatMap (fun _ _ h => h) hmembers, hstop⟩

theorem holes (close : TokenKind) : Steady all all' Any (holes d close) := by
  have hopen : Respects (List.Forall₂ Alike) (first fun t => t.kind != close) :=
    (Respects.kind close).not.first
  have hhole : Steady all all' Any (do
      let t ← Parser.token
      if t.kind == .holeOpen then
        let _ ← d.expr 0
        let _ ← Parser.symbol "\x7d"
      else if t.kind != .templateText && t.kind != .documentText then Alternative.failure) := by
    have htext : Respects Alike fun t => t.kind != .templateText && t.kind != .documentText :=
      (Respects.kind .templateText).not.and (Respects.kind .documentText).not
    refine token.bind fun t t' ht => ite (Respects.kind .holeOpen t t' ht.alike) (fun _ => ?_)
      fun _ => ite (htext t t' ht.alike) (fun _ => failure) fun _ => pure trivial
    exact (hd.expr _ _ 0).bind fun _ _ _ => (symbol "\x7d").bind fun _ _ _ => pure trivial
  exact (many hopen hhole).bind fun _ _ _ => (tokenIf (.kind close)).bind fun _ _ _ => pure trivial

theorem computedVariable : Steady all all' Any (computedVariable d) := by
  refine (many (Respects.symbol "$").first token).bind fun _ _ _ =>
    (tokenIf? (.kind .variable)).bind fun t t' ht => ?_
  cases ht with
  | some _ => exact pure trivial
  | none =>
    exact (symbol "\x7b").bind fun _ _ _ => (hd.expr _ _ 0).bind fun _ _ _ =>
      (symbol "\x7d").mono fun _ _ _ => trivial

theorem selector : Steady all all' Any (selector d) := by
  refine token.bind fun t t' ht => ite (Respects.isWord t t' ht.alike) (fun _ => pure trivial)
    fun _ => ite (Respects.kind .variable t t' ht.alike) (fun _ => pure trivial)
    fun _ => ite (Respects.symbol "$" t t' ht.alike) (fun _ => ?_)
    fun _ => ite (Respects.symbol "\x7b" t t' ht.alike) (fun _ => ?_) fun _ => failure
  · exact (computedVariable hd).bind fun _ _ _ => pure trivial
  · exact (hd.expr _ _ 0).bind fun _ _ _ => (symbol "\x7d").bind fun _ _ _ => pure trivial

theorem memberCall {f f' : Option String × Span → Expr}
    {g g' : Option String × Span → Arguments → Expr} :
    Parallel all all' (Option.Rel Any)
      (do
        let s ← Parser.selector d
        match ← Parser.arguments? d with
        | none => return some (f s)
        | some as => return some (g s as))
      (do
        let s ← Parser.selector d
        match ← Parser.arguments? d with
        | none => return some (f' s)
        | some as => return some (g' s as)) := by
  refine (selector hd).bind fun _ _ _ => (arguments? hd).bind fun as as' has => ?_
  cases has <;> exact pure (.some trivial)

theorem accessor? (e e' : Expr) :
    Parallel all all' (Option.Rel Any) (accessor? d e) (accessor? d e') := by
  have hstep : Respects Alike fun t => t.isSymbol "++" || t.isSymbol "--" :=
    (Respects.symbol "++").or (.symbol "--")
  refine ifSymbol "[" ?_ (ifSymbol "->" (memberCall hd) (ifSymbol "?->" (memberCall hd)
    (ifSymbol "::" (memberCall hd) (ifAhead (Respects.symbol "(").first ?_ ?_))))
  · refine (symbol? "]").bind fun stop stop' hstop => ?_
    cases hstop with
    | some _ => exact pure (.some trivial)
    | none =>
      exact (hd.expr _ _ 0).bind fun _ _ _ => (symbol "]").bind fun _ _ _ => pure (.some trivial)
  · exact (arguments hd).bind fun _ _ _ => pure (.some trivial)
  · refine (tokenIf? hstep).bind fun t t' ht => ?_
    cases ht with
    | none => exact pure .none
    | some _ => exact pure (.some trivial)

variable (start start' : Span)

theorem closureBody : Parallel all all' Any
    (do
      Parser.resultType
      let (body, stop) ← Parser.block d
      return Expr.closure (start.through stop) body)
    (do
      Parser.resultType
      let (body, stop) ← Parser.block d
      return Expr.closure (start'.through stop) body) :=
  resultType.bind fun _ _ _ => (block hd).bind fun _ _ _ => pure trivial

theorem closureFrom : Parallel all all' Any (closureFrom d start) (closureFrom d start') := by
  have hcaptured : Steady all all' Any (do
      let _ ← Parser.symbol? "&"
      Parser.tokenIf (·.kind == .variable)) :=
    (symbol? "&").bind fun _ _ _ => (tokenIf (.kind .variable)).mono fun _ _ _ => trivial
  refine (symbol? "&").bind fun _ _ _ => (parameters hd).bind fun _ _ _ =>
    ifKeyword "use" ?_ (closureBody hd start start')
  exact (symbol "(").bind fun _ _ _ => (commaListUpTo ")" hcaptured).bind fun _ _ _ =>
    closureBody hd start start'

theorem arrowFrom : Parallel all all' Any (arrowFrom d start) (arrowFrom d start') :=
  (symbol? "&").bind fun _ _ _ => (parameters hd).bind fun _ _ _ => resultType.bind fun _ _ _ =>
    (symbol "=>").bind fun _ _ _ => (hd.expr _ _ 0).bind fun _ _ _ => pure trivial

theorem functionFrom (start start' : Option Span) :
    Parallel all all' Any (functionFrom d start) (functionFrom d start') := by
  refine (keyword? "static").bind fun _ _ _ => (keyword? "function").bind fun span span' hspan => ?_
  cases hspan with
  | some _ => exact closureFrom hd _ _
  | none => exact (keyword "fn").bind fun _ _ _ => arrowFrom hd _ _

theorem matchArm : Steady all all' Any (matchArm d) := by
  have hdefault : Respects (List.Forall₂ Alike) fun ts => first (·.isKeyword "default") ts &&
      second (fun t => t.isSymbol "=>" || t.isSymbol ",") ts :=
    (Respects.keyword "default").first.and ((Respects.symbol "=>").or (.symbol ",")).second
  refine ifAhead hdefault ?_ ?_
  · exact token.bind fun _ _ _ => (symbol? ",").bind fun _ _ _ => (symbol "=>").bind fun _ _ _ =>
      (hd.expr _ _ 0).bind fun _ _ _ => pure trivial
  · refine (commaListUpTo "=>" (hd.expr _ _ 0)).bind fun (es, _) (es', _) ⟨hes, _⟩ => ite ?_
      (fun _ => failure) fun _ => (hd.expr _ _ 0).bind fun _ _ _ => pure trivial
    cases hes <;> rfl

theorem matchFrom : Parallel all all' Any (matchFrom d start) (matchFrom d start') :=
  (parenthesized (hd.expr _ _ 0)).bind fun _ _ _ => (symbol "\x7b").bind fun _ _ _ =>
    (commaListUpTo "\x7d" (matchArm hd)).bind fun (_, _) (_, _) _ => pure trivial

theorem classReferenceStep? (span span' : Span) : Parallel all all' (Option.Rel Any)
    (classReferenceStep? d span) (classReferenceStep? d span') := by
  have hstep : Respects Alike fun t => t.isSymbol "->" || t.isSymbol "?->" || t.isSymbol "::" :=
    ((Respects.symbol "->").or (.symbol "?->")).or (.symbol "::")
  refine ifSymbol "[" ?_ ((tokenIf? hstep).bind fun t t' ht => ?_)
  · exact (hd.expr _ _ 0).bind fun _ _ _ => (symbol "]").bind fun _ _ _ => pure (.some trivial)
  · cases ht with
    | some _ => exact (selector hd).bind fun _ _ _ => pure (.some trivial)
    | none => exact pure .none

theorem classReference : Steady all all' Any (classReference d) := by
  have hsteps : ∀ span span', Parallel all all' Any
      (Parser.iterate (Parser.classReferenceStep? d) span)
      (Parser.iterate (Parser.classReferenceStep? d) span') := fun _ _ =>
    iterate (fun span span' _ => classReferenceStep? hd span span') trivial
  have hname : Respects Alike fun t => isClassName t || t.isKeyword "static" :=
    Respects.isClassName.or (.keyword "static")
  have hstatic : Respects (List.Forall₂ Alike) fun ts =>
      first (·.isSymbol "::") ts && second (·.kind == .variable) ts :=
    (Respects.symbol "::").first.and (Respects.kind .variable).second
  refine ifAhead (Respects.symbol "(").first ?_ ?_
  · exact (symbol "(").bind fun _ _ _ => (hd.expr _ _ 0).bind fun _ _ _ =>
      (symbol ")").bind fun _ _ _ => pure trivial
  · refine token.bind fun t t' ht => ite (hname t t' ht.alike)
      (fun _ => ifAhead hstatic (hsteps _ _) (pure trivial))
      fun _ => ite (Respects.kind .variable t t' ht.alike) (fun _ => hsteps _ _)
      fun _ => ite (Respects.symbol "$" t t' ht.alike) (fun _ => ?_) fun _ => failure
    exact (computedVariable hd).bind fun _ _ _ => hsteps _ _

theorem instantiationFrom :
    Parallel all all' Any (instantiationFrom d start) (instantiationFrom d start') := by
  have hclass : Respects Alike fun t => t.isKeyword "class" || Parser.isModifier t :=
    (Respects.keyword "class").or isModifier
  have hanonymous : Respects (List.Forall₂ Alike) fun ts => first (·.isKeyword "class") ts ||
      first Parser.isModifier ts && second (fun t => t.isKeyword "class" || Parser.isModifier t) ts :=
    (Respects.keyword "class").first.or (isModifier.first.and hclass.second)
  refine (attributes hd).bind fun _ _ _ => ifAhead hanonymous ?_ ?_
  · exact someModifiers.bind fun _ _ _ => (keyword "class").bind fun _ _ _ =>
      (arguments? hd).bind fun _ _ _ => parent?.bind fun _ _ _ => interfaces.bind fun _ _ _ =>
        (members hd).bind fun _ _ _ => pure trivial
  · refine (classReference hd).bind fun _ _ _ => (arguments? hd).bind fun as as' has => ?_
    cases has <;> exact pure trivial

theorem yieldFrom : Parallel all all' Any (yieldFrom d start) (yieldFrom d start') := by
  have hends : Respects Alike fun t : Token => t.kind == .closeTag ||
      [";", ")", "]", ",", "\x7d"].any t.isSymbol :=
    (Respects.kind .closeTag).or (.any _ .symbol)
  refine ifKeyword "from" ?_ (ifAhead (Respects.isEmpty.or hends.first) (pure trivial) ?_)
  · exact (hd.expr _ _ _).bind fun _ _ _ => pure trivial
  · refine (hd.expr _ _ _).bind fun _ _ _ => ifSymbol "=>" ?_ (pure trivial)
    exact (hd.expr _ _ _).bind fun _ _ _ => pure trivial

theorem inspectionFrom :
    Parallel all all' Any (inspectionFrom d start) (inspectionFrom d start') := by
  refine (symbol "(").bind fun _ _ _ => (commaListUpTo ")" (hd.expr _ _ 0)).bind
    fun (es, _) (es', _) ⟨hes, _⟩ => ite ?_ (fun _ => failure) fun _ => pure trivial
  cases hes <;> rfl

theorem unary (power : Nat) : Parallel all all' Any (unary d start power) (unary d start' power) :=
  (hd.expr _ _ power).bind fun _ _ _ => pure trivial

theorem exitArguments (span span' : Span) : Parallel all all' Any
    (do
      match ← Parser.arguments? d with
      | none => return Expr.other span
      | some as => return .other (span.through as.span))
    (do
      match ← Parser.arguments? d with
      | none => return Expr.other span'
      | some as => return .other (span'.through as.span)) := by
  refine (arguments? hd).bind fun as as' has => ?_
  cases has <;> exact pure trivial

theorem wordExpr {t t' : Token} (h : t.Alike t') :
    Parallel all all' Any (wordExpr d t) (wordExpr d t') := by
  have hafter : ∀ power (span span' : Span), Parallel all all' Any
      (do return Expr.other (span.through (← d.expr power).span))
      (do return Expr.other (span'.through (← d.expr power).span)) := fun power _ _ =>
    (hd.expr _ _ power).bind fun _ _ _ => pure trivial
  have hentries : ∀ {f f' : List Element × Span → Expr}, Parallel all all' Any
      (do let _ ← Parser.symbol "("; return f (← Parser.elements d ")"))
      (do let _ ← Parser.symbol "("; return f' (← Parser.elements d ")")) := fun {_ _} =>
    (symbol "(").bind fun _ _ _ => (elements hd ")").bind fun _ _ _ => pure trivial
  rw [Parser.wordExpr, Parser.wordExpr, h.lowered]
  generalize t'.lowered = word
  split
  case h_1 => exact instantiationFrom hd _ _
  case h_9 => exact yieldFrom hd _ _
  case h_10 | h_11 | h_12 => exact inspectionFrom hd _ _
  case h_13 | h_14 => exact exitArguments hd _ _
  case h_15 | h_16 | h_17 | h_18 | h_19 | h_20 => exact pure trivial
  case h_21 | h_22 => exact hentries
  case h_23 => exact matchFrom hd _ _
  case h_24 => exact ite rfl (fun _ => failure) fun _ => pure trivial
  all_goals exact hafter _ _ _

theorem symbolExpr {t t' : Token} (h : t.Alike t') (hkind : t.kind = .symbol) :
    Parallel all all' Any (symbolExpr d t) (symbolExpr d t') := by
  have htext : t.text = t'.text := h.text (by simp [hkind]) (by simp [hkind])
  rw [Parser.symbolExpr, Parser.symbolExpr, htext]
  generalize t'.text = text
  split
  case h_1 => exact unary hd _ _ _
  case h_9 => exact (hd.expr _ _ 0).bind fun _ _ _ => (symbol ")").bind fun _ _ _ => pure trivial
  case h_10 => exact (elements hd "]").bind fun _ _ _ => pure trivial
  case h_11 => exact (computedVariable hd).bind fun _ _ _ => pure trivial
  case h_12 => exact failure
  all_goals exact unary hd _ _ _

theorem operand : Steady all all' Any (operand d) := by
  have hfunction : Respects Alike fun t => t.isKeyword "fn" || t.isKeyword "function" :=
    (Respects.keyword "fn").or (.keyword "function")
  have hahead : Respects (List.Forall₂ Alike) atFunction :=
    hfunction.first.or ((Respects.keyword "static").first.and hfunction.second)
  refine ifAhead (Respects.symbol "#[").first
    ((attributes hd).bind fun _ _ _ => functionFrom hd _ _)
    (ifAhead hahead (functionFrom hd _ _) (token.bind fun t t' ht => ?_))
  rw [← ht.alike.kind]
  cases hkind : t.kind with
  | «variable» | number | string | qualifiedName | absoluteName => exact pure trivial
  | name => exact wordExpr hd ht.alike
  | cast => exact unary hd _ _ _
  | templateOpen => exact (holes hd _).bind fun _ _ _ => pure trivial
  | heredocOpen | nowdocOpen => exact (holes hd _).bind fun _ _ _ => pure trivial
  | symbol => exact symbolExpr hd ht.alike hkind
  | _ => exact failure

omit hd in
theorem isAssignment : Respects Alike isAssignment := by
  intro t t' h
  rw [Parser.isAssignment, Parser.isAssignment, ← h.kind]
  by_cases hkind : t.kind = .symbol
  · rw [h.text (by simp [hkind]) (by simp [hkind])]
  · rw [beq_false_of_ne hkind, Bool.false_and, Bool.false_and]

theorem assigned : Steady all all' Any (assigned d) := by
  refine (operand hd).bind fun _ _ _ => (iterate (fun e e' _ => accessor? hd e e') trivial).bind
    fun _ _ _ => (tokenIf? isAssignment).bind fun o o' ho => ite (isSome_eq_of_rel ho) (fun _ => ?_)
    fun _ => pure trivial
  exact (hd.expr _ _ _).bind fun _ _ _ => pure trivial

theorem conditionalFrom (e e' : Expr) :
    Parallel all all' Any (conditionalFrom d e) (conditionalFrom d e') := by
  have hrest : ∀ chosen chosen', Parallel all all' Any
      (do
        let otherwise ← d.expr (Power.conditional + 1)
        return Expr.operation (e.span.through otherwise.span) (.conditional e chosen otherwise))
      (do
        let otherwise ← d.expr (Power.conditional + 1)
        return Expr.operation (e'.span.through otherwise.span)
          (.conditional e' chosen' otherwise)) :=
    fun _ _ => (hd.expr _ _ _).bind fun _ _ _ => pure trivial
  refine ifSymbol ":" (hrest _ _) ?_
  exact (hd.expr _ _ 0).bind fun _ _ _ => (symbol ":").bind fun _ _ _ => hrest _ _

omit hd in
theorem binary?_eq {t t' : Token} (h : t.Alike t') : Power.binary? t = Power.binary? t' := by
  rw [Power.binary?, Power.binary?, h.lowered, ← h.kind]
  by_cases hkind : t.kind = .symbol
  · rw [h.text (by simp [hkind]) (by simp [hkind])]
  · rw [beq_false_of_ne hkind, if_neg Bool.false_ne_true, if_neg Bool.false_ne_true]

theorem operator? (power : Nat) (e e' : Expr) :
    Parallel all all' (Option.Rel Any) (operator? d power e) (operator? d power e') := by
  refine peek fun ts ts' hts hts' halike => ?_
  have hnone : RunAlike ts ts' (Option.Rel Any) (Pure.pure (none : Option Expr)) (Pure.pure none) :=
    pure .none ts ts' hts hts' halike
  cases halike with
  | nil => exact hnone
  | @cons t t' rest rest' ht hrest =>
    have hdrop : ∀ {p p' : Parser Expr}, Parallel all all' Any p p' →
        RunAlike (t :: rest) (t' :: rest') (Option.Rel Any)
          (do set rest; return some (← p)) (do set rest'; return some (← p')) := fun hp =>
      drop (hp.bind fun _ _ _ => pure (.some trivial)) hts hts' (.cons ht hrest)
    change RunAlike _ _ _ (if t.isSymbol "?" = true then _ else _)
      (if t'.isSymbol "?" = true then _ else _)
    rw [← ht.isSymbol, ← binary?_eq ht]
    split_ifs
    · exact hdrop (conditionalFrom hd e e')
    · exact hnone
    · rcases Power.binary? t with - | ⟨own, wanted⟩
      · exact hnone
      · dsimp only
        split_ifs
        · exact drop ((hd.expr _ _ wanted).bind fun _ _ _ => pure (.some trivial)) hts hts'
            (.cons ht hrest)
        · exact hnone

theorem expr (power : Nat) : Steady all all' Any (expr d power) :=
  (assigned hd).bind fun _ _ _ => iterate (fun e e' _ => operator? hd power e e') trivial

end Parallel

end FactoryLint.Php.Parser
