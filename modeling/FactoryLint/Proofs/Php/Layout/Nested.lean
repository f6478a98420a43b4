import FactoryLint.Proofs.Php.Layout.Stops

namespace FactoryLint.Php.Parser

open Token (Alike)

def BlockAlike (all all' : List Token) (r r' : List Stmt × Span) : Prop :=
  List.Forall₂ (StmtAlike all all') r.1 r'.1 ∧ BothEndIn all all' r.2 r'.2

namespace Parallel

variable {d : Nested} (hd : d.IsParallel) {all all' : List Token}

theorem terminator : Steady all all' (BothEndIn all all') terminator := by
  have hend : Respects Alike fun t => t.isSymbol ";" || t.kind == .closeTag :=
    (Respects.symbol ";").or (.kind .closeTag)
  refine (tokenIf hend).bind fun t t' ht => ite (Respects.kind .closeTag t t' ht.1.alike)
    (fun _ => ?_) fun _ => pure ht.1.ends
  refine (tokenIf? (.kind .openTag)).bind fun tag tag' htag => ?_
  cases htag with
  | none => exact pure ht.1.ends
  | some htag => exact pure htag.ends

theorem isModifier : Respects Alike isModifier :=
  Respects.isWord.and fun t t' h => by rw [h.lowered]

theorem modifier : Steady all all' (AlikeIn all all') modifier := by
  have hset : Respects (List.Forall₂ Alike) fun ts => first (·.isSymbol "(") ts &&
      second (·.isKeyword "set") ts && third (·.isSymbol ")") ts :=
    ((Respects.symbol "(").first.and (Respects.keyword "set").second).and (Respects.symbol ")").third
  refine (tokenIf isModifier).bind fun t t' ht => ifAhead hset ?_ (pure ht.1)
  exact token.bind fun _ _ _ => token.bind fun _ _ _ => token.bind fun _ _ _ => pure ht.1

theorem someModifiers :
    Steady all all' (List.Forall₂ (AlikeIn all all')) someModifiers :=
  many isModifier.first modifier

include hd

theorem argument : Steady all all' Any (argument d) := by
  have hnamed : Respects (List.Forall₂ Alike) fun ts => first isWord ts && second (·.isSymbol ":") ts :=
    Respects.isWord.first.and (Respects.symbol ":").second
  refine ifSymbol "..." (hd.expr _ _ 0) (ifAhead hnamed ?_ (hd.expr _ _ 0))
  exact token.bind fun _ _ _ => token.bind fun _ _ _ => hd.expr _ _ 0

theorem arguments : Steady all all' Any (arguments d) := by
  have hreference : Respects (List.Forall₂ Alike) fun ts =>
      first (·.isSymbol "...") ts && second (·.isSymbol ")") ts :=
    (Respects.symbol "...").first.and (Respects.symbol ")").second
  refine (symbol "(").bind fun _ _ _ => ifAhead hreference ?_ ?_
  · exact token.bind fun _ _ _ => (symbol ")").bind fun _ _ _ => pure trivial
  · exact (commaListUpTo ")" (argument hd)).bind fun _ _ _ => pure trivial

theorem arguments? : Steady all all' (Option.Rel Any) (arguments? d) :=
  ifAhead (Respects.symbol "(").first
    ((arguments hd).bind fun _ _ _ => pure (.some trivial)) (pure .none)

theorem element? : Steady all all' Any (element? d) := by
  refine ifAhead (Respects.symbol ",").first (pure trivial) ?_
  refine (symbol? "...").bind fun dots dots' hdots => ?_
  cases hdots with
  | some _ => exact (hd.expr _ _ 0).bind fun _ _ _ => pure trivial
  | none =>
    refine (hd.expr _ _ 0).bind fun _ _ _ => ifSymbol "=>" ?_ (pure trivial)
    exact (hd.expr _ _ 0).bind fun _ _ _ => pure trivial

theorem elements (close : String) : Steady all all' Any (elements d close) := by
  have hclose : Respects (List.Forall₂ Alike) (first (·.isSymbol close)) :=
    (Respects.symbol close).first
  have hentry : Steady all all' Any (do
        let entry ← Parser.element? d
        if (← Parser.symbol? ",").isNone && !(← atSymbol close) then Alternative.failure
        return entry) := by
    refine (element? hd).bind fun _ _ _ => (symbol? ",").bind fun o o' ho => ?_
    refine (ahead hclose).bind fun b b' hb => ite ?_ (fun _ => failure) fun _ => pure trivial
    rw [isNone_eq_of_rel ho, hb]
  exact (many hclose.not hentry).bind fun _ _ _ => (symbol close).bind fun _ _ _ => pure trivial

theorem attributeEntry : Steady all all' Any (attributeEntry d) :=
  className.bind fun _ _ _ => (arguments? hd).bind fun _ _ _ => pure trivial

theorem attributeGroup : Steady all all' Any (attributeGroup d) :=
  (symbol "#[").bind fun _ _ _ => (commaListUpTo "]" (attributeEntry hd)).bind
    fun (_, _) (_, _) _ => pure trivial

theorem attributes : Steady all all' (List.Forall₂ Any) (attributes d) :=
  many (Respects.symbol "#[").first (attributeGroup hd)

theorem stmts {more : List Token → Bool} (hmore : Respects (List.Forall₂ Alike) more) :
    Steady all all' (List.Forall₂ (StmtAlike all all')) (Parser.many more d.stmt) :=
  many hmore (hd.stmt _ _)

theorem block : Steady all all' (BlockAlike all all') (block d) :=
  (symbol "\x7b").bind fun _ _ _ => (stmts hd (Respects.symbol "\x7d").first.not).bind
    fun _ _ hbody => (symbol "\x7d").bind fun _ _ hstop => pure ⟨hbody, hstop⟩

theorem initializer? : Steady all all' Any (initializer? d) :=
  ifSymbol "=" ((hd.expr _ _ 0).bind fun _ _ _ => pure trivial) (pure trivial)

theorem hookWith {parameters : Parser Unit} (h : Steady all all' Any parameters) :
    Steady all all' Any (hookWith d parameters) := by
  have hbody : Steady all all' Any (do
        if (← Parser.symbol? "=>").isSome then
          let _ ← d.expr 0
          let _ ← Parser.symbol ";"
        else if (← Parser.symbol? ";").isSome then return
        else
          let _ ← Parser.block d) := by
    refine ifSymbol "=>" ?_ (ifSymbol ";" (pure trivial) ?_)
    · exact (hd.expr _ _ 0).bind fun _ _ _ => (symbol ";").bind fun _ _ _ => pure trivial
    · exact (block hd).bind fun _ _ _ => pure trivial
  refine (attributes hd).bind fun _ _ _ => someModifiers.bind fun _ _ _ =>
    (symbol? "&").bind fun _ _ _ => (tokenIf .isWord).bind fun _ _ _ => ?_
  exact ifAhead (Respects.symbol "(").first (h.bind fun _ _ _ => hbody) hbody

theorem hooksWith {parameters : Parser Unit} (h : Steady all all' Any parameters) :
    Steady all all' Any (hooksWith d parameters) :=
  (symbol "\x7b").bind fun _ _ _ => (many (Respects.symbol "\x7d").first.not (hookWith hd h)).bind
    fun _ _ _ => (symbol "\x7d").bind fun _ _ _ => pure trivial

theorem parameterWith {hooks : Parser Unit} (h : Steady all all' Any hooks) :
    Steady all all' Any (parameterWith d hooks) := by
  have huntyped : Respects (List.Forall₂ Alike) fun ts =>
      first (fun t => t.kind == .variable || t.isSymbol "...") ts || atParameterAmpersand ts :=
    ((Respects.kind .variable).or (.symbol "...")).first.or parameterAmpersand
  have hrest : Steady all all' Any (do
        let _ ← Parser.symbol? "&"
        let _ ← Parser.symbol? "..."
        let _ ← Parser.tokenIf (·.kind == .variable)
        let _ ← Parser.initializer? d
        if ← atSymbol "\x7b" then hooks) :=
    (symbol? "&").bind fun _ _ _ => (symbol? "...").bind fun _ _ _ =>
      (tokenIf (.kind .variable)).bind fun _ _ _ => (initializer? hd).bind fun _ _ _ =>
        ifAhead (Respects.symbol "\x7b").first h (pure trivial)
  refine (attributes hd).bind fun _ _ _ => someModifiers.bind fun _ _ _ =>
    (ahead huntyped).bind fun b b' hb => ite (congrArg (!·) hb) (fun _ => ?_) fun _ => hrest
  exact typeHint.bind fun _ _ _ => hrest

theorem parametersWith {hooks : Parser Unit} (h : Steady all all' Any hooks) :
    Steady all all' Any (parametersWith d hooks) :=
  (symbol "(").bind fun _ _ _ => (commaListUpTo ")" (parameterWith hd h)).bind
    fun _ _ _ => pure trivial

theorem hooks : Steady all all' Any (hooks d) :=
  hooksWith hd (parametersWith hd .failure)

theorem parameters : Steady all all' Any (parameters d) :=
  parametersWith hd (hooks hd)

end Parallel

end FactoryLint.Php.Parser
