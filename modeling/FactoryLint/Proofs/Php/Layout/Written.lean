import FactoryLint.Php.Parser.Stmt
import FactoryLint.Proofs.Php.Layout.Parallel

namespace FactoryLint.Php

namespace Parser

variable {α β : Type} {ts rest : List Token} {q : Token → Bool}

theorem bind_eq_some {p : Parser α} {f : α → Parser β} {r : β × List Token} :
    (p >>= f) ts = some r ↔ ∃ x mid, p ts = some (x, mid) ∧ f x mid = some r := by
  rw [run_bind, Option.bind_eq_some_iff]
  exact Prod.exists

theorem token_eq_some {t : Token} (h : token ts = some (t, rest)) : ts = t :: rest := by
  cases ts with
  | nil => cases h
  | cons t' ts =>
    cases h
    rfl

theorem tokenIf_eq_some {t : Token} (h : tokenIf q ts = some (t, rest)) :
    ts = t :: rest ∧ q t = true := by
  cases ts with
  | nil => cases h
  | cons t' ts =>
    rw [run_tokenIf_cons] at h
    split_ifs at h with hq
    cases h
    exact ⟨rfl, hq⟩

theorem tokenIf?_eq_some {t? : Option Token} (h : tokenIf? q ts = some (t?, rest)) :
    ts = t?.toList ++ rest ∧ (∀ t ∈ t?, q t = true) ∧ (t? = none → first q ts = false) := by
  cases ts with
  | nil =>
    cases h
    exact ⟨rfl, nofun, fun _ => rfl⟩
  | cons t' ts =>
    rw [run_tokenIf?_cons] at h
    split_ifs at h with hq
    · cases h
      exact ⟨rfl, by rintro _ ⟨⟩; exact hq, nofun⟩
    · cases h
      exact ⟨rfl, nofun, fun _ => Bool.eq_false_iff.mpr hq⟩

theorem symbol_eq_some {text : String} {s : Span} (h : symbol text ts = some (s, rest)) :
    ∃ t, ts = t :: rest ∧ t.isSymbol text = true ∧ s = t.span := by
  obtain ⟨t, mid, ht, hs⟩ := bind_eq_some.mp h
  obtain ⟨hts, hq⟩ := tokenIf_eq_some ht
  cases hs
  exact ⟨t, hts, hq, rfl⟩

end Parser

def isImportKind (t : Token) : Bool := t.isKeyword "function" || t.isKeyword "const"

def isEnd (t : Token) : Bool := t.isSymbol ";" || t.kind == .closeTag

/-- The tokens of one import. -/
inductive IsEntry : List Token → Prop
  | plain {name : Token} (hname : Parser.isClassName name) : IsEntry [name]
  | renamed {name as own : Token} (hname : Parser.isClassName name) (has : as.isKeyword "as")
    (hown : Parser.isFreeWord own) : IsEntry [name, as, own]

inductive IsItem : List Token → Prop
  | ofClass {entry : List Token} (h : IsEntry entry) : IsItem entry
  | ofOther {kind : Token} {entry : List Token} (hkind : isImportKind kind) (h : IsEntry entry) :
    IsItem (kind :: entry)

/-- Parts with commas between them. -/
inductive Listed (Part : List Token → Prop) : List Token → Prop
  | single {part : List Token} (h : Part part) : Listed Part part
  | cons {part ts : List Token} {comma : Token} (h : Part part) (hcomma : comma.isSymbol ",")
    (hts : Listed Part ts) : Listed Part (part ++ comma :: ts)

/-- The tokens of a statement of imports between its keyword, with the word after it for what is
imported if it is no class, and its end. -/
inductive IsImports : List Token → Prop
  | list {ts : List Token} (h : Listed IsEntry ts) : IsImports ts
  | group {common back opening closing : Token} {inner : List Token}
    (hcommon : Parser.isClassName common) (hback : back.isSymbol "\\")
    (hopening : opening.isSymbol "\x7b") (hclosing : closing.isSymbol "\x7d")
    (h : Listed (fun part => part = [] ∨ IsItem part) inner) :
    IsImports (common :: back :: opening :: inner ++ [closing])

namespace Parser

variable {ts rest : List Token}

theorem importAlias_eq_some {u : Unit} (h : importAlias ts = some (u, rest)) :
    ts = rest ∨ ∃ as own, ts = as :: own :: rest ∧ as.isKeyword "as" ∧ isFreeWord own := by
  obtain ⟨span?, mid, hspan, hown⟩ := bind_eq_some.mp h
  obtain ⟨as?, mid', has, hspan⟩ := bind_eq_some.mp hspan
  obtain ⟨hts, hkeyword, -⟩ := tokenIf?_eq_some has
  cases hspan
  cases as? with
  | none =>
    cases hown
    exact Or.inl hts
  | some as =>
    obtain ⟨own, last, hword, hlast⟩ := bind_eq_some.mp hown
    obtain ⟨hmid, hfree⟩ := tokenIf_eq_some hword
    cases hlast
    rw [hmid] at hts
    exact Or.inr ⟨as, own, hts, hkeyword as rfl, hfree⟩

theorem entry_eq_some {u : Unit}
    (h : (do let _ ← className; importAlias : Parser Unit) ts = some (u, rest)) :
    ∃ entry, ts = entry ++ rest ∧ IsEntry entry := by
  obtain ⟨name, mid, hname, hown⟩ := bind_eq_some.mp h
  obtain ⟨rfl, hclass⟩ := tokenIf_eq_some hname
  rcases importAlias_eq_some hown with rfl | ⟨as, own, rfl, has, hfree⟩
  · exact ⟨[name], rfl, .plain hclass⟩
  · exact ⟨[name, as, own], rfl, .renamed hclass has hfree⟩

theorem importKind_eq_some {u : Unit} (h : importKind ts = some (u, rest)) :
    ts = rest ∨ ∃ kind, ts = kind :: rest ∧ isImportKind kind := by
  obtain ⟨b, mid, hb, hkind⟩ := bind_eq_some.mp h
  cases hb
  split_ifs at hkind with hfirst
  · obtain ⟨t, mid, ht, hlast⟩ := bind_eq_some.mp hkind
    obtain rfl := token_eq_some ht
    cases hlast
    exact Or.inr ⟨t, rfl, (Bool.and_eq_true_iff.mp hfirst).1⟩
  · cases hkind
    exact Or.inl rfl

theorem importEntry_eq_some {u : Unit} (h : importEntry ts = some (u, rest)) :
    ∃ item, ts = item ++ rest ∧ IsItem item := by
  obtain ⟨u', mid, hfirst, hentry⟩ := bind_eq_some.mp h
  obtain ⟨entry, rfl, hitem⟩ := entry_eq_some hentry
  rcases importKind_eq_some hfirst with rfl | ⟨kind, rfl, hkind⟩
  · exact ⟨entry, rfl, .ofClass hitem⟩
  · exact ⟨kind :: entry, rfl, .ofOther hkind hitem⟩

theorem manyUpTo_entries {bound : Nat} {us : List Unit}
    (h : manyUpTo (first (·.isSymbol ",")) (do
      let _ ← token
      let _ ← className
      importAlias) bound ts = some (us, rest)) {entry : List Token} (hentry : IsEntry entry) :
    ∃ more, ts = more ++ rest ∧ Listed IsEntry (entry ++ more) := by
  induction bound generalizing ts us entry with
  | zero =>
    cases h
    exact ⟨[], rfl, .single (by rwa [List.append_nil])⟩
  | succ bound ih =>
    obtain ⟨b, mid, hb, hround⟩ := bind_eq_some.mp h
    cases hb
    split_ifs at hround with hcomma
    · obtain ⟨u, mid, hnext, hrounds⟩ := bind_eq_some.mp hround
      obtain ⟨comma, mid', htoken, hname⟩ := bind_eq_some.mp hnext
      obtain rfl := token_eq_some htoken
      obtain ⟨entry', rfl, hpart⟩ := entry_eq_some hname
      obtain ⟨us', last, hlast, hend⟩ := bind_eq_some.mp hrounds
      cases hend
      obtain ⟨more, rfl, hlisted⟩ := ih hlast hpart
      exact ⟨comma :: (entry' ++ more), by simp, .cons hentry hcomma hlisted⟩
    · cases hround
      exact ⟨[], rfl, .single (by rwa [List.append_nil])⟩

def groupEntry : Parser Unit := do
  let x ← importEntry
  if (← symbol? ",").isNone && !(← atSymbol "\x7d") then failure
  return x

theorem groupEntry_eq_some {u : Unit} (h : groupEntry ts = some (u, rest)) :
    ∃ item, IsItem item ∧ ((ts = item ++ rest ∧ first (·.isSymbol "\x7d") rest = true) ∨
      ∃ comma, ts = item ++ comma :: rest ∧ comma.isSymbol ",") := by
  obtain ⟨u', mid, hentry, hround⟩ := bind_eq_some.mp h
  obtain ⟨item, rfl, hitem⟩ := importEntry_eq_some hentry
  obtain ⟨span?, mid', hspan, hround⟩ := bind_eq_some.mp hround
  obtain ⟨comma?, mid'', htoken, hpure⟩ := bind_eq_some.mp hspan
  obtain ⟨hmid, hcomma, -⟩ := tokenIf?_eq_some htoken
  cases hpure
  obtain ⟨b, mid₃, hb, hlast⟩ := bind_eq_some.mp hround
  cases hb
  dsimp only at hlast
  split_ifs at hlast with hfail
  · cases hlast
  · cases hlast
    refine ⟨item, hitem, ?_⟩
    cases comma? with
    | none => exact Or.inl ⟨by rw [hmid]; rfl, by simpa using hfail⟩
    | some comma => exact Or.inr ⟨comma, by rw [hmid]; rfl, hcomma comma rfl⟩

theorem run_manyUpTo_of_not {α : Type} {more : List Token → Bool} {p : Parser α} (bound : Nat)
    (h : more ts = false) : manyUpTo more p bound ts = some ([], ts) := by
  cases bound with
  | zero => rfl
  | succ bound =>
    rw [manyUpTo, run_bind, run_ahead, Option.bind_some, h]
    rfl

theorem manyUpTo_items {bound : Nat} {us : List Unit}
    (h : manyUpTo (fun ts => !first (·.isSymbol "\x7d") ts) groupEntry bound ts =
      some (us, rest)) :
    ∃ inner, ts = inner ++ rest ∧ Listed (fun part => part = [] ∨ IsItem part) inner := by
  induction bound generalizing ts us with
  | zero =>
    cases h
    exact ⟨[], rfl, .single (Or.inl rfl)⟩
  | succ bound ih =>
    obtain ⟨b, mid, hb, hround⟩ := bind_eq_some.mp h
    cases hb
    split_ifs at hround with hmore
    · obtain ⟨u, mid, hentry, hrounds⟩ := bind_eq_some.mp hround
      obtain ⟨us', last, hlast, hend⟩ := bind_eq_some.mp hrounds
      cases hend
      obtain ⟨item, hitem, ⟨rfl, hclose⟩ | ⟨comma, rfl, hcomma⟩⟩ := groupEntry_eq_some hentry
      · rw [run_manyUpTo_of_not bound (by rw [hclose]; rfl)] at hlast
        cases hlast
        exact ⟨item, rfl, .single (Or.inr hitem)⟩
      · obtain ⟨inner, rfl, hlisted⟩ := ih hlast
        exact ⟨item ++ comma :: inner, by simp, .cons (Or.inr hitem) hcomma hlisted⟩
    · cases hround
      exact ⟨[], rfl, .single (Or.inl rfl)⟩

theorem terminator_eq_some {s : Span} (h : terminator ts = some (s, rest)) :
    ∃ last more, ts = last :: more ∧ isEnd last ∧ (last.isSymbol ";" → s = last.span) ∧
      EndsIn ts s := by
  obtain ⟨last, mid, hlast, hspan⟩ := bind_eq_some.mp h
  obtain ⟨rfl, hend⟩ := tokenIf_eq_some hlast
  refine ⟨last, mid, rfl, hend, fun hsymbol => ?_, ?_⟩
  · have hkind : (last.kind == .closeTag) = false := by
      rw [Token.kind_of_isSymbol hsymbol]
      rfl
    rw [hkind] at hspan
    cases hspan
    rfl
  · split_ifs at hspan
    · obtain ⟨tag?, mid', htag, hpure⟩ := bind_eq_some.mp hspan
      obtain ⟨rfl, -, -⟩ := tokenIf?_eq_some htag
      cases tag? with
      | none =>
        cases hpure
        exact ⟨last, List.mem_cons_self, rfl⟩
      | some tag =>
        cases hpure
        exact ⟨tag, by simp, rfl⟩
    · cases hspan
      exact ⟨last, List.mem_cons_self, rfl⟩

theorem groupBody_eq_some {r : List Unit × Span}
    (h : (do
      let _ ← symbol "\x7b"
      commaListUpTo "\x7d" importEntry) ts = some (r, rest)) :
    ∃ opening inner closing, ts = opening :: (inner ++ closing :: rest) ∧ opening.isSymbol "\x7b" ∧
      closing.isSymbol "\x7d" ∧ Listed (fun part => part = [] ∨ IsItem part) inner := by
  obtain ⟨span, mid, hopening, hlist⟩ := bind_eq_some.mp h
  obtain ⟨us, mid', hmany, hlast⟩ := bind_eq_some.mp hlist
  obtain ⟨span', mid'', hclosing, hpair⟩ := bind_eq_some.mp hlast
  obtain ⟨opening, rfl, hopen, -⟩ := symbol_eq_some hopening
  obtain ⟨closing, rfl, hclose, -⟩ := symbol_eq_some hclosing
  obtain ⟨inner, rfl, hlisted⟩ := manyUpTo_items hmany
  cases hpair
  exact ⟨opening, inner, closing, rfl, hopen, hclose, hlisted⟩

/-- What a statement of imports is read from, after its keyword. -/
theorem useFrom_eq_some {start : Span} {s : Stmt} (h : useFrom start ts = some (s, rest)) :
    ∃ (kind : Option Token) (used : List Token) (last : Token) (more : List Token) (stop : Span),
      ts = kind.toList ++ used ++ last :: more ∧ (∀ k ∈ kind, isImportKind k) ∧ IsImports used ∧
      isEnd last ∧ s = .useDecl (start.through stop) ∧ (last.isSymbol ";" → stop = last.span) ∧
      EndsIn (last :: more) stop := by
  obtain ⟨u, mid, hfirst, hname⟩ := bind_eq_some.mp h
  obtain ⟨kind, hts, hkind⟩ : ∃ kind : Option Token, ts = kind.toList ++ mid ∧
      ∀ k ∈ kind, isImportKind k := by
    rcases importKind_eq_some hfirst with rfl | ⟨kind, rfl, hkind⟩
    · exact ⟨none, rfl, nofun⟩
    · exact ⟨some kind, rfl, by rintro _ ⟨⟩; exact hkind⟩
  obtain ⟨used, behind, hmid, hused, hterminator⟩ : ∃ used behind, mid = used ++ behind ∧
      IsImports used ∧
      (do return Stmt.useDecl (start.through (← terminator))) behind = some (s, rest) := by
    obtain ⟨name, mid', hclass, hback⟩ := bind_eq_some.mp hname
    obtain ⟨span?, more, hspan, hbody⟩ := bind_eq_some.mp hback
    obtain ⟨back?, more', htoken, hpure⟩ := bind_eq_some.mp hspan
    obtain ⟨rfl, hclassName⟩ := tokenIf_eq_some hclass
    obtain ⟨rfl, hsymbol, -⟩ := tokenIf?_eq_some htoken
    cases hpure
    cases back? with
    | some back =>
      obtain ⟨span, inner, hopening, hitems⟩ := bind_eq_some.mp hbody
      obtain ⟨r, behind, hlist, hterminator⟩ := bind_eq_some.mp hitems
      obtain ⟨opening, inner, closing, rfl, hopen, hclose, hlisted⟩ :=
        groupBody_eq_some (bind_eq_some.mpr ⟨span, _, hopening, hlist⟩)
      exact ⟨name :: back :: opening :: inner ++ [closing], behind, by simp,
        .group hclassName (hsymbol back rfl) hopen hclose hlisted, hterminator⟩
    | none =>
      obtain ⟨u', mid, halias, hitems⟩ := bind_eq_some.mp hbody
      obtain ⟨us, behind, hmany, hterminator⟩ := bind_eq_some.mp hitems
      obtain ⟨entry, hname, hentry⟩ := entry_eq_some (bind_eq_some.mpr ⟨name, _, hclass, halias⟩)
      obtain ⟨entries, rfl, hlisted⟩ := manyUpTo_entries hmany hentry
      exact ⟨entry ++ entries, behind, by simpa using hname, .list hlisted, hterminator⟩
  obtain ⟨stop, last', hstop, hdone⟩ := bind_eq_some.mp hterminator
  obtain ⟨last, more, rfl, hend, hspan, hends⟩ := terminator_eq_some hstop
  cases hdone
  exact ⟨kind, used, last, more, stop, by rw [hts, hmid, List.append_assoc], hkind, hused, hend, rfl,
    hspan, hends⟩

end Parser

end FactoryLint.Php
