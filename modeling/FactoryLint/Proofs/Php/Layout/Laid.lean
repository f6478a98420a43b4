import FactoryLint.Php.Declarations
import FactoryLint.Proofs.Php.Layout.Scanned
import FactoryLint.Proofs.Text.Gaps
import Mathlib.Data.List.Chain

namespace FactoryLint.Php

variable (source : List Char)

namespace Token

def after (t : Token) : List Char := (t.behind source).takeWhile Lexeme.isBlank

/-- Nothing but blanks stands between the tokens. -/
def IsNext (a b : Token) : Prop :=
  b.span.start = a.span.stop + Text.byteLength (a.after source)

instance (a b : Token) : Decidable (a.IsNext source b) := inferInstanceAs (Decidable (_ = _))

end Token

/-- The text of tokens, with the blanks behind each of them. -/
def laid (ts : List Token) : List Char := ts.flatMap fun t => t.text.toList ++ t.after source

variable {source}

theorem laid_cons (t : Token) (ts : List Token) :
    laid source (t :: ts) = t.text.toList ++ (t.after source ++ laid source ts) :=
  List.flatMap_cons.trans (List.append_assoc _ _ _)

theorem laid_append (ts ts' : List Token) :
    laid source (ts ++ ts') = laid source ts ++ laid source ts' :=
  List.flatMap_append

theorem laid_singleton (t : Token) : laid source [t] = t.text.toList ++ t.after source := by
  rw [laid_cons]
  exact congrArg _ (List.append_nil _)

namespace Token

theorem isBlank_of_mem_after (source : List Char) (t : Token) :
    ∀ c ∈ t.after source, Lexeme.isBlank c :=
  fun _ => List.mem_takeWhile_imp

variable {a b : Token}

theorem IsNext.behind_eq (h : a.IsNext source b) (ha : a.IsAt source) (hb : b.IsAt source) :
    a.behind source = a.after source ++ (b.text.toList ++ b.behind source) := by
  obtain ⟨before, hsource, hbefore⟩ := ha.place
  obtain ⟨before', hsource', hbefore'⟩ := hb.place
  obtain ⟨tail, htail⟩ : ∃ tail, a.behind source = a.after source ++ tail :=
    ⟨_, List.takeWhile_append_dropWhile.symm⟩
  have hcut : (before ++ a.text.toList ++ a.after source) ++ tail =
      before' ++ (b.text.toList ++ b.behind source) := by
    rw [htail] at hsource
    simpa only [List.append_assoc] using hsource.symm.trans hsource'
  rw [htail, (Text.append_inj_of_byteLength hcut ?_).2]
  rw [hbefore', h, ha.stop, Text.byteLength_append, Text.byteLength_append, hbefore]

theorem IsNext.after_ne_nil (h : a.IsNext source b) (ha : a.IsAt source) (hb : b.IsAt source)
    (hkind : a.kind = .name) (hname : Parser.isAnyName b) : a.after source ≠ [] := by
  intro hnil
  have hbehind := h.behind_eq ha hb
  have hfits := ha.fits
  have hfits' := hb.fits
  rw [hkind, hbehind, hnil, List.nil_append] at hfits
  obtain ⟨-, -, hstops, hback⟩ := hfits
  cases hkind' : b.kind with
  | name | qualifiedName =>
    rw [hkind'] at hfits'
    obtain ⟨c, hc, hstart⟩ := hfits'.1
    have hpart : Lexeme.isNamePart c = true := by rw [Lexeme.isNamePart, hstart, Bool.true_or]
    have hstop := hstops c (by rw [List.head?_append, hc]; rfl)
    exact Bool.false_ne_true (hstop.symm.trans hpart)
  | absoluteName =>
    rw [hkind'] at hfits'
    obtain ⟨⟨cs, hcs, c, hc, hstart⟩, -⟩ := hfits'
    rw [hcs] at hback
    exact hback (cs ++ b.behind source) rfl ⟨c, by rw [List.head?_append, hc]; rfl, hstart⟩
  | _ => simp [Parser.isAnyName, hkind'] at hname

variable {first last : Token} {init : List Token}

theorem IsAt.stops (h : a.IsAt source) (hname : Parser.isAnyName a) : Stops (a.behind source) := by
  have hfits := h.fits
  cases hkind : a.kind with
  | name =>
    rw [hkind] at hfits
    exact hfits.2.2.1
  | qualifiedName =>
    rw [hkind] at hfits
    exact hfits.2.2.2
  | absoluteName =>
    rw [hkind] at hfits
    exact hfits.2.2
  | _ => simp [Parser.isAnyName, hkind] at hname

theorem laid_prefix_behind {ts : List Token} (hat : ∀ t ∈ a :: ts, t.IsAt source)
    (hchain : (a :: ts).IsChain (IsNext source)) :
    a.after source ++ laid source ts <+: a.behind source := by
  induction ts generalizing a with
  | nil =>
    rw [show laid source [] = [] from rfl, List.append_nil]
    exact List.takeWhile_prefix _
  | cons b ts ih =>
    obtain ⟨ha, hts⟩ := List.forall_mem_cons.mp hat
    obtain ⟨hnext, hchain⟩ := List.isChain_cons_cons.mp hchain
    rw [hnext.behind_eq ha (hts b List.mem_cons_self), laid_cons, List.prefix_append_right_inj,
      List.prefix_append_right_inj]
    exact ih hts hchain

theorem text_behind (hfirst : first ∈ (init ++ [last]).head?)
    (hat : ∀ t ∈ init ++ [last], t.IsAt source) (hchain : (init ++ [last]).IsChain (IsNext source)) :
    first.text.toList ++ first.behind source =
        laid source init ++ last.text.toList ++ last.behind source ∧
      last.span.stop = first.span.start + Text.byteLength (laid source init ++ last.text.toList) := by
  induction init generalizing first with
  | nil =>
    obtain rfl := Option.some.inj hfirst
    exact ⟨rfl, (hat last List.mem_cons_self).stop⟩
  | cons a init ih =>
    obtain rfl := Option.some.inj hfirst
    obtain ⟨b, hb⟩ : ∃ b, b ∈ (init ++ [last]).head? := by
      cases init with
      | nil => exact ⟨last, rfl⟩
      | cons b init => exact ⟨b, rfl⟩
    rw [List.cons_append] at hchain
    obtain ⟨hnext, hchain⟩ := List.isChain_cons.mp hchain
    have hat' : ∀ t ∈ init ++ [last], t.IsAt source := fun t ht =>
      hat t (List.mem_cons_of_mem _ ht)
    have ha := hat a List.mem_cons_self
    obtain ⟨htext, hstop⟩ := ih hb hat' hchain
    rw [(hnext b hb).behind_eq ha (hat' b (List.mem_of_mem_head? hb)), htext, laid_cons, hstop,
      hnext b hb, ha.stop]
    simp only [Text.byteLength_append, List.append_assoc, true_and]
    omega

/-- The text from one token to another one goes as far as what follows the first one. -/
theorem IsAt.prefix_textOf {further : Token} {text : List Char} (h : first.IsAt source)
    (htext : text <+: first.text.toList ++ first.behind source) (hfurther : further.IsAt source)
    (hle : first.span.start + Text.byteLength text ≤ further.span.stop) :
    text <+: textOf source (first.span.through further.span) := by
  obtain ⟨before, hsource, hbefore⟩ := h.place
  obtain ⟨before', hsource', hbefore'⟩ := hfurther.place
  obtain ⟨behind, hbehind⟩ := htext
  have hlen : Text.byteLength (before' ++ further.text.toList) = further.span.stop := by
    rw [Text.byteLength_append, hbefore', hfurther.stop]
  rw [← hbehind, ← List.append_assoc] at hsource
  rw [← List.append_assoc] at hsource'
  obtain ⟨more, hmore⟩ : before ++ text <+: before' ++ further.text.toList := by
    refine Text.prefix_of_byteLength_le (hsource.symm.trans hsource') ?_
    rw [Text.byteLength_append, hbefore, hlen]
    exact hle
  rw [← hmore, List.append_assoc before] at hsource' hlen
  rw [Text.byteLength_append, hbefore] at hlen
  have hslice := Text.slice?_length (s := first.span.through further.span) hbefore hlen
    (further.behind source)
  rw [← hsource'] at hslice
  rw [textOf, hslice, Option.getD_some]
  exact List.prefix_append text more

theorem textOf_laid (hfirst : first ∈ (init ++ [last]).head?)
    (hat : ∀ t ∈ init ++ [last], t.IsAt source) (hchain : (init ++ [last]).IsChain (IsNext source)) :
    textOf source (first.span.through last.span) = laid source init ++ last.text.toList := by
  obtain ⟨htext, hstop⟩ := text_behind hfirst hat hchain
  obtain ⟨before, hsource, hbefore⟩ := (hat first (List.mem_of_mem_head? hfirst)).place
  have hslice := Text.slice?_length (s := first.span.through last.span) hbefore hstop.symm
    (last.behind source)
  rw [List.append_assoc before, ← htext, ← hsource] at hslice
  rw [textOf, hslice, Option.getD_some]

theorem prefix_textOf {further : Token} (hfirst : first ∈ (init ++ [last]).head?)
    (hat : ∀ t ∈ init ++ [last], t.IsAt source) (hchain : (init ++ [last]).IsChain (IsNext source))
    (hfurther : further.IsAt source) (hle : last.span.stop ≤ further.span.stop) :
    laid source init ++ last.text.toList <+: textOf source (first.span.through further.span) := by
  obtain ⟨htext, hstop⟩ := text_behind hfirst hat hchain
  refine (hat first (List.mem_of_mem_head? hfirst)).prefix_textOf ?_ hfurther (hstop ▸ hle)
  rw [htext]
  exact List.prefix_append _ _

theorem IsAt.exists_behind (ha : a.IsAt source) (hb : b.IsAt source)
    (hle : a.span.stop ≤ b.span.start) : ∃ gap,
      a.behind source = gap ++ (b.text.toList ++ b.behind source) ∧
      b.span.start = a.span.stop + Text.byteLength gap := by
  obtain ⟨before, hsource, hbefore⟩ := ha.place
  obtain ⟨before', hsource', hbefore'⟩ := hb.place
  have hlen : Text.byteLength (before ++ a.text.toList) = a.span.stop := by
    rw [Text.byteLength_append, hbefore, ha.stop]
  rw [← List.append_assoc] at hsource
  obtain ⟨gap, hgap⟩ : before ++ a.text.toList <+: before' :=
    Text.prefix_of_byteLength_le (hsource.symm.trans hsource') (by rw [hlen, hbefore']; exact hle)
  rw [← hgap, List.append_assoc] at hsource'
  refine ⟨gap, List.append_cancel_left (hsource.symm.trans hsource'), ?_⟩
  rw [← hbefore', ← hgap, Text.byteLength_append, hlen]

end Token

end FactoryLint.Php
