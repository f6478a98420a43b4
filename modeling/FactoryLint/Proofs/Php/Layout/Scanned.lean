import FactoryLint.Php.Token.Scan
import FactoryLint.Proofs.Php.Names
import FactoryLint.Proofs.Text.Cut

namespace FactoryLint.Php

namespace Lexeme

variable {cs : List Char}

def HasName (cs : List Char) : Prop := ∃ c ∈ cs.head?, isNameStart c

theorem HasName.take {n : Nat} (h : HasName cs) (hn : n ≠ 0) : HasName (cs.take n) := by
  rwa [HasName, List.head?_take, if_neg hn]

theorem segment_pos_iff : 0 < segment cs ↔ HasName cs := by
  cases cs with
  | nil => simp [segment, HasName]
  | cons c cs =>
    rw [segment, HasName]
    split_ifs with h
    · simp [h, Nat.add_comm]
    · simp [h]

theorem length_takeWhile_isNamePart (h : HasName cs) :
    (cs.takeWhile isNamePart).length = segment cs := by
  obtain ⟨c, hc, hstart⟩ := h
  cases cs with
  | nil => cases hc
  | cons d cs =>
    obtain rfl := Option.some.inj hc
    have hpart : isNamePart d = true := by rw [isNamePart, hstart, Bool.true_or]
    rw [segment, if_pos hstart, List.takeWhile_cons_of_pos hpart, List.length_cons, Nat.add_comm]

theorem take_segment (h : HasName cs) : cs.take (segment cs) = cs.takeWhile isNamePart := by
  rw [← length_takeWhile_isNamePart h, ← List.prefix_iff_eq_take.mp (List.takeWhile_prefix _)]

theorem drop_segment (h : HasName cs) : cs.drop (segment cs) = cs.dropWhile isNamePart := by
  have hwhole := List.take_append_drop (segment cs) cs
  rw [take_segment h] at hwhole
  exact List.append_cancel_left (hwhole.trans List.takeWhile_append_dropWhile.symm)

def IsName (cs : List Char) : Prop := ∀ c ∈ cs, isNamePart c ∨ c = '\\'

theorem IsName.append {cs' : List Char} (h : IsName cs) (h' : IsName cs') : IsName (cs ++ cs') :=
  fun c hc => (List.mem_append.mp hc).elim (h c) (h' c)

theorem isName_take_segment (cs : List Char) : IsName (cs.take (segment cs)) := by
  intro c hc
  by_cases h : HasName cs
  · rw [take_segment h] at hc
    exact Or.inl (List.mem_takeWhile_imp hc)
  · rw [← segment_pos_iff, Nat.pos_iff_ne_zero, not_not] at h
    rw [h] at hc
    cases hc

theorem isName_take_moreSegments (bound : Nat) (cs : List Char) :
    IsName (cs.take (moreSegments bound cs)) := by
  fun_induction moreSegments bound cs with
  | case1 | case2 | case4 => exact nofun
  | case3 bound cs n hn ih =>
    intro c hc
    rw [show n + 2 + moreSegments bound (cs.drop (n + 1)) =
      (n + 1 + moreSegments bound (cs.drop (n + 1))) + 1 by omega, List.take_succ_cons,
      List.take_add] at hc
    rcases List.mem_cons.mp hc with rfl | hc
    · exact Or.inr rfl
    · rcases List.mem_append.mp hc with hc | hc
      · exact isName_take_segment cs c (hn ▸ hc)
      · exact ih c hc

theorem stops_drop_segment (h : HasName cs) : Stops (cs.drop (segment cs)) := by
  rw [drop_segment h]
  intro c hc
  have hnot := List.head?_dropWhile_not isNamePart cs
  rw [hc] at hnot
  exact hnot

theorem stops_drop_moreSegments (bound : Nat) {cs : List Char} (h : Stops cs) :
    Stops (cs.drop (moreSegments bound cs)) := by
  fun_induction moreSegments bound cs with
  | case1 | case2 | case4 => exact h
  | case3 bound cs n hn ih =>
    have hdrop := stops_drop_segment (segment_pos_iff.mp (by omega : 0 < segment cs))
    rw [hn] at hdrop
    replace hdrop := ih hdrop
    rw [List.drop_drop] at hdrop
    rw [show n + 2 + moreSegments bound (cs.drop (n + 1)) =
      (n + 1 + moreSegments bound (cs.drop (n + 1))) + 1 by omega]
    exact hdrop

theorem mem_take_moreSegments {bound : Nat} (h : moreSegments bound cs ≠ 0) :
    '\\' ∈ cs.take (moreSegments bound cs) := by
  obtain ⟨n, hn⟩ := Nat.exists_eq_succ_of_ne_zero h
  obtain ⟨rest, rfl⟩ : ∃ rest, cs = '\\' :: rest := by
    rw [moreSegments.eq_def] at h
    split at h
    · exact absurd rfl h
    · exact ⟨_, rfl⟩
    · exact absurd rfl h
  rw [hn, List.take_succ_cons]
  exact List.mem_cons_self

/-- Where no segment follows, no name follows a backslash. -/
theorem not_hasName_of_moreSegments {bound : Nat} (h : moreSegments (bound + 1) ('\\' :: cs) = 0) :
    ¬HasName cs := by
  rw [← segment_pos_iff]
  intro hpos
  rw [moreSegments] at h
  split at h <;> omega

end Lexeme

namespace Mode

/-- What the text of a name is like, and what follows it. -/
def Fits (kind : TokenKind) (text behind : List Char) : Prop :=
  match kind with
  | .name => Lexeme.HasName text ∧ (∀ c ∈ text, Lexeme.isNamePart c) ∧ Stops behind ∧
    ∀ cs, behind = '\\' :: cs → ¬Lexeme.HasName cs
  | .qualifiedName => Lexeme.HasName text ∧ Lexeme.IsName text ∧ '\\' ∈ text ∧ Stops behind
  | .absoluteName =>
    (∃ cs, text = '\\' :: cs ∧ Lexeme.HasName cs) ∧ Lexeme.IsName text ∧ Stops behind
  | _ => True

def FindsNames (found? : Option Found) (cs : List Char) : Prop :=
  ∀ found ∈ found?, ∀ kind ∈ found.kind,
    Fits kind (cs.take found.length) (cs.drop found.length)

variable {cs : List Char} (outer : List Mode)

theorem nextName_findsNames (h : Lexeme.HasName cs) : FindsNames (nextName outer cs) cs := by
  have hpos : Lexeme.segment cs ≠ 0 := Nat.pos_iff_ne_zero.mp (Lexeme.segment_pos_iff.mpr h)
  intro found hfound kind hkind
  rw [nextName] at hfound
  split at hfound
  · rename_i hmore
    have hname : kind = .name ∧ found.length = Lexeme.segment cs := by
      split_ifs at hfound <;> obtain rfl := Option.some.inj hfound <;>
        exact ⟨(Option.some.inj hkind).symm, rfl⟩
    obtain ⟨rfl, hlen⟩ := hname
    rw [hlen]
    refine ⟨h.take hpos, ?_, ?_, ?_⟩
    · rw [Lexeme.take_segment h]
      exact fun c hc => List.mem_takeWhile_imp hc
    · exact Lexeme.stops_drop_segment h
    · intro cs' hcs'
      obtain ⟨bound, hbound⟩ : ∃ bound, cs.length = bound + 1 := by
        cases cs with
        | nil => exact absurd rfl hpos
        | cons c cs => exact ⟨_, rfl⟩
      rw [hcs', hbound] at hmore
      exact Lexeme.not_hasName_of_moreSegments hmore
  · obtain rfl := Option.some.inj hfound
    obtain rfl := Option.some.inj hkind
    rename_i hmore
    refine ⟨h.take (by dsimp only; omega), ?_⟩
    rw [List.take_add]
    refine ⟨(Lexeme.isName_take_segment cs).append (Lexeme.isName_take_moreSegments _ _), ?_⟩
    refine ⟨List.mem_append_right _ (Lexeme.mem_take_moreSegments hmore), ?_⟩
    rw [← List.drop_drop]
    exact Lexeme.stops_drop_moreSegments _ (Lexeme.stops_drop_segment h)

def FindsNone (found? : Option Found) : Prop :=
  ∀ found ∈ found?, ∀ kind ∈ found.kind, kind ∉ [.name, .qualifiedName, .absoluteName]

theorem FindsNone.findsNames {found? : Option Found} (h : FindsNone found?) (cs : List Char) :
    FindsNames found? cs := by
  intro found hfound kind hkind
  have hnot := h found hfound kind hkind
  cases kind with
  | name | qualifiedName | absoluteName => exact absurd (by decide) hnot
  | _ => trivial

theorem findsNone_some {kind : Option TokenKind} {length : Nat} {modes : List Mode}
    (h : ∀ k ∈ kind, k ∉ [.name, .qualifiedName, .absoluteName]) :
    FindsNone (some ⟨kind, length, modes⟩) := by
  rintro _ ⟨⟩
  exact h

theorem nextSymbol_findsNone (cs : List Char) : FindsNone (nextSymbol outer cs) := by
  rw [nextSymbol]
  split
  · exact nofun
  all_goals exact findsNone_some (by rintro _ ⟨⟩; decide)

theorem nextDocument_findsNone (cs : List Char) : FindsNone (nextDocument outer cs) := by
  rw [nextDocument]
  split
  · exact findsNone_some (by rintro _ ⟨⟩; split_ifs <;> decide)
  · exact nextSymbol_findsNone outer _

theorem nextDoubleQuoted_findsNone (before : Nat) (cs : List Char) :
    FindsNone (nextDoubleQuoted outer before cs) := by
  rw [nextDoubleQuoted]
  split
  · exact findsNone_some (by rintro _ ⟨⟩; decide)
  · exact findsNone_some (by rintro _ ⟨⟩; decide)
  · exact nofun

theorem findsNone_map {length? : Option Nat} {f : Nat → Found}
    (h : ∀ n, FindsNone (some (f n))) : FindsNone (length?.map f) := by
  cases length? with
  | none => exact nofun
  | some n => exact h n

theorem nextSingleQuoted_findsNone (before : Nat) (cs : List Char) :
    FindsNone (nextSingleQuoted outer before cs) :=
  findsNone_map fun _ => findsNone_some (by rintro _ ⟨⟩; decide)

theorem nextCode_findsNames (cs : List Char) : FindsNames (nextCode outer cs) cs := by
  have hsymbol : ∀ length modes, FindsNames (some ⟨some .symbol, length, modes⟩) cs := fun _ _ =>
    (findsNone_some (by rintro _ ⟨⟩; decide)).findsNames cs
  have hnumber : ∀ length modes, FindsNames (some ⟨some .number, length, modes⟩) cs := fun _ _ =>
    (findsNone_some (by rintro _ ⟨⟩; decide)).findsNames cs
  have hblank : ∀ length modes, FindsNames (some ⟨none, length, modes⟩) cs := fun _ _ =>
    (@findsNone_some none _ _ nofun).findsNames cs
  rw [nextCode.eq_def]
  dsimp only
  split
  · exact nofun
  · exact (findsNone_some (by rintro _ ⟨⟩; decide)).findsNames _
  · exact hsymbol _ _
  · exact hblank _ _
  · exact hblank _ _
  · exact (findsNone_map fun _ => @findsNone_some none _ _ nofun).findsNames _
  · exact (nextSingleQuoted_findsNone outer _ _).findsNames _
  · exact (nextDoubleQuoted_findsNone outer _ _).findsNames _
  · exact (findsNone_some (by rintro _ ⟨⟩; decide)).findsNames _
  · exact (nextSingleQuoted_findsNone outer _ _).findsNames _
  · exact (nextSingleQuoted_findsNone outer _ _).findsNames _
  · exact (nextDoubleQuoted_findsNone outer _ _).findsNames _
  · exact (nextDoubleQuoted_findsNone outer _ _).findsNames _
  · exact (nextDocument_findsNone outer _).findsNames _
  · split
    · exact (findsNone_some (by rintro _ ⟨⟩; decide)).findsNames _
    · exact hsymbol _ _
  · split
    · exact hsymbol _ _
    · exact (findsNone_some (by rintro _ ⟨⟩; decide)).findsNames _
  · rename_i rest
    split
    · exact hsymbol _ _
    · rename_i hsegment
      have hrest : Lexeme.HasName rest := Lexeme.segment_pos_iff.mp (Nat.pos_of_ne_zero hsegment)
      rintro _ ⟨⟩ _ ⟨⟩
      dsimp only
      rw [Nat.add_assoc, Nat.add_comm 1, List.take_succ_cons]
      refine ⟨⟨_, rfl, hrest.take fun hzero => hsegment (Nat.add_eq_zero_iff.mp hzero).1⟩, ?_⟩
      rw [List.take_add]
      have hname := (Lexeme.isName_take_segment rest).append (Lexeme.isName_take_moreSegments
        rest.length (rest.drop (Lexeme.segment rest)))
      refine ⟨List.forall_mem_cons.mpr ⟨Or.inr rfl, hname⟩, ?_⟩
      rw [List.drop_succ_cons, ← List.drop_drop]
      exact Lexeme.stops_drop_moreSegments _ (Lexeme.stops_drop_segment hrest)
  · split_ifs
    · exact hnumber _ _
    · exact (nextSymbol_findsNone outer _).findsNames _
  · split_ifs with _ _ hstart
    · exact hblank _ _
    · exact hnumber _ _
    · exact nextName_findsNames outer ⟨_, rfl, hstart⟩
    · exact (nextSymbol_findsNone outer _).findsNames _

theorem next_findsNames (modes : List Mode) (cs : List Char) : FindsNames (next modes cs) cs := by
  cases modes with
  | nil => exact nofun
  | cons mode outer =>
    cases mode with
    | text =>
      refine FindsNone.findsNames ?_ cs
      rw [next, nextText.eq_def]
      split
      · split_ifs <;> exact findsNone_some (by rintro _ ⟨⟩; decide)
      · exact findsNone_some (by rintro _ ⟨⟩; decide)
    | code => exact nextCode_findsNames outer cs
    | template quote =>
      refine FindsNone.findsNames ?_ cs
      rw [next, nextTemplate.eq_def]
      dsimp only
      split
      · exact findsNone_some (by rintro _ ⟨⟩; decide)
      · exact findsNone_some (by rintro _ ⟨⟩; decide)
      · split_ifs <;> exact findsNone_some (by rintro _ ⟨⟩; decide)
      · exact nofun
    | document label holes fresh =>
      refine FindsNone.findsNames ?_ cs
      rw [next, nextInDocument]
      split
      · exact findsNone_some (by rintro _ ⟨⟩; decide)
      · split
        · dsimp only
          split
          · exact findsNone_some (by rintro _ ⟨⟩; decide)
          · exact findsNone_some (by rintro _ ⟨⟩; decide)
          · exact nofun
        · exact findsNone_some (by rintro _ ⟨⟩; decide)
    | halting left =>
      cases left with
      | zero => exact (findsNone_some (by rintro _ ⟨⟩; decide)).findsNames cs
      | succ left =>
        intro found hfound kind hkind
        obtain ⟨found', hfound', rfl⟩ := Option.map_eq_some_iff.mp hfound
        exact nextCode_findsNames outer cs found' hfound' kind hkind

end Mode

namespace Token

def behind (source : List Char) (t : Token) : List Char :=
  ((Text.cut? t.span.stop source).map Prod.snd).getD []

structure IsAt (source : List Char) (t : Token) : Prop where
  place : ∃ before, source = before ++ (t.text.toList ++ t.behind source) ∧
    Text.byteLength before = t.span.start
  stop : t.span.stop = t.span.start + Text.byteLength t.text.toList
  fits : Mode.Fits t.kind t.text.toList (t.behind source)

theorem scanFrom_nil {bound offset : Nat} {modes : List Mode} {tokens : List Token}
    (h : scanFrom bound modes offset [] = some tokens) : tokens = [] := by
  rw [scanFrom] at h
  split_ifs at h
  exact (Option.some.inj h).symm

theorem scanFrom_isAt {source before cs : List Char} {bound offset : Nat} {modes : List Mode}
    {tokens : List Token} (h : scanFrom bound modes offset cs = some tokens)
    (hsource : source = before ++ cs) (hbefore : Text.byteLength before = offset) :
    (∀ t ∈ tokens, t.IsAt source ∧ offset ≤ t.span.start) ∧
      tokens.Pairwise fun a b => a.span.stop ≤ b.span.start := by
  induction bound generalizing modes offset before cs tokens with
  | zero =>
    cases cs with
    | nil => exact ⟨by simp [scanFrom_nil h], by simp [scanFrom_nil h]⟩
    | cons c cs => cases h
  | succ bound ih =>
    cases cs with
    | nil => exact ⟨by simp [scanFrom_nil h], by simp [scanFrom_nil h]⟩
    | cons c cs =>
      obtain ⟨found, hfound, h⟩ := Option.bind_eq_some_iff.mp h
      obtain ⟨rest, hrest, h⟩ := Option.bind_eq_some_iff.mp h
      have hnames := Mode.next_findsNames modes (c :: cs) found hfound
      generalize htext : (c :: cs).take found.length = text at h hrest hnames
      generalize hbehind : (c :: cs).drop found.length = behind at hrest hnames
      have hcs : source = before ++ text ++ behind := by
        rw [List.append_assoc, ← htext, ← hbehind, List.take_append_drop, hsource]
      have hlen : Text.byteLength (before ++ text) = offset + Text.byteLength text := by
        rw [Text.byteLength_append, hbefore]
      obtain ⟨hat, hsorted⟩ := ih hrest hcs hlen
      have hafter : ∀ t ∈ rest, t.IsAt source ∧ offset ≤ t.span.start := fun t ht =>
        ⟨(hat t ht).1, (Nat.le_add_right _ _).trans (hat t ht).2⟩
      cases hkind : found.kind with
      | none =>
        rw [hkind] at h
        obtain rfl := Option.some.inj h
        exact ⟨hafter, hsorted⟩
      | some kind =>
        rw [hkind] at h
        obtain rfl := Option.some.inj h
        have hcut : Text.cut? (offset + Text.byteLength text) source = some (before ++ text, behind) := by
          rw [← hlen, hcs, Text.cut?_length]
        have hword : (String.ofList text).toList = text := String.toList_ofList
        have hbehind' : ∀ ts : Token, ts.span.stop = offset + Text.byteLength text →
            ts.behind source = behind := fun t ht => by rw [Token.behind, ht, hcut]; rfl
        have htoken : IsAt source ⟨kind, ⟨offset, offset + Text.byteLength text⟩, .ofList text⟩ := by
          refine ⟨⟨before, ?_, hbefore⟩, congrArg (offset + ·) (congrArg _ hword.symm), ?_⟩
          · rw [hbehind' _ rfl, hword, hcs, List.append_assoc]
          · rw [hbehind' _ rfl, hword]
            exact hnames kind hkind
        refine ⟨List.forall_mem_cons.mpr ⟨⟨htoken, Nat.le_refl _⟩, hafter⟩, ?_⟩
        exact List.pairwise_cons.mpr ⟨fun t ht => (hat t ht).2, hsorted⟩

/-- The tokens of a source stand in it one after another. -/
theorem scan?_isAt {source : String} {tokens : List Token} (h : scan? source = some tokens) :
    (∀ t ∈ tokens, t.IsAt source.toList) ∧
      tokens.Pairwise fun a b => a.span.stop ≤ b.span.start := by
  obtain ⟨hat, hsorted⟩ := scanFrom_isAt h (List.nil_append _).symm rfl
  exact ⟨fun t ht => (hat t ht).1, hsorted⟩

end Token

end FactoryLint.Php
