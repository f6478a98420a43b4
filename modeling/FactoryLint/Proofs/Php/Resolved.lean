import FactoryLint.Proofs.Php.Declared
import FactoryLint.Proofs.Php.Imports

namespace FactoryLint.Php

open Text (gap lower IsTight)

theorem QualifiedName.after?_eq_none {name : QualifiedName}
    (h : name.first.text ≠ "namespace".toList) :
    Text.after? "namespace\\".toList name.text = none := by
  cases hafter : Text.after? "namespace\\".toList name.text with
  | none => rfl
  | some behind =>
    have hword : "namespace\\".toList = "namespace".toList ++ ['\\'] := by decide
    have htext := Text.append_of_after? hafter
    rw [hword, List.append_assoc, QualifiedName.text] at htext
    have hrest : Stops name.restText := by
      intro c hc
      rw [name.head?_restText c hc]
      decide
    obtain ⟨hfirst, -⟩ := Text.append_inj_of_stop (List.all_eq_true.mp (by decide))
      name.first.isNamePart (stops_cons (by decide) _) hrest htext
    exact absurd hfirst.symm h

theorem Naming.inSpace_inj {n : Naming} {name name' : List Char}
    (h : n.inSpace name = n.inSpace name') : name = name' := by
  unfold inSpace at h
  split at h
  · exact List.cons_injective (List.append_cancel_left h)
  · exact h

def Reference.IsLower : Reference → Prop
  | .relative keyword _ _ => keyword.text = "namespace".toList
  | .absolute _ | .plain .. => True

instance : (r : Reference) → Decidable r.IsLower
  | .relative keyword _ _ => inferInstanceAs (Decidable (keyword.text = "namespace".toList))
  | .absolute _ | .plain .. => inferInstanceAs (Decidable True)

namespace Environment

variable (env : Environment)

/-- What a walk carries along. -/
def naming : Naming := ⟨env.space.map QualifiedName.text, Naming.noted env.imports⟩

theorem inSpace_naming (name : QualifiedName) :
    env.naming.inSpace name.text = (env.within name).text := by
  rw [Naming.inSpace, naming, within]
  cases env.space with
  | none => rfl
  | some space => exact (space.text_append name).symm

theorem lookup_naming (s : Segment) :
    env.naming.imports.lookup (lower s.text) = (env.imported? s).map QualifiedName.text := by
  rw [naming, Naming.noted, imported?]
  induction env.imports with
  | nil => rfl
  | cons i imports ih =>
    rw [List.map_cons, List.lookup_cons, List.find?_cons]
    by_cases h : lower i.1.text = lower s.text
    · simp [h]
    · have hkey : (lower s.text == lower i.1.text) = false := beq_false_of_ne (Ne.symm h)
      rw [hkey, decide_eq_false h]
      exact ih

theorem qualify_plain {name : QualifiedName} (h : IsTight name.text)
    (hrelative : Text.after? "namespace\\".toList name.text = none) :
    env.naming.qualify name.text = match env.imported? name.first with
      | some full => (full.extend name.rest).text
      | none => (env.within name).text := by
  have habsolute : Text.after? ['\\'] name.text = none :=
    Text.after?_eq_none_of_head name.head?_text
  have hdrop : name.text.drop name.first.text.length = name.restText := List.drop_left
  simp only [Naming.qualify, h.trim_eq, habsolute, hrelative, name.takeWhile_text, hdrop,
    lookup_naming, inSpace_naming]
  cases env.imported? name.first with
  | none => rfl
  | some full => exact (full.text_extend name.rest).symm

theorem qualify_reference {r : Reference} (h : IsTight r.text) (hlower : r.IsLower) :
    env.naming.qualify r.text = (env.resolve r).text := by
  cases r with
  | absolute name =>
    rw [Naming.qualify, h.trim_eq]
    rfl
  | relative keyword isKeyword name =>
    have htext : (Reference.relative keyword isKeyword name).text =
        "namespace\\".toList ++ name.text := by
      rw [Reference.text, show keyword.text = "namespace".toList from hlower]
      rfl
    have habsolute : Text.after? ['\\'] ("namespace\\".toList ++ name.text) = none := by
      apply Text.after?_eq_none_of_head
      rintro c ⟨⟩
      decide
    rw [htext] at h ⊢
    simp only [Naming.qualify, h.trim_eq, habsolute, Text.after?_append_self, inSpace_naming]
    rfl
  | plain name free =>
    have hfirst : name.first.text ≠ "namespace".toList := by
      intro he
      apply free.1
      rw [he]
      decide
    refine (env.qualify_plain h (QualifiedName.after?_eq_none hfirst)).trans ?_
    rw [resolve]
    cases env.imported? name.first <;> rfl

theorem qualify_segment {name : Segment} (h : IsTight name.text)
    (hnone : env.imported? name = none) :
    env.naming.qualify name.text = (env.within ⟨name, []⟩).text := by
  have htext : (⟨name, []⟩ : QualifiedName).text = name.text := List.append_nil _
  have hrelative : Text.after? "namespace\\".toList name.text = none :=
    Text.after?_eq_none_of_not_mem (w := '\\') (by decide) (name.not_mem (by decide))
  rw [← htext] at h hrelative ⊢
  rw [env.qualify_plain h hrelative, hnone]

end Environment

namespace Line

/-- No name of the line is written with blanks at its ends. -/
def IsTight : Line → Prop
  | .enter head => ∀ name ∈ head.name?, Text.IsTight name.text
  | .use u => u.body.IsTight
  | .declare _ name parent => Text.IsTight name.text ∧ ∀ r ∈ parent, Text.IsTight r.text
  | .other => True

/-- In front of the braces of imported classes, the backslash directly follows the name. -/
def IsJoined : Line → Prop
  | .use u => u.kind = .classes → u.body.IsJoined u.layout
  | .enter _ | .declare .. | .other => True

def IsLower : Line → Prop
  | .declare _ _ parent => ∀ r ∈ parent, r.IsLower
  | .enter _ | .use _ | .other => True

instance : (line : Line) → Decidable line.IsTight
  | .enter head => inferInstanceAs (Decidable (∀ name ∈ head.name?, Text.IsTight name.text))
  | .use u => inferInstanceAs (Decidable u.body.IsTight)
  | .declare _ name parent =>
    inferInstanceAs (Decidable (Text.IsTight name.text ∧ ∀ r ∈ parent, Text.IsTight r.text))
  | .other => inferInstanceAs (Decidable True)

instance : (line : Line) → Decidable line.IsJoined
  | .use u => inferInstanceAs (Decidable (u.kind = .classes → u.body.IsJoined u.layout))
  | .enter _ | .declare .. | .other => inferInstanceAs (Decidable True)

instance : (line : Line) → Decidable line.IsLower
  | .declare _ _ parent => inferInstanceAs (Decidable (∀ r ∈ parent, r.IsLower))
  | .enter _ | .use _ | .other => inferInstanceAs (Decidable True)

variable {source : List Char} {line : Line} {v : Visited}

theorem Fits.next?_eq (h : line.Fits source v) (htight : line.IsTight) (hjoined : line.IsJoined)
    (env : Environment) : env.naming.next? source v = some (env.next line).naming := by
  cases h with
  | enter h =>
    obtain ⟨rest, hrest⟩ := h
    rw [Naming.next?, ← hrest, NamespaceHead.enterSpace_text htight]
    rfl
  | use h =>
    rw [Naming.next?, h, UseStatement.addImports?_text htight hjoined]
    simp [Environment.next, Environment.naming, Naming.noted]
  | declare => rfl
  | other h =>
    cases v with
    | expr e => rfl
    | stmt s => cases s <;> first | exact False.elim h | rfl

theorem Fits.declared?_eq (h : line.Fits source v) (htight : line.IsTight) (hlower : line.IsLower)
    {env : Environment} (hadmits : env.Admits line) :
    env.naming.declared? v = env.declared? line := by
  cases h with
  | enter h => rfl
  | use h => rfl
  | @declare span name parent body =>
    rw [Naming.declared?, Environment.declared?, String.toList_ofList,
      env.qualify_segment htight.1 hadmits]
    cases parent with
    | none => rfl
    | some r => rw [Option.map_some, Option.map_some, Option.map_some, String.toList_ofList,
        env.qualify_reference (htight.2 r rfl) (hlower r rfl)]
  | other h =>
    cases v with
    | expr e => rfl
    | stmt s => cases s <;> first | exact False.elim h | rfl

end Line

theorem collect?_of_fits {source : List Char} {lines : List Line} {vs : List Visited}
    (h : List.Forall₂ (Line.Fits source) lines vs) (htight : ∀ line ∈ lines, line.IsTight)
    (hjoined : ∀ line ∈ lines, line.IsJoined) (hlower : ∀ line ∈ lines, line.IsLower)
    {env : Environment} (hadmits : env.AdmitsAll lines) :
    env.naming.collect? source vs = some (env.declared lines) := by
  induction h generalizing env with
  | nil => rfl
  | @cons line v lines vs hline _ ih =>
    obtain ⟨ht, htights⟩ := List.forall_mem_cons.mp htight
    obtain ⟨hj, hjoins⟩ := List.forall_mem_cons.mp hjoined
    obtain ⟨hl, hlowers⟩ := List.forall_mem_cons.mp hlower
    rw [Naming.collect?, Environment.declared, hline.declared?_eq ht hl hadmits.1,
      hline.next?_eq ht hj, Option.bind_some, ih htights hjoins hlowers hadmits.2, Option.map_some]

variable {program : Program} {source : String} {lines : List Line}

/-- Where no name is written with blanks at its ends, no backslash stands apart from its group and
no name with `namespace` in front has it in capitals, the classes and their parents go by the names
that the rules of the language give them. -/
theorem declarations?_eq_declared
    (hfits : List.Forall₂ (Line.Fits source.toList) lines (program.visits entersStatements))
    (htight : ∀ line ∈ lines, line.IsTight) (hjoined : ∀ line ∈ lines, line.IsJoined)
    (hlower : ∀ line ∈ lines, line.IsLower) (hadmits : Environment.initial.AdmitsAll lines) :
    program.declarations? source = some (Environment.initial.declared lines) := by
  rw [declarations?_eq]
  exact collect?_of_fits hfits htight hjoined hlower hadmits

def importingSource : String :=
  "<?php namespace A;use L\\\x7bF as G,H,\x7d;use function P\\q;class B extends g\\X \x7b\x7d" ++
    "class C extends namespace\\D \x7b\x7dnamespace E;class K extends H \x7b\x7d"

def importingProgram : Program :=
  [.other ⟨0, 5⟩,
    .namespaceDecl ⟨6, 105⟩ [.useDecl ⟨18, 36⟩, .useDecl ⟨36, 53⟩,
      .classDecl ⟨53, 75⟩ "B" (some "g\\X") [], .classDecl ⟨75, 105⟩ "C" (some "namespace\\D") []],
    .namespaceDecl ⟨105, 137⟩ [.classDecl ⟨117, 137⟩ "K" (some "H") []]]

def letter (c : Char) (h : Lexeme.segment [c] = 1) : Segment := ⟨[c], List.cons_ne_nil _ _, h⟩

def importingLines : List Line :=
  let layout : Layout := ⟨false, false, false, false, false, false, false⟩
  [.other,
    .enter (.unbraced ⟨letter 'A' rfl, []⟩ layout),
    .use ⟨.classes, .group ⟨false, ⟨letter 'L' rfl, []⟩, by decide⟩
      ⟨⟨false, ⟨letter 'F' rfl, []⟩, by decide⟩, some (letter 'G' rfl)⟩
      [⟨⟨false, ⟨letter 'H' rfl, []⟩, by decide⟩, none⟩] (by simp) true, layout⟩,
    .use ⟨.functions, .list
      ⟨⟨false, ⟨letter 'P' rfl, [letter 'q' rfl]⟩, by decide⟩, none⟩ [], layout⟩,
    .declare ⟨53, 75⟩ (letter 'B' rfl)
      (some (.plain ⟨letter 'g' rfl, [letter 'X' rfl]⟩ (by decide))),
    .declare ⟨75, 105⟩ (letter 'C' rfl)
      (some (.relative ⟨"namespace".toList, by decide, rfl⟩ rfl ⟨letter 'D' rfl, []⟩)),
    .enter (.unbraced ⟨letter 'E' rfl, []⟩ layout),
    .declare ⟨117, 137⟩ (letter 'K' rfl) (some (.plain ⟨letter 'H' rfl, []⟩ (by decide)))]

/-- An alias holds in any case of its letters, and up to the next namespace. -/
theorem declarations?_eq_declared_importing : importingProgram.declarations? importingSource =
    some [⟨"A\\B", some "L\\F\\X", ⟨53, 75⟩⟩, ⟨"A\\C", some "A\\D", ⟨75, 105⟩⟩,
      ⟨"E\\K", some "E\\H", ⟨117, 137⟩⟩] := by
  have hfits : List.Forall₂ (Line.Fits importingSource.toList) importingLines
      (importingProgram.visits entersStatements) :=
    .cons (.other trivial) <| .cons (.enter (by decide +kernel)) <|
      .cons (.use (by decide +kernel)) <| .cons (.use (by decide +kernel)) <|
      .cons .declare <| .cons .declare <| .cons (.enter (by decide +kernel)) <|
      .cons .declare .nil
  rw [declarations?_eq_declared hfits (by decide +kernel) (by decide +kernel) (by decide +kernel)
    (by decide +kernel)]
  decide +kernel

end FactoryLint.Php
