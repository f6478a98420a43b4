import FactoryLint.Arena.Basic
import FactoryLint.Proofs.Tree
import Mathlib.Data.List.Nodup
import Mathlib.Data.List.Perm.Subperm

namespace FactoryLint

/-- What a shape says besides which nodes it refers to. -/
inductive Kind
  | arrayLiteral
  | item
  | pair
  | property (name : Option String)
  | methodCall (name : Option String)
  | functionCall (name : Option String)
  | variable (name : String)
  | interpolated
  | literal (text : String)
  | other
  deriving DecidableEq, Repr

def Shape.kind : Shape → Kind
  | .arrayLiteral _ => .arrayLiteral
  | .arrayItem none _ => .item
  | .arrayItem (some _) _ => .pair
  | .property _ name => .property name
  | .methodCall _ name _ => .methodCall name
  | .functionCall name _ => .functionCall name
  | .variable name => .variable name
  | .interpolated _ => .interpolated
  | .literal text => .literal text
  | .other _ => .other

namespace Shape

@[simp] theorem kind_property (object : NodeId) (name : Option String) :
    (property object name).kind = .property name := rfl

@[simp] theorem kind_methodCall (object : NodeId) (name : Option String)
    (arguments : List NodeId) : (methodCall object name arguments).kind = .methodCall name := rfl

@[simp] theorem kind_variable (name : String) : (Shape.variable name).kind = .variable name := rfl

theorem eq_arrayLiteral_of_kind {x : Shape} (h : x.kind = .arrayLiteral) :
    x = .arrayLiteral x.children := by
  unfold kind at h
  split at h <;> simp_all [children]

theorem eq_property_of_kind {x : Shape} {name : Option String} (h : x.kind = .property name) :
    ∃ object, x = .property object name := by
  unfold kind at h
  split at h <;> simp_all

theorem eq_functionCall_of_kind {x : Shape} {name : Option String}
    (h : x.kind = .functionCall name) : ∃ arguments, x = .functionCall name arguments := by
  unfold kind at h
  split at h <;> simp_all

end Shape

structure Label where
  kind : Kind
  span : Option Span
  origin : Origin
  deriving DecidableEq, Repr

def Node.label (n : Node) : Label := ⟨n.shape.kind, n.span, n.origin⟩

abbrev Term := Tree Label

namespace Arena

def label (a : Arena) (id : NodeId) : Label :=
  match a.node? id with
  | some n => n.label
  | none => ⟨.other, none, .source⟩

/-- The nodes at and below the root of a tree are those of the tree. -/
def Holds (a : Arena) : Tree NodeId → Prop
  | .node id ts => (∃ n, a.node? id = some n ∧ n.shape.children = ts.map Tree.label) ∧
      ∀ t ∈ ts, a.Holds t

/-- The term that is read off a tree of nodes. -/
def term (a : Arena) (t : Tree NodeId) : Term := t.map a.label

variable {a b : Arena}

theorem label_eq {id : NodeId} {n : Node} (h : a.node? id = some n) : a.label id = n.label := by
  rw [label, h]

theorem children_eq {id : NodeId} {n : Node} (h : a.node? id = some n) :
    a.children id = n.shape.children := by
  rw [children, shape?, h]
  rfl

theorem label_congr {id : NodeId} (h : b.node? id = a.node? id) : b.label id = a.label id := by
  rw [label, label, h]

theorem span?_eq (a : Arena) (id : NodeId) : a.span? id = (a.label id).span := by
  rw [span?, label]
  cases a.node? id <;> rfl

theorem holds_node {id : NodeId} {ts : List (Tree NodeId)} : a.Holds (.node id ts) ↔
    (∃ n, a.node? id = some n ∧ n.shape.children = ts.map Tree.label) ∧ ∀ t ∈ ts, a.Holds t := by
  rw [Holds]

@[simp] theorem term_node (id : NodeId) (ts : List (Tree NodeId)) :
    a.term (.node id ts) = .node (a.label id) (ts.map a.term) := by
  simp only [term, Tree.map_node]
  rfl

@[simp] theorem label_term (t : Tree NodeId) : (a.term t).label = a.label t.label :=
  Tree.label_map _ _

theorem lt_size_of_node? {id : NodeId} {n : Node} (h : a.node? id = some n) : id < a.size :=
  (Array.getElem?_eq_some_iff.mp h).1

theorem Holds.lt_size {t : Tree NodeId} (h : a.Holds t) : ∀ id ∈ t.labels, id < a.size := by
  induction t with
  | node x ts ih =>
    obtain ⟨⟨n, hn, -⟩, hts⟩ := holds_node.mp h
    intro id hid
    rw [Tree.labels_node, List.mem_cons, List.mem_flatMap] at hid
    rcases hid with rfl | ⟨t, ht, hid⟩
    · exact lt_size_of_node? hn
    · exact ih t ht (hts t ht) id hid

theorem Holds.congr {t : Tree NodeId} (h : a.Holds t)
    (hab : ∀ id ∈ t.labels, b.node? id = a.node? id) : b.Holds t := by
  induction t with
  | node x ts ih =>
    obtain ⟨⟨n, hn, hc⟩, hts⟩ := holds_node.mp h
    refine holds_node.mpr ⟨⟨n, (hab x (by simp)).trans hn, hc⟩, fun t ht => ?_⟩
    refine ih t ht (hts t ht) fun id hid => hab id ?_
    simp only [Tree.labels_node, List.mem_cons, List.mem_flatMap]
    exact Or.inr ⟨t, ht, hid⟩

theorem term_congr {t : Tree NodeId} (hab : ∀ id ∈ t.labels, b.node? id = a.node? id) :
    b.term t = a.term t :=
  Tree.map_congr fun id hid => label_congr (hab id hid)

section

variable {ts : List (Tree NodeId)}

theorem lt_size_of_holds (h : ∀ t ∈ ts, a.Holds t) :
    ∀ id ∈ ts.flatMap Tree.labels, id < a.size := by
  intro id hid
  obtain ⟨t, ht, hid⟩ := List.mem_flatMap.mp hid
  exact (h t ht).lt_size id hid

variable (hab : ∀ id ∈ ts.flatMap Tree.labels, b.node? id = a.node? id)

include hab

theorem holds_congr (h : ∀ t ∈ ts, a.Holds t) : ∀ t ∈ ts, b.Holds t := fun t ht =>
  (h t ht).congr fun id hid => hab id (List.mem_flatMap.mpr ⟨t, ht, hid⟩)

theorem map_term_congr : ts.map b.term = ts.map a.term :=
  List.map_congr_left fun t ht =>
    term_congr fun id hid => hab id (List.mem_flatMap.mpr ⟨t, ht, hid⟩)

end

theorem Holds.length_le_size {t : Tree NodeId} (h : a.Holds t) (hn : t.labels.Nodup) :
    t.labels.length ≤ a.size := by
  have hs : t.labels ⊆ List.range a.size := fun id hid => List.mem_range.mpr (h.lt_size id hid)
  simpa using (hn.subperm hs).length_le

end Arena

end FactoryLint
