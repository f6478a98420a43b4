import FactoryLint.Classes.Name

namespace FactoryLint.Ancestry

/-- Follow parent links from `next` for at most `bound` steps, passing no class of `seen`, which
holds the keys of the classes already passed. -/
def climb (parent? : String → Option (Option String)) :
    Nat → List String → Option String → List String
  | 0, _, _ => []
  | _ + 1, _, none => []
  | bound + 1, seen, some current =>
    if ClassName.key current ∈ seen then []
    else
      ClassName.bare current ::
        climb parent? bound (ClassName.key current :: seen) (parent? current).join

/-- The ancestors of the class `name` with direct parent `parent`, nearest first. A chain passes
each of the `known` classes at most once, and only its last member may be unknown. -/
def chain (parent? : String → Option (Option String)) (known : Nat)
    (name : String) (parent : Option String) : List String :=
  climb parent? (known + 1) [ClassName.key name] parent

end FactoryLint.Ancestry
