import FactoryLint.Glob
import FactoryLint.Path
import FactoryLint.Settings.Basic
import FactoryLint.Toml.Document

namespace FactoryLint

structure Settings.Overrides where
  baseClass : Option String
  selfReference : Option String
  memberName : Option String
  helperFunction : Option String
  excludedCalls : Option (List String)
  deriving DecidableEq, Repr

namespace Settings

def Overrides.empty : Overrides :=
  ⟨none, none, none, none, none⟩

def override (s : Settings) (o : Overrides) : Settings where
  baseClass := o.baseClass.getD s.baseClass
  selfReference := o.selfReference.getD s.selfReference
  memberName := o.memberName.getD s.memberName
  helperFunction := o.helperFunction.getD s.helperFunction
  excludedCalls := o.excludedCalls.getD s.excludedCalls

end Settings

structure ProjectConfig where
  overrides : Settings.Overrides
  exclude : List String
  format : Option String
  deriving DecidableEq, Repr

namespace Toml

def text? : Toml → Option String
  | .string text => some text
  | _ => none

def texts? : Toml → Option (List String)
  | .array items => items.mapM text?
  | .tables [] => some []
  | _ => none

/-- The value of each of some fields in a section. A section is a table, or an array with the
values in the order of the fields. -/
def fields? (names : List String) : Toml → Option (List (Option Toml))
  | .table _ entries => some (names.map fun name => entries.lookup name)
  | .array items => some ((List.range names.length).map (items[·]?))
  | .tables items => some ((List.range names.length).map fun i => (items[i]?).map (.table .header))
  | _ => none

def read? {α : Type} (f : Toml → Option α) : Option Toml → Option (Option α)
  | none => some none
  | some v => (f v).map some

end Toml

namespace ProjectConfig

def standard : ProjectConfig :=
  ⟨.empty, [], none⟩

def overridesOf? (s : Toml) : Option Settings.Overrides := do
  let keys := [Setting.baseClass, .selfReference, .memberName, .helperFunction, .excludedCalls]
  match ← s.fields? (keys.map Setting.key) with
  | [baseClass, selfReference, memberName, helperFunction, excludedCalls] =>
    return {
      baseClass := ← Toml.read? Toml.text? baseClass
      selfReference := ← Toml.read? Toml.text? selfReference
      memberName := ← Toml.read? Toml.text? memberName
      helperFunction := ← Toml.read? Toml.text? helperFunction
      excludedCalls := ← Toml.read? Toml.texts? excludedCalls }
  | _ => none

def fieldOf? {α : Type} (name : String) (f : Toml → Option α) (s : Toml) :
    Option (Option α) := do
  Toml.read? f (← s.fields? [name]).head?.join

/-- The configuration in a document. Sections and keys without a meaning are left out. -/
def ofEntries? (entries : Toml.Entries) : Option ProjectConfig := do
  let overrides ← Toml.read? overridesOf? (entries.lookup "rule")
  let exclude ← Toml.read? (fieldOf? "exclude" Toml.texts?) (entries.lookup "paths")
  let format ← Toml.read? (fieldOf? "format" Toml.text?) (entries.lookup "output")
  return ⟨overrides.getD .empty, exclude.join.getD [], format.join⟩

def parse? (text : String) : Option ProjectConfig :=
  (Toml.parse? text).bind ofEntries?

/-- A pattern that ends in a slash names a directory, which stands for all that is below it. -/
def isBelow (pattern path : List Char) : Bool :=
  pattern.getLast? == some '/' &&
    let dir := Text.dropRight '/' pattern ++ ['/']
    dir.isPrefixOf path || (Text.breakAt? ('/' :: dir) path).isSome

def isExcludedBy (path : List Char) (pattern : List Char) : Bool :=
  let byPattern := match Glob.parse? pattern with
    | none => false
    | some glob => glob.accepts path || (Path.fileName? path).any glob.accepts
  byPattern || isBelow pattern path

def excludes (config : ProjectConfig) (path : String) : Bool :=
  config.exclude.any fun pattern => isExcludedBy path.toList pattern.toList

end ProjectConfig

end FactoryLint
