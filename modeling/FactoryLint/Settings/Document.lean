import FactoryLint.Settings.Basic
import FactoryLint.Yaml.Document

namespace FactoryLint

inductive DocumentError
  | unreadable
  | malformed
  | invalid (error : SettingsError)
  deriving DecidableEq, Repr

namespace Yaml

/-- The value of a key that may occur once at most. Nothing is wrong if it does not occur. -/
def unique? (key : String) (entries : List (Yaml × Yaml)) : Option (Option Yaml) :=
  match entries.filter fun (k, _) => k.text? == some key with
  | [] => some none
  | [(_, value)] => some (some value)
  | _ => none

end Yaml

namespace Settings

def nameFrom? (entries : List (Yaml × Yaml)) (setting : Setting) (standard : String) :
    Option String := do
  match ← Yaml.unique? setting.key entries with
  | none => return standard
  | some value => value.text?

def namesFrom? (entries : List (Yaml × Yaml)) (setting : Setting) (standard : List String) :
    Option (List String) := do
  match ← Yaml.unique? setting.key entries with
  | none => return standard
  | some value => (← value.items?).mapM Yaml.text?

/-- The settings in a mapping. Keys that name no setting have no meaning. -/
def ofYaml? (document : Yaml) : Option Settings := do
  let entries ← document.entries?
  if entries.any (·.1.text?.isNone) then none
  return {
    baseClass := ← nameFrom? entries .baseClass standard.baseClass
    selfReference := ← nameFrom? entries .selfReference standard.selfReference
    memberName := ← nameFrom? entries .memberName standard.memberName
    helperFunction := ← nameFrom? entries .helperFunction standard.helperFunction
    excludedCalls := ← namesFrom? entries .excludedCalls standard.excludedCalls }

def checked (s : Settings) : Except DocumentError Settings :=
  match s.validate with
  | .ok () => .ok s
  | .error e => .error (.invalid e)

def ofDocument (text : String) : Except DocumentError Settings :=
  match (Yaml.parse? text).bind ofYaml? with
  | none => .error .malformed
  | some s => s.checked

def ofFile (content : Option ByteArray) : Except DocumentError Settings :=
  match content.bind String.fromUTF8? with
  | none => .error .unreadable
  | some text => ofDocument text

end Settings

end FactoryLint
