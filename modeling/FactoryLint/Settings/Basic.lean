import FactoryLint.Text.Blank
import FactoryLint.Text.Quoted

namespace FactoryLint

structure Settings where
  baseClass : String
  selfReference : String
  memberName : String
  helperFunction : String
  /-- Methods that have to be called on the member itself. -/
  excludedCalls : List String
  deriving DecidableEq, Repr

inductive Setting
  | baseClass
  | selfReference
  | memberName
  | helperFunction
  | excludedCalls
  deriving DecidableEq, Repr

def Setting.key : Setting → String
  | .baseClass => "base_class"
  | .selfReference => "self_reference"
  | .memberName => "member_name"
  | .helperFunction => "helper_function"
  | .excludedCalls => "excluded_calls"

inductive SettingsError
  | missing (setting : Setting)
  | notAName (setting : Setting) (value : String)
  deriving DecidableEq, Repr

namespace SettingsError

def message : SettingsError → String
  | .missing setting => "Missing required setting `" ++ setting.key ++ "`"
  | .notAName setting value =>
    "Invalid value for `" ++ setting.key ++ "`: " ++ Text.Quoted.encode value

end SettingsError

namespace Settings

def standard : Settings where
  baseClass := "Illuminate\\Database\\Eloquent\\Factories\\Factory"
  selfReference := "this"
  memberName := "faker"
  helperFunction := "fake"
  excludedCalls := ["randomEnum"]

/-- A name must be there and must not hold white space. -/
def checkName (setting : Setting) (value : String) : Except SettingsError Unit :=
  if value.toList.all Text.isBlank then .error (.missing setting)
  else if value.toList.any Text.isBlank then .error (.notAName setting value)
  else .ok ()

/-- The first fault of the settings, in the order in which they are declared. -/
def validate (s : Settings) : Except SettingsError Unit := do
  checkName .baseClass s.baseClass
  checkName .selfReference s.selfReference
  checkName .memberName s.memberName
  checkName .helperFunction s.helperFunction
  s.excludedCalls.forM (checkName .excludedCalls)

end Settings

def SameName (a b : String) : Prop :=
  a.toList.map Char.toLower = b.toList.map Char.toLower

instance (a b : String) : Decidable (SameName a b) :=
  inferInstanceAs (Decidable (_ = _))

def Settings.Excludes (s : Settings) (call : String) : Prop :=
  ∃ name ∈ s.excludedCalls, SameName name call

instance (s : Settings) (call : String) : Decidable (s.Excludes call) :=
  inferInstanceAs (Decidable (∃ name ∈ s.excludedCalls, _))

end FactoryLint
