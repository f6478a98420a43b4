import FactoryLint.Rule.HelperCall

namespace FactoryLint

structure Rule where
  name : String
  description : String
  check : Hierarchy → (source : String) → Php.Program → Except Rule.Stop (List Edit)

namespace Rule

def helperCall (s : Settings) : Rule where
  name := "faker_helper"
  description := "Replace $this->faker with the fake() helper function in Factories"
  check := HelperCall.check s

def registry (s : Settings) : Except SettingsError (List Rule) := do
  s.validate
  return [helperCall s]

def enabled (rules : List Rule) (names : List String) : List Rule :=
  rules.filter fun r => names.contains r.name

end Rule

end FactoryLint
