namespace FactoryLint.ClassName

def bare (name : String) : String :=
  .ofList (name.toList.dropWhile (· = '\\'))

/-- The name without leading backslashes, its ASCII letters in lower case. -/
def key (name : String) : String :=
  .ofList ((name.toList.dropWhile (· = '\\')).map Char.toLower)

end FactoryLint.ClassName
