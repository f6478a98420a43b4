import FactoryLint.Proofs.CommandLine.Effect
import FactoryLint.Proofs.Project.Beneath

namespace FactoryLint

namespace Workspace

def isDirectory (w : Workspace) (path : String) : Bool :=
  match w.find path with
  | .ok (.directory _) => true
  | _ => false

variable {w : Workspace} {config : ProjectConfig} {path : String}

end Workspace

namespace CommandLine

variable {rules : List Rule} {w : Workspace} {config : ProjectConfig} {files : List String}
  {path : String}

end CommandLine

end FactoryLint
