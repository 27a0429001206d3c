import ModulePurity.Command.Help
import ModulePurity.Command.Init

/-!
# Running a command line

One run of the program: from its arguments and the workspace to what it prints, logs and leaves in
the files. A command line that makes no sense ends with exit code 2 and changes nothing.
-/

namespace ModulePurity.Command

/-- Runs what a command line asks for. -/
def perform (w : Workspace) (g : Grammar) : Invocation → Outcome
  | .check request => check w g request
  | .listRules => listRules w
  | .init force => init w force
  | .help topic long => ⟨0, helpText topic long, [], none, w.files⟩
  | .version => ⟨0, versionText, [], none, w.files⟩
  | .misuse => ⟨2, "", [], none, w.files⟩

/-- Runs a command line. -/
def run (w : Workspace) (g : Grammar) (args : List String) : Outcome :=
  perform w g (Invocation.ofArguments args)

end ModulePurity.Command
