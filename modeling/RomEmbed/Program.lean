import RomEmbed.CommandLine.Parse
import RomEmbed.Log.Filter
import RomEmbed.Embedding
import RomEmbed.Text.Terminal

/-!
The program: what a command line does to a tree of files, and what it prints. Logging is
set up once the arguments are accepted, and diagnostics go to the error stream.
-/

namespace RomEmbed.Program

/-- The exit code and what was printed. -/
structure Printed where
  exitCode : Nat
  output : Text
  errors : Text
deriving DecidableEq

def line (t : Text) : Text := t ++ ['\n']

/-- What is printed in place of a request. -/
def ofReport (r : CommandLine.Report) : Printed :=
  if r.isError then ⟨r.exitCode, [], r.printed⟩ else ⟨r.exitCode, r.printed, []⟩

/-- The line that tells of a failure. -/
def failureLine (e : EmbedError) : Text := line ("Error: ".toList ++ e.message)

/-- The complaints about the log setting, the records it lets through, each on a line and
without control sequences, and the failure. -/
def ofOutcome (setting : Log.Setting) (o : Embedding.Outcome) : Printed :=
  let logged := setting.complaints.flatMap line ++
    (o.records.filter setting.filter.admits).flatMap fun r => Terminal.streamed (line r.line)
  match o.result with
  | .ok _ => ⟨0, [], logged⟩
  | .error e => ⟨1, [], logged ++ failureLine e⟩

open Files (Tree)

/-- Runs the program with its arguments and the log variable, if that is set. A pattern in the
variable is for the engine to read. -/
def run (engine : Log.Engine) (t : Tree) (args : List Bytes) (logVariable : Option Text) :
    Tree × Printed :=
  match CommandLine.parse args with
  | .error report => (t, ofReport report)
  | .ok request =>
    let (t, outcome) := embed t request.rom request.name
    (t, ofOutcome (.ofVariable engine logVariable) outcome)

end RomEmbed.Program
