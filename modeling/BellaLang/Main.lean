-- The command line: it looks at the files that the command may need, lets the
-- command answer, and shows and stores the answer.
import BellaLang.Command.Respond

namespace BellaLang.Command

/-- What stands at a path. -/
def probe (path : Path) : IO (Option Entry) := do
  try
    let place ← IO.FS.realPath path.text.string
    if ← place.isDir then return some .directory
    else
      let data ← IO.FS.readBinFile path.text.string
      return some (.file (data.toList.map (·.toNat)))
  catch _ => return none

/-- Answers the arguments and carries out the answer. -/
def runCommand (arguments : List Text) : IO UInt32 := do
  let mut entries : List (Path × Option Entry) := []
  for path in pathsOf arguments do
    entries := (path, ← probe path) :: entries
  let disk : Disk := fun path => (entries.find? (·.1 = path)).bind (·.2)
  let report := respond disk arguments
  for (path, text) in report.writes do
    IO.FS.writeFile path.text.string text
  (← IO.getStdout).putStr report.output.string
  (← IO.getStderr).putStr report.errors.string
  match report.ending with
  | .exit status => return status.toUInt32
  | .crash c =>
    (← IO.getStderr).putStr (c.message.string ++ "\n")
    return 1

end BellaLang.Command

def main (arguments : List String) : IO UInt32 :=
  BellaLang.Command.runCommand (arguments.map .ofString)
