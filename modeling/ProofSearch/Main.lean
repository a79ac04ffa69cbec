import ProofSearch.CommandLine.Run

/-! # The program -/

namespace ProofSearch.CommandLine

/-- The file that the path leads to, where there is one. -/
def filesAt (path : String) : IO Directory := do
  match Directory.fileName [] path false with
  | .error _ => return []
  | .ok name => try return [(name, ← IO.FS.readFile name)] catch _ => return []

def report (e : Fault) : IO UInt32 := do
  IO.eprintln (e.message?.getD "the run was stopped")
  return 1

def start (words : List String) : IO UInt32 := do
  match Options.ofWords words with
  | .error (.usage line) =>
    IO.eprintln ("error: " ++ line)
    return 2
  | .error (.fault e) => report e
  | .error .help =>
    IO.println (" ".intercalate (Flag.spellings.map (·.1)))
    return 0
  | .ok o =>
    let files ← filesAt o.load
    let r := run o files
    IO.print r.out
    for (name, text) in Directory.changes files r.files do
      IO.FS.writeFile name text
    match r.fault with
    | none => return 0
    | some e => report e

end ProofSearch.CommandLine

def main (words : List String) : IO UInt32 := ProofSearch.CommandLine.start words
