import CodeCache.Command.Arguments
import CodeCache.Text.Layout

/-!
# Help texts
-/

namespace CodeCache

def programName : String := "code-revive"

def programVersion : String := "0.1.0"

namespace Help

def table (rows : List (String × String)) : List String :=
  let width := (rows.map fun (name, _) => name.length).foldl max 0
  rows.map fun (name, explanation) => "  " ++ Layout.padRight width name ++ "  " ++ explanation

def part (heading : String) (rows : List (String × String)) : List String :=
  ["", heading] ++ table rows

def verbosity : String × String :=
  ("-v, --verbose...", "Verbose output (-v for info, -vv for debug, -vvv for trace)")

def helpOption : String × String :=
  ("-h, --help", "Print help")

def purpose : CommandName → String
  | .print => "Dump a cache file: header, containers, lookup tables and code blobs"
  | .printOpt => "List every version's dependencies and opt records"
  | .merge => "Merge cache files from many runs into one"
  | .stats => "Show per-container method, version and size counts"

def helpPurpose : String :=
  "Print this message or the help of the given subcommand(s)"

def operand : CommandName → String × String
  | .merge =>
    ("<OPTIONS>",
      "Comma separated options, e.g. \x60file=out.csa,input_files=runs/,policy=coverage\x60")
  | _ => ("<FILE>", "The cache file")

def ownOptions : CommandName → List (String × String)
  | .print => [("    --json", "Print a JSON summary instead of the full listing")]
  | .merge =>
    [("    --identity <IDENTITY>",
      "Build identity the inputs must carry (default: that of the first input)")]
  | _ => []

def commands : List String :=
  part "Commands:" <|
    CommandName.all.map (fun command => (command.name, purpose command)) ++ [("help", helpPurpose)]

def onProgram : String :=
  Layout.lines <|
    ["Inspect and merge compiled code cache files", "",
      "Usage: " ++ programName ++ " [OPTIONS] <COMMAND>"]
    ++ commands
    ++ part "Options:" [verbosity, helpOption, ("-V, --version", "Print version")]

def onCommand (command : CommandName) : String :=
  let (operandName, explanation) := operand command
  Layout.lines <|
    [purpose command, "",
      "Usage: " ++ programName ++ " " ++ command.name ++ " [OPTIONS] " ++ operandName]
    ++ part "Arguments:" [(operandName, explanation)]
    ++ part "Options:" (ownOptions command ++ [verbosity, helpOption])

def onHelp : String :=
  Layout.lines <|
    [helpPurpose, "", "Usage: " ++ programName ++ " help [COMMAND]..."]
    ++ part "Arguments:" [("[COMMAND]...", "Print help for the subcommand(s)")]

end Help

end CodeCache
