import Teeny.Command.Options
import Teeny.Files.Compile
import Teeny.Text.Column
import Teeny.Token.Json
import Teeny.Token.Table

/-!
# The command

The command reads its options, and then prints its version, lists the tokens of a source file or
compiles it. Everything it does is a change of the volume, two texts and an exit code: 0 for
success, 1 for a failure and 2 for arguments that are refused.

The version is printed without looking back and is lost if standard output is full. A list of
tokens that does not arrive makes the command fail.
-/

namespace Teeny.Command

/-- What the machine contributes. -/
structure Host where
  /-- The version of the toolchain that built the command. -/
  toolchain : Bytes
  /-- A measured time. -/
  elapsed : Bytes
  /-- Whether standard output takes nothing. -/
  stdoutFull : Bool
  /-- How many digits the number drawn for a pending file has. -/
  digits : Nat

/-- What came of a command. -/
structure Result where
  exit : Nat
  stdout : Bytes
  stderr : Bytes
  volume : Volume

/-- The version of the command. -/
def version : Bytes := bytes "0.1.0"

/-- How the command is used. -/
def usage : Bytes :=
  bytes "Teeny Compiler " ++ version ++ bytes "\n\n" ++
  bytes "Usage: teenyc [options] <file.teeny>\n\n" ++
  bytes "Options:\n" ++
  bytes "  -emit-tokens\n    \tOutput token stream\n" ++
  bytes "  -max-depth int\n" ++
  bytes "    \tMaximum IF/WHILE nesting (negative for no limit) (default 1000)\n" ++
  bytes "  -o string\n    \tOutput file (default: input with .c extension)\n" ++
  bytes "  -token-format string\n    \tToken output format (text or json) (default \"text\")\n" ++
  bytes "  -trace\n    \tOutput timing trace\n" ++
  bytes "  -version\n    \tPrint version\n"

/-- An error line. -/
def errorLine (message : Bytes) : Bytes := Bytes.line (bytes "error: " ++ message)

/-- The lines for a failure, one for each diagnostic. -/
def report (failure : Failure) : Bytes :=
  failure.diagnostics.flatMap fun d => Bytes.line d.message

/-- The lines of the time trace, one for each stage, if a trace is wanted. -/
def traceLines (host : Host) (o : Options) (stages : List String) : Bytes :=
  if o.trace then
    stages.flatMap fun stage =>
      Bytes.line (bytes "trace: " ++ Column.cell 10 (bytes stage) ++ bytes " " ++ host.elapsed)
  else []

/-- Prints the version. -/
def printVersion (host : Host) (v : Volume) : Result :=
  let text := Bytes.line (bytes "teenyc version " ++ version) ++
    Bytes.line (bytes "go version " ++ host.toolchain)
  ⟨0, if host.stdoutFull then [] else text, [], v⟩

/-- The pieces of a token list in a format. -/
def tokenPieces? (format : Bytes) (tokens : List Token) : Option (List Bytes) :=
  if format = bytes "json" then some [TokenJson.document tokens]
  else if format = bytes "text" then some (TokenTable.lines tokens)
  else none

/-- Lists the tokens of a source file. -/
def emitTokens (host : Host) (o : Options) (file : Bytes) (v : Volume) : Result :=
  match v.tree.read file with
  | .error e => ⟨1, [], errorLine e.message, v⟩
  | .ok source =>
    let result := scan file source
    match tokenPieces? o.tokenFormat result.tokens with
    | none => ⟨1, [], errorLine (bytes "unknown token format " ++ Quoted.text o.tokenFormat), v⟩
    | some pieces =>
      let delivery := Delivery.offer (if host.stdoutFull then some 0 else none) pieces
      if delivery.complete then
        match result.fault with
        | none => ⟨0, delivery.received, [], v⟩
        | some d => ⟨1, delivery.received, report (.single d), v⟩
      else
        ⟨1, delivery.received,
          errorLine (bytes "write /dev/stdout: no space left on device"), v⟩

/-- Where the code of a file goes. -/
def destination (o : Options) (file : Bytes) : Bytes :=
  if o.output = [] then Path.outputName file else o.output

/-- Compiles a source file. -/
def compile (host : Host) (o : Options) (file : Bytes) (v : Volume) : Result :=
  match v.tree.read file with
  | .error e => ⟨1, [], traceLines host o ["read"] ++ errorLine e.message, v⟩
  | .ok source =>
    match v.create (destination o file) host.digits with
    | .error e => ⟨1, [], traceLines host o ["read"] ++ errorLine e.message, v⟩
    | .ok (output, v) =>
      let stages := traceLines host o ["read", "translate"]
      match generate (Depth.ofSetting o.maxDepth) file source with
      | .error failure => ⟨1, [], stages ++ report failure, (v.abort output).2⟩
      | .ok code =>
        match v.writeAll output code.pieces with
        | .error e =>
          ⟨1, [], stages ++ errorLine (bytes "writing output: " ++ e.message), (v.abort output).2⟩
        | .ok v =>
          match v.commit output with
          | (_, v, some e) =>
            ⟨1, [], traceLines host o ["read", "translate", "write"] ++ errorLine e.message, v⟩
          | (_, v, none) =>
            ⟨0, [], traceLines host o ["read", "translate", "write", "total"], v⟩

/-- Does what the options ask for with the input files. -/
def execute (host : Host) (o : Options) (files : List Bytes) (v : Volume) : Result :=
  if o.version then printVersion host v
  else
    match files with
    | [] =>
      ⟨1, [], errorLine (bytes "no input file") ++
        Bytes.line (bytes "usage: teenyc [options] <file.teeny>"), v⟩
    | [file] => if o.emitTokens then emitTokens host o file v else compile host o file v
    | _ =>
      ⟨1, [], errorLine (bytes "too many input files: [" ++ (bytes " ").intercalate files ++
        bytes "]"), v⟩

/-- Runs the command with its arguments. -/
def run (host : Host) (arguments : List Bytes) (v : Volume) : Result :=
  match parse .initial arguments with
  | .ok (o, files) => execute host o files v
  | .error e =>
    match e.message? with
    | none => ⟨0, [], usage, v⟩
    | some message => ⟨2, [], Bytes.line message ++ usage, v⟩

/-- The paths that the command may read or write. -/
def touched (arguments : List Bytes) : List Bytes :=
  match parse .initial arguments with
  | .ok (o, [file]) => [file, destination o file]
  | _ => []

end Teeny.Command
