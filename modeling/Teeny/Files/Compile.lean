import Teeny.Compile
import Teeny.Files.Output

/-!
# Compiling a file

A source file is read, the output is created, the source is compiled into it, and the output is
put in place. The first of these that fails ends it, and nothing of the output remains.
-/

namespace Teeny

/-- Why a file was not compiled. -/
inductive FileCompileError where
  | unread (cause : FileError)
  | refused (failure : Failure)
  | undelivered (cause : OutputError)
  | output (cause : OutputError)
  deriving DecidableEq

namespace FileCompileError

/-- The reason in words. -/
def message : FileCompileError → Bytes
  | unread cause => bytes "reading source: " ++ cause.message
  | refused failure => failure.message
  | undelivered cause => bytes "writing output: " ++ cause.message
  | output cause => cause.message

end FileCompileError

namespace Volume

/-- Writes pieces to an output, one after the other. -/
def writeAll (v : Volume) (o : Output) : List Bytes → Except OutputError Volume
  | [] => .ok v
  | piece :: pieces =>
    match v.write o piece with
    | .ok v => v.writeAll o pieces
    | .error e => .error e

/-- Compiles the file at `source` into a file at `target`, where the number of the pending file has
`digits` digits. -/
def compileFile (v : Volume) (bound : Option Nat) (source target : Bytes) (digits : Nat) :
    Volume × Option FileCompileError :=
  match v.tree.read source with
  | .error e => (v, some (.unread e))
  | .ok data =>
    match v.create target digits with
    | .error e => (v, some (.output e))
    | .ok (o, v) =>
      match generate bound source data with
      | .error failure => ((v.abort o).2, some (.refused failure))
      | .ok code =>
        match v.writeAll o code.pieces with
        | .error e => ((v.abort o).2, some (.undelivered e))
        | .ok v =>
          let (_, v, error) := v.commit o
          (v, error.map .output)

end Volume

end Teeny
