import Teeny.Command.Integer
import Teeny.Compile
import Teeny.Text.Quoted

/-!
# Options of the command

Options come before the input files. An option is a name behind one or two dashes, and its value
follows behind an equals sign or, unless the option is a switch, as the next argument. Two dashes
alone end the options, and so does the first argument that is no option; a single dash is one of
those. Of an option given twice the later value counts.
-/

namespace Teeny.Command

/-- The options. -/
inductive Flag where
  | output
  | emitTokens
  | tokenFormat
  | maxDepth
  | trace
  | version
  deriving DecidableEq

namespace Flag

/-- The name of an option. -/
def title : Flag → Bytes
  | output => bytes "o"
  | emitTokens => bytes "emit-tokens"
  | tokenFormat => bytes "token-format"
  | maxDepth => bytes "max-depth"
  | trace => bytes "trace"
  | version => bytes "version"

/-- Every option. -/
def all : List Flag := [output, emitTokens, tokenFormat, maxDepth, trace, version]

/-- The option with a name. -/
def ofTitle? (name : Bytes) : Option Flag := all.find? fun f => f.title = name

/-- Whether an option is on or off and needs no value. -/
def isSwitch : Flag → Bool
  | emitTokens | trace | version => true
  | output | tokenFormat | maxDepth => false

end Flag

/-- The values of the options. -/
structure Options where
  output : Bytes
  emitTokens : Bool
  tokenFormat : Bytes
  maxDepth : Int
  trace : Bool
  version : Bool
  deriving DecidableEq

/-- The values without any option given. -/
def Options.initial : Options :=
  ⟨[], false, bytes "text", Depth.usual, false, false⟩

/-- Why the arguments are refused. -/
inductive UsageError where
  /-- No error: the usage is asked for. -/
  | help
  | badSyntax (argument : Bytes)
  | undefined (name : Bytes)
  | missingValue (name : Bytes)
  | badSwitch (value name : Bytes)
  | badInteger (value name : Bytes) (fault : Integer.Fault)
  deriving DecidableEq

namespace UsageError

/-- The reason in words, if it is an error. -/
def message? : UsageError → Option Bytes
  | help => none
  | badSyntax argument => some (bytes "bad flag syntax: " ++ argument)
  | undefined name => some (bytes "flag provided but not defined: -" ++ name)
  | missingValue name => some (bytes "flag needs an argument: -" ++ name)
  | badSwitch value name =>
    some (bytes "invalid boolean value " ++ Quoted.text value ++ bytes " for -" ++ name ++
      bytes ": parse error")
  | badInteger value name fault =>
    some (bytes "invalid value " ++ Quoted.text value ++ bytes " for flag -" ++ name ++
      bytes ": " ++ fault.message)

end UsageError

/-- Whether a text is one of some words. -/
def isOneOf (words : List String) (text : Bytes) : Bool := words.any fun w => text = bytes w

/-- The value of a switch. -/
def switch? (value : Bytes) : Option Bool :=
  if isOneOf ["1", "t", "T", "true", "TRUE", "True"] value then some true
  else if isOneOf ["0", "f", "F", "false", "FALSE", "False"] value then some false
  else none

namespace Options

/-- Sets a switch in the way that `apply` says. -/
def setSwitch (flag : Flag) (value : Bytes) (apply : Bool → Options) :
    Except UsageError Options :=
  match switch? value with
  | some b => .ok (apply b)
  | none => .error (.badSwitch value flag.title)

/-- Sets an option to the value that a text stands for. -/
def set (o : Options) (flag : Flag) (value : Bytes) : Except UsageError Options :=
  match flag with
  | .output => .ok { o with output := value }
  | .tokenFormat => .ok { o with tokenFormat := value }
  | .emitTokens => setSwitch flag value fun b => { o with emitTokens := b }
  | .trace => setSwitch flag value fun b => { o with trace := b }
  | .version => setSwitch flag value fun b => { o with version := b }
  | .maxDepth =>
    match Integer.parse value with
    | .ok n => .ok { o with maxDepth := n }
    | .error fault => .error (.badInteger value flag.title fault)

end Options

/-- An argument as an option: its name, and its value if one is attached. -/
structure Given where
  name : Bytes
  value : Option Bytes
  deriving DecidableEq

/-- What an argument in front of the input files is. -/
inductive Argument where
  | option (given : Given)
  /-- Two dashes alone. -/
  | terminator
  /-- No option: the first input file. -/
  | operand
  /-- Something with a dash that is neither. -/
  | malformed
  deriving DecidableEq

/-- Cuts an option at its first equals sign behind the first byte. -/
def Given.ofText (text : Bytes) : Given :=
  let rest := text.tail
  match rest.dropWhile (· ≠ 61) with
  | [] => ⟨text, none⟩
  | _ :: value => ⟨text.take 1 ++ rest.takeWhile (· ≠ 61), some value⟩

/-- What an argument is by the text behind its dashes. -/
def Argument.ofName (name : Bytes) : Argument :=
  match name.head? with
  | none | some 45 | some 61 => .malformed
  | some _ => .option (.ofText name)

/-- What an argument is. -/
def Argument.ofText : Bytes → Argument
  | [45, 45] => .terminator
  | 45 :: 45 :: name => .ofName name
  | 45 :: b :: name => .ofName (b :: name)
  | _ => .operand

/-- The option that is meant, or why there is none. -/
def Given.flag (g : Given) : Except UsageError Flag :=
  match Flag.ofTitle? g.name with
  | some flag => .ok flag
  | none =>
    .error (if isOneOf ["help", "h"] g.name then .help else .undefined g.name)

/-- Reads the options in front of the input files, starting from the given values. -/
def parse (o : Options) : List Bytes → Except UsageError (Options × List Bytes)
  | [] => .ok (o, [])
  | argument :: arguments =>
    match Argument.ofText argument with
    | .operand => .ok (o, argument :: arguments)
    | .terminator => .ok (o, arguments)
    | .malformed => .error (.badSyntax argument)
    | .option given =>
      match given.flag with
      | .error e => .error e
      | .ok flag =>
        match given.value with
        | some value =>
          match o.set flag value with
          | .error e => .error e
          | .ok o => parse o arguments
        | none =>
          if flag.isSwitch then
            match o.set flag (bytes "true") with
            | .error e => .error e
            | .ok o => parse o arguments
          else
            match arguments with
            | [] => .error (.missingValue given.name)
            | value :: arguments =>
              match o.set flag value with
              | .error e => .error e
              | .ok o => parse o arguments

end Teeny.Command
