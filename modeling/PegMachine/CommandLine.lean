/-
# PegMachine.CommandLine — the command

The command parses a file, or the standard input, with one of the bundled
grammars and prints the resulting datum. Everything it does is decided here, from
its arguments, two settings of the environment and the content of the input:
`plan` reads the arguments and either answers at once or asks for an input, and
`respond` turns the input into a `Report`, the exit code and what is written where.

Arguments are read from the left, and the first that settles the matter does: a
request for help as much as an argument that cannot be understood.
-/
import PegMachine.Dialect.Arithmetic
import PegMachine.Dialect.Json
import PegMachine.Lowering
import PegMachine.Machine.Listing
import PegMachine.Machine.Parse
import PegMachine.Grammar.Outline
import PegMachine.Text.Location

namespace PegMachine

set_option autoImplicit false

/-- The bundled grammars. -/
inductive Dialect where
  | json
  | arithmetic
  deriving DecidableEq, Repr

namespace Dialect

/-- A bundled grammar by its name. -/
def ofName? : String → Option Dialect
  | "json" => some .json
  | "arith" => some .arithmetic
  | _ => none

/-- The expression for a whole input. -/
def grammar : Dialect → Build Ref
  | .json => Json.grammar
  | .arithmetic => Arithmetic.grammar

/-- The grammar on its own, and its root. -/
def built (d : Dialect) : Ref × Grammar := d.grammar.run {}

/-- The bytecode of a bundled grammar. -/
def compiled (d : Dialect) (options : Grammar.CompileOptions) :
    Except LoweringError Grammar.Lowered :=
  let (root, g) := d.built
  g.compile options root

end Dialect

namespace CommandLine

/-- What is wanted of a run. -/
structure Options where
  dialect : String := "json"
  condense : Bool := true
  listing : Bool := false
  outline : Bool := false
  traced : Bool := false
  /-- The file to read; a dash stands for the standard input. -/
  input : Option String := none
  deriving DecidableEq, Repr

/-- The name for the standard input. -/
def standardInput : String := "-"

/-- What is written and how the command ends. -/
structure Report where
  exitCode : Nat
  stdout : String
  stderr : String
  deriving DecidableEq, Repr

/-- Arguments that cannot be understood. -/
inductive UsageError where
  | dialectMissing
  | unknownOption (argument : String)
  | inputMissing
  deriving DecidableEq, Repr

/-- What the arguments ask for. -/
inductive Request where
  | help
  | parse (options : Options) (input : String)
  deriving DecidableEq, Repr

/-- How to call the command. -/
def usage : String :=
  "Usage: weft [options] <file|->\n" ++
  "\n" ++
  "Parse a file with a bundled grammar and print the resulting value.\n" ++
  "\n" ++
  "Options:\n" ++
  "  --grammar <name>         Grammar to use: json (default) or arith\n" ++
  "  --no-opt                 Compile without the optimizer\n" ++
  "  --dump                   Print the compiled program to stderr\n" ++
  "  --tree                   Print the (optimized) grammar tree to stderr\n" ++
  "  --trace                  Log named rules as the VM enters them\n" ++
  "  --help, -h               Show this help message\n"

/-- What is left of a text behind a given beginning. -/
def after? (start text : List Char) : Option (List Char) :=
  if start.isPrefixOf text then some (text.drop start.length) else none

/-- Whether an argument names an input: a lone dash, or anything that does not start with
a dash. -/
def namesInput (argument : String) : Bool :=
  argument == standardInput || argument.toList.head? != some '-'

/-- Read the arguments. The first input named is the one that counts. -/
def readArguments (options : Options) : List String → Except UsageError Request
  | [] =>
    match options.input with
    | some input => .ok (.parse options input)
    | none => .error .inputMissing
  | "--help" :: _ => .ok .help
  | "-h" :: _ => .ok .help
  | ["--grammar"] => .error .dialectMissing
  | "--grammar" :: dialect :: rest => readArguments { options with dialect } rest
  | "--no-opt" :: rest => readArguments { options with condense := false } rest
  | "--dump" :: rest => readArguments { options with listing := true } rest
  | "--tree" :: rest => readArguments { options with outline := true } rest
  | "--trace" :: rest => readArguments { options with traced := true } rest
  | argument :: rest =>
    match after? "--grammar=".toList argument.toList with
    | some dialect => readArguments { options with dialect := String.ofList dialect } rest
    | none =>
      if namesInput argument then
        readArguments { options with input := some (options.input.getD argument) } rest
      else .error (.unknownOption argument)

/-- The report of a run that ends without a datum. -/
def refused (exitCode : Nat) (stderr : String) : Report := ⟨exitCode, "", stderr⟩

/-- What is said about arguments that cannot be understood. -/
def UsageError.report : UsageError → Report
  | .dialectMissing => refused 1 "--grammar needs a value\n"
  | .unknownOption argument => refused 1 s!"Unknown option: {argument}\n{usage}"
  | .inputMissing => refused 1 usage

/-- What the arguments come to: an answer, or an input to be read. -/
inductive Plan where
  | answer (report : Report)
  | read (options : Options) (input : String)

/-- Decide what to do about the arguments. -/
def plan (arguments : List String) : Plan :=
  match readArguments {} arguments with
  | .ok .help => .answer (refused 0 usage)
  | .ok (.parse options input) => .read options input
  | .error e => .answer e.report

/-- Why an input cannot be read. -/
inductive ReadError where
  | missing
  | directory
  | notText
  | other (message : String)
  deriving DecidableEq, Repr

/-- The wording of a read error. -/
def ReadError.message : ReadError → String
  | .missing => "No such file or directory (os error 2)"
  | .directory => "Is a directory (os error 21)"
  | .notText => "stream did not contain valid UTF-8"
  | .other message => message

/-- Lines, each with a newline. -/
def withNewlines (lines : List String) : String := String.join (lines.map (· ++ "\n"))

/-- An entry of the command itself. -/
def note (text : String) : Log.Entry := { component := .commandLine, level := .notice, text }

/-- What is shown before anything is compiled: the outline of the grammar. -/
def outlinePart (settings : Log.Settings) (options : Options) (root : Ref) (g : Grammar) : String :=
  if !options.outline then ""
  else if options.condense then
    let condensed := g.condense root
    withNewlines (settings.lines false condensed.entries) ++
      condensed.grammar.outlineText condensed.root
  else g.outlineText root

/-- The name under which an input appears in messages. -/
def inputName (input : String) : String := if input = standardInput then "<stdin>" else input

/-- Run bytecode over a text. `before` is what has been written to standard error already. -/
def parseText (settings : Log.Settings) (b : Bytecode) (input text before : String) : Report :=
  let heard := b.traced || settings.selection.includes .machine
  let reportWords := heard && Log.Level.trace.verbosity ≤ settings.verbosity
  match b.outcomeAt text.toList.toArray 0 reportWords with
  | none => refused 1 (before ++ "the bytecode is malformed\n")
  | some outcome =>
    let trace := withNewlines (settings.lines b.traced (outcome.entries b.toTables))
    match outcome.verdict b.toTables with
    | .ok found =>
      let matched := note s!"matched {found.stop} of {text.length} chars"
      ⟨0, found.value.display ++ "\n",
        before ++ trace ++ withNewlines (settings.lines false [matched])⟩
    | .error failure =>
      let shown :=
        Text.renderError (inputName input) text.toList failure.errorPos failure.message
      refused 1 (before ++ trace ++ shown ++ "\n")

/-- What becomes of an input. -/
def respond (settings : Log.Settings) (options : Options) (input : String)
    (content : Except ReadError String) : Report :=
  match content, Dialect.ofName? options.dialect with
  | .error e, _ => refused 1 s!"Error reading {input}: {e.message}\n"
  | .ok _, none =>
    refused 1 s!"Unknown grammar: {options.dialect} (expected json or arith)\n"
  | .ok text, some dialect =>
    let (root, g) := dialect.built
    let outline := outlinePart settings options root g
    match g.compile ⟨options.condense, options.traced⟩ root with
    | .error e => refused 1 (outline ++ s!"Error compiling grammar: {e.message}\n")
    | .ok lowered =>
      let b := lowered.bytecode
      let size := note s!"{options.dialect} grammar: {b.code.size} instructions"
      let log := withNewlines (settings.lines false (lowered.entries ++ [size]))
      let listing := if options.listing then b.listing else ""
      parseText settings b input text (outline ++ log ++ listing)

end CommandLine

end PegMachine
