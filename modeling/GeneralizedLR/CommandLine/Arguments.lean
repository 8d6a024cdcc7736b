import GeneralizedLR.Arithmetic.Grammar

/-!
The arguments of the command line. The one command is `parse`; its options have a long and a short
name, and a value stands behind an equals sign, behind the short name at once, or in the next
argument.
-/

set_option autoImplicit false
set_option relaxedAutoImplicit false

namespace GeneralizedLR.CommandLine

inductive Flag where
  | input
  | expr
  | grouping
  | stats
  | help
  deriving DecidableEq

namespace Flag

def ofLong? : String → Option Flag
  | "input" => some .input
  | "expr" => some .expr
  | "grouping" => some .grouping
  | "stats" => some .stats
  | "help" => some .help
  | _ => none

def ofShort? : Char → Option Flag
  | 'i' => some .input
  | 'e' => some .expr
  | 'g' => some .grouping
  | 'h' => some .help
  | _ => none

def isBare (flag : Flag) : Bool := flag = .stats || flag = .help

end Flag

structure Options where
  input : Option String := none
  expr : Option String := none
  grouping : Option Arithmetic.Grouping := none
  stats : Bool := false

namespace Options

/-- Where an option has a value already, it may not be given again. -/
def fresh {A : Type} (old : Option A) (new : A) : Option (Option A) :=
  if old.isSome then none else some (some new)

def groupingNamed? : String → Option Arithmetic.Grouping
  | "ambiguous" => some .ambiguous
  | "precedence" => some .precedence
  | _ => none

/-- Take in an option with its value, unless it is given twice or the value is not known. -/
def set (options : Options) (flag : Flag) (value : String) : Option Options :=
  match flag with
  | .input => (fresh options.input value).map fun input => { options with input }
  | .expr => (fresh options.expr value).map fun expr => { options with expr }
  | .grouping =>
    match groupingNamed? value with
    | some named => (fresh options.grouping named).map fun grouping => { options with grouping }
    | none => none
  | .stats => none
  | .help => none

end Options

/-- One argument: an option with or without a value attached to it, or the mark that ends the
options. -/
inductive Argument where
  | option (flag : Flag) (attached : Option String)
  | endOfOptions
  /-- Anything that the command does not take. -/
  | unknown

namespace Argument

/-- The part of a text before the first equals sign, and the part behind it. -/
def splitAtEquals (chars : List Char) : List Char × Option (List Char) :=
  match chars.dropWhile (· ≠ '=') with
  | [] => (chars, none)
  | _ :: value => (chars.takeWhile (· ≠ '='), some value)

/-- What is attached to a short name: an equals sign in front does not count. -/
def attachedValue : List Char → Option String
  | [] => none
  | '=' :: value => some (String.ofList value)
  | value => some (String.ofList value)

def ofString (text : String) : Argument :=
  match text.toList with
  | ['-', '-'] => .endOfOptions
  | '-' :: '-' :: long =>
    let (name, value) := splitAtEquals long
    match Flag.ofLong? (String.ofList name) with
    | some flag => .option flag (value.map String.ofList)
    | none => .unknown
  | '-' :: short :: rest =>
    match Flag.ofShort? short with
    | some flag => .option flag (if flag.isBare then none else attachedValue rest)
    | none => .unknown
  | _ => .unknown

/-- Whether an argument may be the value of the option before it: it does not look like an option
itself. -/
def isValue (text : String) : Bool :=
  match text.toList with
  | '-' :: _ :: _ => false
  | _ => true

end Argument

/-- What the options of a command amount to. -/
inductive Parsed where
  | help
  | options (options : Options)
  | misuse

def Options.conclude (options : Options) : Parsed :=
  if options.input.isSome && options.expr.isSome then .misuse else .options options

/-- Read the arguments of the command `parse` from left to right. Nothing may stand behind the end
of the options. -/
def readOptions (options : Options) : List String → Parsed
  | [] => options.conclude
  | text :: rest =>
    match Argument.ofString text, rest with
    | .endOfOptions, [] => options.conclude
    | .option .help none, _ => .help
    | .option .stats none, rest =>
      if options.stats then .misuse else readOptions { options with stats := true } rest
    | .option flag (some value), rest =>
      match options.set flag value with
      | some options => readOptions options rest
      | none => .misuse
    | .option flag none, value :: rest =>
      if Argument.isValue value then
        match options.set flag value with
        | some options => readOptions options rest
        | none => .misuse
      else .misuse
    | _, _ => .misuse

inductive Source where
  | file (path : String)
  | text (text : String)
  deriving DecidableEq

inductive Request where
  | version
  | help
  /-- Evaluate the lines of a source; without a source there is nothing to do. -/
  | evaluate (source : Option Source) (grouping : Arithmetic.Grouping) (stats : Bool)
  | misuse

def Request.ofArguments : List String → Request
  | "parse" :: rest =>
    match readOptions {} rest with
    | .help => .help
    | .misuse => .misuse
    | .options options =>
      let source := (options.input.map Source.file).or (options.expr.map Source.text)
      .evaluate source (options.grouping.getD .standard) options.stats
  | "--version" :: _ => .version
  | "--help" :: _ => .help
  | ["help"] => .help
  | ["help", "parse"] => .help
  | ["help", "help"] => .help
  | first :: _ =>
    match first.toList with
    | '-' :: 'V' :: _ => .version
    | '-' :: 'h' :: _ => .help
    | _ => .misuse
  | [] => .misuse

end GeneralizedLR.CommandLine
