import FlashStrings.Project
import FlashStrings.Report.Issues

/-!
# Arguments of the command line

The first argument is a command.  Behind it options stand in any order.  A long
option takes its value behind an equals sign or from the next argument; the short
options `-v`, `-h` and `-D` may stand in one argument, and `-D` takes the rest of
it as its value.  An argument that begins with a hyphen is never the value of the
option before it.  Behind `--` there are no options.  Every option but `-D` may
be given once.

An option that waits for its value, or has just got it, is looked at when the
next option is complete.  So an argument that is no option at all is refused
before a bad value in front of it.
-/

namespace FlashStrings

/-- Why a command line is not obeyed. -/
inductive UsageError where
  /-- There is no such option, or one argument too many. -/
  | unknownArgument
  /-- The value of an option is missing or refused. -/
  | invalidValue
  | argumentConflict
  | invalidSubcommand
  /-- An option without a value is given one. -/
  | tooManyValues
  | helpWanted
  | versionWanted
  deriving DecidableEq, Repr

/-- The options of a command. -/
structure CommandOptions extends ProjectOptions where
  /-- Whether to tell what is going on. -/
  verbose : Bool := false
  format? : Option ReportFormat := none
  /-- Whether matches are shown as invocations. -/
  autoInit : Bool := false
  /-- The pattern of a query. -/
  pattern? : Option String := none
  deriving DecidableEq, Repr

/-- The form of reports; the full one if none is given. -/
def CommandOptions.format (o : CommandOptions) : ReportFormat := o.format?.getD .full

/-- A command. -/
inductive Command where
  | init
  | generate (options : CommandOptions)
  | check (options : CommandOptions)
  | query (options : CommandOptions)
  deriving DecidableEq, Repr

/-- The pattern of a query; all identifiers if none is given. -/
def CommandOptions.pattern (o : CommandOptions) : String := o.pattern?.getD "*"

/-! ## Options -/

/-- The options with a value. -/
inductive ValueOption where
  | sourceRoot
  | outputDir
  | database
  | define
  | format
  deriving DecidableEq, Repr

/-- The options without a value. -/
inductive Switch where
  | force
  | verbose
  | autoInit
  | help
  deriving DecidableEq, Repr

/-- What the argument before left open. -/
inductive Open where
  | nothing
  /-- An option waits for its value. -/
  | waiting (option : ValueOption)
  /-- An option has its value, which is not looked at yet. -/
  | given (option : ValueOption) (value : String)
  deriving DecidableEq, Repr

namespace CommandOptions

/-- A text for a path, which is given once and is not empty. -/
def setPath (old : Option String) (value : String) : Except UsageError (Option String) :=
  if old.isSome then .error .argumentConflict
  else if value.isEmpty then .error .invalidValue
  else .ok (some value)

/-- The form of reports with a name. -/
def formatOf? (value : String) : Option ReportFormat :=
  if value = "full" then some .full else if value = "compact" then some .compact else none

/-- Take an option with its value. -/
def setValue (o : CommandOptions) (option : ValueOption) (value : String) :
    Except UsageError CommandOptions :=
  match option with
  | .sourceRoot => (setPath o.sourceRoot value).map fun text => { o with sourceRoot := text }
  | .outputDir => (setPath o.outputDir value).map fun text => { o with outputDir := text }
  | .database => (setPath o.database value).map fun text => { o with database := text }
  | .define => .ok { o with defines := o.defines ++ [value] }
  | .format =>
    if o.format?.isSome then .error .argumentConflict
    else
      match formatOf? value with
      | some format => .ok { o with format? := some format }
      | none => .error .invalidValue

/-- Take an option without a value. -/
def setSwitch (o : CommandOptions) : Switch → Except UsageError CommandOptions
  | .force => if o.force then .error .argumentConflict else .ok { o with force := true }
  | .verbose => if o.verbose then .error .argumentConflict else .ok { o with verbose := true }
  | .autoInit => if o.autoInit then .error .argumentConflict else .ok { o with autoInit := true }
  | .help => .error .helpWanted

/-- Take what the arguments so far left open. -/
def close (o : CommandOptions) : Open → Except UsageError CommandOptions
  | .nothing => .ok o
  | .waiting _ => .error .invalidValue
  | .given option value => o.setValue option value

/-- What an option is called, without its hyphens. -/
def valueOption? (name : String) : Option ValueOption :=
  [("source-root", .sourceRoot), ("output-dir", .outputDir), ("database", .database),
    ("define", .define), ("format", .format)].lookup name

/-- What an option without a value is called; some are options of queries only. -/
def switch? (isQuery : Bool) (name : String) : Option Switch :=
  if isQuery && name = "auto-init" then some .autoInit
  else [("force", .force), ("verbose", .verbose), ("help", .help)].lookup name

/-- Read a long option behind its hyphens. -/
def readLong (isQuery : Bool) (o : CommandOptions) (left : Open) (s : List Char) :
    Except UsageError (CommandOptions × Open) :=
  let name := s.takeWhile (· != '=')
  let value := (s.drop name.length).tail?.map String.ofList
  match valueOption? (String.ofList name), switch? isQuery (String.ofList name) with
  | some option, _ => do
    let o ← o.close left
    match value with
    | some value => return (← o.setValue option value, .nothing)
    | none => return (o, .waiting option)
  | none, some switch => do
    if value.isSome then .error .tooManyValues
    else return (← (← o.close left).setSwitch switch, .nothing)
  | none, none => .error .unknownArgument

/-- Read short options behind their hyphen. -/
def readShort (o : CommandOptions) (left : Open) :
    List Char → Except UsageError (CommandOptions × Open)
  | [] => .ok (o, left)
  | 'v' :: s => do (← (← o.close left).setSwitch .verbose).readShort .nothing s
  | 'h' :: _ => do return (← (← o.close left).setSwitch .help, .nothing)
  | 'D' :: s => do
    let o ← o.close left
    match s with
    | [] => return (o, .waiting .define)
    | '=' :: s => return (← o.setValue .define (String.ofList s), .nothing)
    | s => return (← o.setValue .define (String.ofList s), .nothing)
  | _ => .error .unknownArgument

/-- Take an argument that is no option: the pattern of a query. -/
def takePattern (isQuery : Bool) (o : CommandOptions) (left : Open) (value : String) :
    Except UsageError CommandOptions :=
  if isQuery && o.pattern?.isNone then
    (o.close left).map fun o => { o with pattern? := some value }
  else .error .unknownArgument

/-- Read arguments behind `--`. -/
def readPlain (isQuery : Bool) (o : CommandOptions) (left : Open) :
    List String → Except UsageError CommandOptions
  | [] => o.close left
  | arg :: args => do readPlain isQuery (← o.takePattern isQuery left arg) .nothing args

/-- Read the arguments behind a command. -/
def read (isQuery : Bool) (o : CommandOptions) (left : Open) :
    List String → Except UsageError CommandOptions
  | [] => o.close left
  | arg :: args =>
    match arg.toList with
    | ['-', '-'] => o.readPlain isQuery left args
    | '-' :: '-' :: s => do
      let (o, left) ← o.readLong isQuery left s
      o.read isQuery left args
    | '-' :: c :: s => do
      let (o, left) ← o.readShort left (c :: s)
      o.read isQuery left args
    | _ =>
      match left with
      | .waiting option => o.read isQuery (.given option arg) args
      | left => do (← o.takePattern isQuery left arg).read isQuery .nothing args

end CommandOptions

/-! ## Commands -/

/-- The names of the commands. -/
def commandNames : List String := ["generate", "check", "query", "init"]

/-- Help for a command, or for the help itself. -/
def helpFor : List String → UsageError
  | [] => .helpWanted
  | [name] =>
    if commandNames.contains name || name = "help" then .helpWanted else .invalidSubcommand
  | _ => .invalidSubcommand

/-- What an option in front of a command comes to. -/
def leadingOption : List Char → UsageError
  | '-' :: s =>
    let name := String.ofList (s.takeWhile (· != '='))
    if name = "help" || name = "version" then
      if s.contains '=' then .tooManyValues
      else if name = "help" then .helpWanted
      else .versionWanted
    else .unknownArgument
  | 'h' :: _ => .helpWanted
  | 'V' :: _ => .versionWanted
  | _ => .unknownArgument

/-- The command that a command line gives, if it gives one. -/
def Command.ofArguments : List String → Except UsageError (Option Command)
  | [] => .ok none
  | "generate" :: args => do return some (.generate (← CommandOptions.read false {} .nothing args))
  | "check" :: args => do return some (.check (← CommandOptions.read false {} .nothing args))
  | "query" :: args => do return some (.query (← CommandOptions.read true {} .nothing args))
  | "init" :: args => do
    initArguments args
    return some .init
  | "help" :: args => .error (helpFor args)
  | ["--"] => .ok none
  | "--" :: name :: _ =>
    if commandNames.contains name || name = "help" then .error .unknownArgument
    else .error .invalidSubcommand
  | arg :: _ =>
    match arg.toList with
    | '-' :: c :: s => .error (leadingOption (c :: s))
    | _ => .error .invalidSubcommand
where
  /-- The command `init` takes no arguments but the wish for help. -/
  initArguments : List String → Except UsageError Unit
    | [] | ["--"] => .ok ()
    | arg :: _ =>
      match arg.toList with
      | '-' :: 'h' :: _ => .error .helpWanted
      | _ =>
        if arg = "--help" then .error .helpWanted
        else if "--help=".toList.isPrefixOf arg.toList then .error .tooManyValues
        else .error .unknownArgument

end FlashStrings
