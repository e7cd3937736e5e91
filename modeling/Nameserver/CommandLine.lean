import Nameserver.Settings.Basic
/-!
# The command line

`run` starts the server, with a settings file or with the settings as options.  Arguments are taken
from left to right: an option's value is looked at once the next argument is known to be one that
exists, and options that exclude each other are found last.
-/

namespace Nameserver.CommandLine

/-- What ends the reading of a command line early: a mistake, or a request for help or the version. -/
inductive UsageError where
  | noArguments
  | missingRequired
  | conflict
  | badValue
  | missingValue
  | unneededValue
  | unknownArgument
  | unknownCommand
  | help
  | version
  deriving DecidableEq, Repr

def UsageError.message : UsageError → String
  | noArguments | help =>
    "usage: run --config FILE\n       run --zone FILE [--bind IP:PORT | --ip IP --port PORT]\n" ++
      "           [--allow-relative-names] [--print-records]"
  | missingRequired => "either --config or --zone is required"
  | conflict => "an argument excludes another one or itself"
  | badValue => "a value is not an address, a port or both"
  | missingValue => "an option has no value"
  | unneededValue => "an option has a value that it does not take"
  | unknownArgument => "unknown argument"
  | unknownCommand => "unknown command"
  | version => "0.1.0"

/-- Whether the end is what was asked for. -/
def UsageError.isRequest : UsageError → Bool
  | help | version => true
  | _ => false

inductive ValueOption where
  | config
  | bind
  | ip
  | port
  | zone
  deriving DecidableEq, Repr

/-- The options of `run` that have none. -/
inductive FlagOption where
  | allowRelativeNames
  | printRecords
  deriving DecidableEq, Repr

structure RunOptions where
  config : Option String := none
  bind : Option SocketAddress := none
  ip : Option IpAddress := none
  port : Option UInt16 := none
  zone : Option String := none
  allowRelativeNames : Bool := false
  printRecords : Bool := false
  deriving DecidableEq, Repr

namespace RunOptions

/-! ## Values -/

/-- The path in a value, which is not empty. -/
def readPath (value : String) : Except UsageError String :=
  if value.isEmpty then .error .missingValue else .ok value

/-- The port in a value: decimal digits, which a sign may precede. -/
def readPort (value : String) : Except UsageError UInt16 :=
  let (isNegative, digits) :=
    match value.toList with
    | '+' :: digits => (false, digits)
    | '-' :: digits => (true, digits)
    | digits => (false, digits)
  match Address.readDecimal? 65535 digits with
  | some (n, []) => if isNegative && n != 0 then .error .badValue else .ok (UInt16.ofNat n)
  | _ => .error .badValue

/-- Sets a field that has not been set. -/
def once {α : Type} (field : Option α) (value : Except UsageError α) :
    Except UsageError (Option α) :=
  if field.isSome then .error .conflict else value.map some

/-- What a reader found, or the error of a bad value. -/
def valid {α : Type} (value? : Option α) : Except UsageError α :=
  match value? with
  | some value => .ok value
  | none => .error .badValue

def set (o : RunOptions) (value : String) : ValueOption → Except UsageError RunOptions
  | .config => do return { o with config := ← once o.config (readPath value) }
  | .bind => do return { o with bind := ← once o.bind (valid (SocketAddress.ofString? value)) }
  | .ip => do return { o with ip := ← once o.ip (valid (IpAddress.ofString? value)) }
  | .port => do return { o with port := ← once o.port (readPort value) }
  | .zone => do return { o with zone := ← once o.zone (readPath value) }

def setFlag (o : RunOptions) : FlagOption → Except UsageError RunOptions
  | .allowRelativeNames =>
    if o.allowRelativeNames then .error .conflict else .ok { o with allowRelativeNames := true }
  | .printRecords =>
    if o.printRecords then .error .conflict else .ok { o with printRecords := true }

/-! ## Arguments -/

inductive Argument where
  | separator
  | option (option : ValueOption) (value : Option String)
  | flag (flag : FlagOption)
  | help
  | unneededValue
  | unknown
  | plain (text : String)
  deriving DecidableEq, Repr

def longOption : String → Option String → Argument
  | "config", value => .option .config value
  | "bind", value => .option .bind value
  | "ip", value => .option .ip value
  | "port", value => .option .port value
  | "zone", value => .option .zone value
  | "allow-relative-names", none => .flag .allowRelativeNames
  | "print-records", none => .flag .printRecords
  | "help", none => .help
  | "allow-relative-names", some _ | "print-records", some _ | "help", some _ => .unneededValue
  | _, _ => .unknown

/-- The parts of a text before and after its first equals sign. -/
def splitAtEquals (cs : List Char) : String × Option String :=
  let (name, rest) := cs.span (· != '=')
  (String.ofList name, rest.tail?.map String.ofList)

def classify (arg : String) : Argument :=
  match arg.toList with
  | ['-', '-'] => .separator
  | '-' :: '-' :: name =>
    let (name, value) := splitAtEquals name
    longOption name value
  | '-' :: 'h' :: _ => .help
  | '-' :: _ :: _ => .unknown
  | _ => .plain arg

/-- An option whose value has not been looked at, with the value once there is one. -/
abbrev Pending := Option (ValueOption × Option String)

/-- Looks at the value of a pending option. -/
def settle (o : RunOptions) : Pending → Except UsageError RunOptions
  | none => .ok o
  | some (_, none) => .error .missingValue
  | some (option, some value) => o.set value option

def readArguments (o : RunOptions) (pending : Pending) :
    List String → Except UsageError RunOptions
  | [] => o.settle pending
  | arg :: rest =>
    match classify arg, pending with
    | .separator, _ => if rest.isEmpty then o.settle pending else .error .unknownArgument
    | .unknown, _ => .error .unknownArgument
    | .unneededValue, _ => .error .unneededValue
    | .help, _ =>
      match o.settle pending with
      | .ok _ => .error .help
      | .error e => .error e
    | .flag flag, _ =>
      match o.settle pending with
      | .ok settled =>
        match settled.setFlag flag with
        | .ok next => readArguments next none rest
        | .error e => .error e
      | .error e => .error e
    | .option option none, _ =>
      match o.settle pending with
      | .ok settled => readArguments settled (some (option, none)) rest
      | .error e => .error e
    | .option option (some value), _ =>
      match o.settle pending with
      | .ok settled =>
        match settled.set value option with
        | .ok next => readArguments next none rest
        | .error e => .error e
      | .error e => .error e
    | .plain text, some (option, none) => readArguments o (some (option, some text)) rest
    | .plain _, _ => .error .unknownArgument

/-! ## Options together -/

/-- Whether some options exclude each other: a settings file excludes all others, and an address
with a port excludes an address or a port alone. -/
def areConflicting (o : RunOptions) : Bool :=
  (o.config.isSome &&
    (o.bind.isSome || o.ip.isSome || o.port.isSome || o.zone.isSome || o.allowRelativeNames ||
      o.printRecords)) ||
    (o.bind.isSome && (o.ip.isSome || o.port.isSome))

/-- Passes options that may stand together and name a settings file or a zone. -/
def check (o : RunOptions) : Except UsageError RunOptions :=
  if o.areConflicting then .error .conflict
  else if o.config.isNone && o.zone.isNone then .error .missingRequired
  else .ok o

/-- The settings in the options, if they name a zone. -/
def settings? (o : RunOptions) : Option Settings :=
  o.zone.map fun zone =>
    { bind := o.bind.getD
        { ip := o.ip.getD Settings.defaultIp, port := o.port.getD Settings.defaultPort }
      zone
      strictNames := !o.allowRelativeNames
      printRecords := o.printRecords }

end RunOptions

/-! ## Commands -/

/-- Where the settings of the server come from. -/
inductive Source where
  | file (path : String)
  | options (settings : Settings)
  deriving DecidableEq, Repr

def readRun (args : List String) : Except UsageError Source := do
  let o ← RunOptions.readArguments {} none args
  let o ← o.check
  match o.config, o.settings? with
  | some path, _ => return .file path
  | none, some settings => return .options settings
  | none, none => throw .missingRequired

/-- Takes the arguments after `help`, which name a command. -/
def readHelp : List String → UsageError
  | [] | ["run"] | ["help"] => .help
  | _ => .unknownCommand

/-- What is wrong with a first argument that starts with hyphens. -/
def readOption (arg : String) : UsageError :=
  match arg.toList with
  | '-' :: '-' :: name =>
    match RunOptions.splitAtEquals name with
    | ("help", none) => .help
    | ("version", none) => .version
    | ("help", some _) | ("version", some _) => .unneededValue
    | _ => .unknownArgument
  | '-' :: 'h' :: _ => .help
  | '-' :: 'V' :: _ => .version
  | '-' :: _ :: _ => .unknownArgument
  | _ => .unknownCommand

def read : List String → Except UsageError Source
  | [] | ["--"] => .error .noArguments
  | "run" :: args => readRun args
  | "help" :: args => .error (readHelp args)
  | "--" :: "run" :: _ | "--" :: "help" :: _ => .error .unknownArgument
  | "--" :: _ => .error .unknownCommand
  | arg :: _ => .error (readOption arg)

end Nameserver.CommandLine
