import MiniJvm.Number.Literal
import MiniJvm.Project.Manifest
import MiniJvm.Text.Utf8
import MiniJvm.Text.Quoted

/-!
# Options

The command line is a list of flags followed by paths. A flag starts with one or two dashes and
has its value behind an equals sign or in the next word; a switch has one only behind an equals
sign. The first word that is no flag, or a double dash, ends the flags.
-/

namespace MiniJvm.Command

/-- What the command line asks for. Empty texts were not given. -/
structure Options where
  entry : Bytes := []
  args : Bytes := []
  trace : Bool := false
  /-- The verbosity of the log; a negative one was not given. -/
  verbosity : Int := -1
  images : List Bytes := []
  saveImage : Bytes := []
  disassemble : Bool := false
  record : Bool := false
  store : Bytes := []
  runs : Int := 0
  serve : Bool := false
  address : Bytes := []
  workers : Int := 0
  remote : Bytes := []
  paths : List Bytes := []
  deriving DecidableEq, Repr

inductive Setting where
  | switch (set : Bool → Options → Options)
  | number (default : Int) (set : Int → Options → Options)
  | text (set : Bytes → Options → Options)
  /-- A text that may be given again and again. -/
  | repeated (add : Bytes → Options → Options)

structure Flag where
  name : Bytes
  setting : Setting
  usage : Bytes

def flags : List Flag :=
  [⟨"addr", .text fun v o => { o with address := v },
      "Server address (default " ++ Manifest.defaultAddress ++ ")"⟩,
    ⟨"args", .text fun v o => { o with args := v },
      "Comma-separated int arguments for the entry method"⟩,
    ⟨"disasm", .switch fun v o => { o with disassemble := v },
      "Print the loaded classes and exit"⟩,
    ⟨"image", .repeated fun v o => { o with images := o.images ++ [v] },
      "Load a class image (repeatable)"⟩,
    ⟨"m", .text fun v o => { o with entry := v },
      "Entry method (e.g. 'Main' or 'Main.run:(I)I')"⟩,
    ⟨"record", .switch fun v o => { o with record := v },
      "Save the image and run history in the store"⟩,
    ⟨"remote", .text fun v o => { o with remote := v },
      "Run on a server instead (e.g. http://localhost:4568)"⟩,
    ⟨"runs", .number 0 fun v o => { o with runs := v },
      "List the N most recent recorded runs and exit"⟩,
    ⟨"save-image", .text fun v o => { o with saveImage := v },
      "Write the loaded classes to an image file"⟩,
    ⟨"serve", .switch fun v o => { o with serve := v }, "Start the execution server"⟩,
    ⟨"store", .text fun v o => { o with store := v },
      "Store database (default from ristretto.toml)"⟩,
    ⟨"trace", .switch fun v o => { o with trace := v },
      "Log every executed instruction at debug level"⟩,
    ⟨"v", .number (-1) fun v o => { o with verbosity := v },
      "Log verbosity (default from ristretto.toml, else 1)"⟩,
    ⟨"workers", .number 0 fun v o => { o with workers := v },
      "Concurrent runs when serving (default GOMAXPROCS)"⟩]

/-- The name of the kind of value that a flag takes; none for a switch. -/
def Setting.kind : Setting → Bytes
  | .switch _ => []
  | .number .. => " int"
  | .text _ => " string"
  | .repeated _ => " value"

/-- The value of a flag that is not given, unless it is zero. -/
def Setting.defaultText : Setting → Bytes
  | .number n _ => if n = 0 then [] else " (default " ++ Bytes.ofInt n ++ ")"
  | _ => []

/-- The description of a flag; a short head has the text on its own line. -/
def Flag.description (f : Flag) : Bytes :=
  let head : Bytes := "  -" ++ f.name ++ f.setting.kind
  let gap : Bytes := if head.length ≤ 4 then "\t" else "\n    \t"
  head ++ gap ++ f.usage ++ f.setting.defaultText ++ "\n"

def usage : Bytes :=
  "Usage: ristretto [options] [paths...]\n\n"
    ++ "Loads .class files, .rasm sources and .rimg images from the given paths\n"
    ++ "and runs an entry method.\n\n"
    ++ "Options:\n"
    ++ flags.flatMap Flag.description
    ++ "\nExamples:\n"
    ++ "  ristretto Counter.class                 # Run Counter.main\n"
    ++ "  ristretto -m Calc.add:(II)I -args 2,3 ./out/...\n"
    ++ "  ristretto Calc.rasm                     # Assemble and run\n"
    ++ "  ristretto -save-image app.rimg ./out    # Bundle classes into an image\n"
    ++ "  ristretto -image app.rimg -disasm       # Print a listing\n"
    ++ "  ristretto -serve -addr :4568            # Start the execution server\n"
    ++ "  ristretto -remote http://localhost:4568 app.rimg\n"

inductive FlagError where
  | malformed (word : Bytes)
  | undefined (name : Bytes)
  | noValue (name : Bytes)
  | badNumber (name value : Bytes) (cause : Literal.Failure)
  | badSwitch (name value : Bytes)
  deriving DecidableEq, Repr

def FlagError.message : FlagError → Bytes
  | .malformed word => "bad flag syntax: " ++ word
  | .undefined name => "flag provided but not defined: -" ++ name
  | .noValue name => "flag needs an argument: -" ++ name
  | .badNumber name value cause =>
    "invalid value " ++ Quoted.quote value ++ " for flag -" ++ name ++ ": "
      ++ match cause with
        | .malformed => ("parse error" : Bytes)
        | .outOfRange => "value out of range"
  | .badSwitch name value =>
    "invalid boolean value " ++ Quoted.quote value ++ " for -" ++ name ++ ": parse error"

/-- Why there are no options: help was wanted, or the command line is wrong. -/
inductive OptionsStop where
  | help
  | refused (e : FlagError)
  deriving DecidableEq, Repr

inductive Word where
  /-- It is no flag. -/
  | plain
  /-- It ends the flags. -/
  | ending
  | malformed
  | flag (name : Bytes) (value : Option Bytes)
  deriving DecidableEq, Repr

def splitFlag (text : Bytes) : Word :=
  match text with
  | [] | 45 :: _ | 61 :: _ => .malformed
  | _ =>
    match Bytes.cut? 61 text with
    | none => .flag text none
    | some (name, value) => .flag name (some value)

def readWord : Bytes → Word
  | [45, 45] => .ending
  | 45 :: 45 :: text => splitFlag text
  | 45 :: c :: text => splitFlag (c :: text)
  | _ => .plain

def switchValue? (s : Bytes) : Option Bool :=
  if (["1", "t", "T", "TRUE", "true", "True"] : List Bytes).contains s then some true
  else if (["0", "f", "F", "FALSE", "false", "False"] : List Bytes).contains s then some false
  else none

def Flag.assign (f : Flag) (value : Bytes) (o : Options) : Except OptionsStop Options :=
  match f.setting with
  | .switch set =>
    match switchValue? value with
    | some v => .ok (set v o)
    | none => .error (.refused (.badSwitch f.name value))
  | .number _ set =>
    match Literal.signed true 64 value with
    | .ok v => .ok (set v o)
    | .error cause => .error (.refused (.badNumber f.name value cause))
  | .text set => .ok (set value o)
  | .repeated add => .ok (add value o)

def findFlag (name : Bytes) : Except OptionsStop Flag :=
  match flags.find? (·.name == name) with
  | some f => .ok f
  | none =>
    if name = ("help" : Bytes) || name = ("h" : Bytes) then .error .help
    else .error (.refused (.undefined name))

def parseFrom (o : Options) : List Bytes → Except OptionsStop Options
  | [] => .ok o
  | word :: rest =>
    match readWord word with
    | .plain => .ok { o with paths := word :: rest }
    | .ending => .ok { o with paths := rest }
    | .malformed => .error (.refused (.malformed word))
    | .flag name value =>
      match findFlag name with
      | .error stop => .error stop
      | .ok f =>
        match value, f.setting with
        | some v, _ =>
          match f.assign v o with
          | .error stop => .error stop
          | .ok o => parseFrom o rest
        | none, .switch set => parseFrom (set true o) rest
        | none, _ =>
          match rest with
          | [] => .error (.refused (.noValue name))
          | v :: rest =>
            match f.assign v o with
            | .error stop => .error stop
            | .ok o => parseFrom o rest

def parseOptions (words : List Bytes) : Except OptionsStop Options := parseFrom {} words

/-! ## Arguments of the entry method

They are written as decimal numbers between commas. Blanks around a number and empty places do not
count. -/

structure ArgumentError where
  field : Bytes
  cause : Literal.Failure
  deriving DecidableEq, Repr

def failureText : Literal.Failure → Bytes
  | .malformed => "invalid syntax"
  | .outOfRange => "value out of range"

def ArgumentError.message (e : ArgumentError) : Bytes :=
  "bad argument " ++ Quoted.quote e.field ++ ": strconv.ParseInt: parsing "
    ++ Quoted.quote e.field ++ ": " ++ failureText e.cause

def parseArgument (field : Bytes) : Except ArgumentError Int32 :=
  match Literal.signed false 32 field with
  | .error cause => .error ⟨field, cause⟩
  | .ok n => .ok (Int32.ofInt n)

def parseArguments (s : Bytes) : Except ArgumentError (List Int32) :=
  let fields := (Bytes.splitOn 44 s).map Blank.trim
  (fields.filter fun f => !f.isEmpty).mapM parseArgument

end MiniJvm.Command
