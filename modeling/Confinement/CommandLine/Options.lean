import Confinement.Invocation

/-!
# Command lines

A command line is a row of words.  A word is a long option (`--root`,
`--root=PATH`), a cluster of short ones (`-lw`, `-cPATH`, `-c=PATH`), the value
of the option before it, or out of place.

An option's value is judged only when the next option is met, or at the end.
An unknown word is refused at once, so it is reported even when an earlier
option lacks its value.
-/

namespace Confinement.CommandLine

/-- The options. -/
inductive OptionName where
  | root
  | cmd
  | func
  | modules
  | listModules
  | args
  | wait
  | json
  | config
  | help
  | version
  deriving DecidableEq, Repr

namespace OptionName

def all : List OptionName :=
  [.root, .cmd, .func, .modules, .listModules, .args, .wait, .json, .config, .help, .version]

/-- The long name of an option. -/
def long : OptionName → String
  | .root => "root"
  | .cmd => "cmd"
  | .func => "func"
  | .modules => "modules"
  | .listModules => "list-modules"
  | .args => "args"
  | .wait => "wait"
  | .json => "json"
  | .config => "config"
  | .help => "help"
  | .version => "version"

/-- The letter of an option, if it has one. -/
def short? : OptionName → Option Char
  | .root => some 'r'
  | .cmd => some 'c'
  | .func => some 'f'
  | .modules => some 'm'
  | .listModules => some 'l'
  | .args => some 'j'
  | .wait => some 'w'
  | .json | .config => none
  | .help => some 'h'
  | .version => some 'V'

/-- Whether an option takes a value. -/
def takesValue : OptionName → Bool
  | .root | .cmd | .func | .modules | .args | .config => true
  | _ => false

/-- The option with a long name. -/
def ofLong? (name : Bytes) : Option OptionName := all.find? (Utf8.encode ·.long = name)

/-- The option with a letter. -/
def ofShort? (letter : UInt8) : Option OptionName :=
  all.find? fun o => o.short?.map (·.toNat) = some letter.toNat

end OptionName

/-- Why a command line is refused, or answered at once. -/
inductive Refusal where
  | unknownArgument
  | invalidValue
  | argumentConflict
  | tooManyValues
  | invalidUtf8
  | displayHelp
  | displayVersion
  deriving DecidableEq, Repr

/-- A command line understood. -/
structure Options where
  root : Path := .root
  cmd : Option Path := none
  entryPoint : String := "main"
  listFile : Option Path := none
  listOnly : Bool := false
  arguments : Option Path := none
  wait : Bool := false
  json : Bool := false
  config : Option Path := none
  deriving Inhabited

/-- The run that the options ask for. -/
def Options.invocation (o : Options) (cmd : Path) : Invocation where
  root := o.root
  cmd := cmd
  entryPoint := o.entryPoint
  listFile := o.listFile
  listOnly := o.listOnly
  arguments := o.arguments

/-! ## Reading -/

/-- What was read so far: the options met, what they set, and the option that
waits for its value to be judged. -/
structure Progress where
  met : List OptionName := []
  options : Options := {}
  pending : Option (OptionName × Option Bytes) := none

/-- A path as a value. -/
private def pathValue (value : Bytes) : Except Refusal Path :=
  if value.isEmpty then .error .invalidValue else .ok ⟨value⟩

/-- The options with one more value. -/
private def assign (o : Options) (value : Bytes) : OptionName → Except Refusal Options
  | .root => do return { o with root := ← pathValue value }
  | .cmd => do return { o with cmd := some (← pathValue value) }
  | .modules => do return { o with listFile := some (← pathValue value) }
  | .args => do return { o with arguments := some (← pathValue value) }
  | .config => do return { o with config := some (← pathValue value) }
  | .func =>
    match Utf8.decode? value with
    | some text => .ok { o with entryPoint := text }
    | none => .error .invalidUtf8
  | .listModules => .ok { o with listOnly := true }
  | .wait => .ok { o with wait := true }
  | .json => .ok { o with json := true }
  | .help => .error .displayHelp
  | .version => .error .displayVersion

/-- An option judged: it has its value, was not met before, and its value is
of the right kind. -/
private def judge (p : Progress) (option : OptionName) (value : Option Bytes) :
    Except Refusal Progress :=
  if option.takesValue && value.isNone then .error .invalidValue
  else if p.met.contains option then .error .argumentConflict
  else do
    let options ← assign p.options (value.getD []) option
    return { p with met := option :: p.met, options }

/-- The waiting option judged. -/
private def settle (p : Progress) : Except Refusal Progress :=
  match p.pending with
  | some (option, value) => judge { p with pending := none } option value
  | none => .ok p

/-- An option met with the value attached to it, if any. -/
private def meet (p : Progress) (option : OptionName) (attached : Option Bytes) :
    Except Refusal Progress := do
  let p ← settle p
  if option.takesValue && attached.isNone then return { p with pending := some (option, none) }
  else judge p option attached

private def equals : UInt8 := 0x3D
private def hyphen : UInt8 := 0x2D

/-- A long option, after its hyphens. -/
private def readLong (p : Progress) (word : Bytes) : Except Refusal Progress :=
  let name := word.takeWhile (· ≠ equals)
  let attached := if name.length < word.length then some (word.drop (name.length + 1)) else none
  match OptionName.ofLong? name with
  | none => .error .unknownArgument
  | some option =>
    if attached.isSome && !option.takesValue then .error .tooManyValues
    else meet p option attached

/-- A cluster of short options, after its hyphen. -/
private def readShort (p : Progress) : Bytes → Except Refusal Progress
  | [] => .ok p
  | letter :: rest =>
    match OptionName.ofShort? letter with
    | none => .error .unknownArgument
    | some option =>
      if option.takesValue then
        match rest with
        | [] => meet p option none
        | b :: value => meet p option (some (if b = equals then value else rest))
      else do readShort (← meet p option none) rest

/-- The words of a command line, `past` a lone `--` or not. -/
private def readWords (past : Bool) (p : Progress) : List Bytes → Except Refusal Progress
  | [] => settle p
  | word :: words =>
    match past, word with
    | true, _ => .error .unknownArgument
    | false, [0x2D, 0x2D] => readWords true p words
    | false, 0x2D :: 0x2D :: long => do readWords false (← readLong p long) words
    | false, 0x2D :: b :: short => do readWords false (← readShort p (b :: short)) words
    | false, value =>
      match p.pending with
      | some (option, none) =>
        readWords false { p with pending := some (option, some value) } words
      | _ => .error .unknownArgument

/-- The options of a command line, without the program's name. -/
def parse (words : List Bytes) : Except Refusal Options :=
  (readWords false {} words).map (·.options)

end Confinement.CommandLine
