/-!
# Command-line arguments

A command takes one file and some flags, in any order; two hyphens end the flags.
Arguments are looked at from left to right, and the first one that asks for help or
for the version, or that is in error, decides. A flag may be given once, takes no
value and cannot be shortened. What is missing or does not go together is found at
the end.
-/
namespace BytecodeMachine.Arguments

/-- What a command accepts. -/
structure Shape where
  flags : List String
  /-- Whether these flags go together. -/
  compatible : List String → Bool

/-- Why arguments are refused. -/
inductive Misuse
  | unknownFlag (argument : String)
  | repeatedFlag (name : String)
  | unwantedValue (argument : String)
  | extraFile (argument : String)
  | emptyFile
  | missingFile
  | conflict
deriving DecidableEq, Repr

def Misuse.message : Misuse → String
  | .unknownFlag argument => s!"unexpected argument '{argument}' found"
  | .repeatedFlag name => s!"the argument '--{name}' cannot be used multiple times"
  | .unwantedValue argument => s!"unexpected value in '{argument}'"
  | .extraFile argument => s!"unexpected argument '{argument}' found"
  | .emptyFile => "a value is required for '<FILE>' but none was supplied"
  | .missingFile => "the following required arguments were not provided: <FILE>"
  | .conflict => "the flags cannot be used together"

/-- What the arguments ask for. -/
inductive Request
  | version
  | help
  | refuse (cause : Misuse)
  | proceed (file : String) (flags : List String)
deriving DecidableEq, Repr

/-- What has been seen so far. -/
structure Seen where
  file : Option String := none
  flags : List String := []

/-- What an argument that is no flag does: the first one is the file. -/
def takeFile (seen : Seen) (argument : String) : Except Misuse Seen :=
  match seen.file with
  | some _ => .error (.extraFile argument)
  | none => if argument = "" then .error .emptyFile else .ok { seen with file := some argument }

/-- What a flag does. Its name is without the hyphens. -/
def takeFlag (shape : Shape) (seen : Seen) (name : String) : Except Misuse Seen :=
  if !shape.flags.contains name then .error (.unknownFlag ("--" ++ name))
  else if seen.flags.contains name then .error (.repeatedFlag name)
  else .ok { seen with flags := seen.flags ++ [name] }

/-- What is asked for at the end of the arguments. -/
def finish (shape : Shape) (seen : Seen) : Request :=
  match seen.file with
  | none => .refuse .missingFile
  | some file => if shape.compatible seen.flags then .proceed file seen.flags else .refuse .conflict

/-- Goes through arguments none of which is a flag. -/
def readFiles (shape : Shape) (seen : Seen) : List String → Request
  | [] => finish shape seen
  | argument :: rest =>
    match takeFile seen argument with
    | .ok seen => readFiles shape seen rest
    | .error cause => .refuse cause

/-- Splits a long flag at the first equals sign. -/
def splitValue (name : List Char) : List Char × Bool :=
  (name.takeWhile (· != '='), name.contains '=')

/-- Goes through arguments. -/
def read (shape : Shape) (seen : Seen) : List String → Request
  | [] => finish shape seen
  | argument :: rest =>
    match argument.toList with
    | ['-', '-'] => readFiles shape seen rest
    | '-' :: '-' :: name =>
      let (name, hasValue) := splitValue name
      let name := String.ofList name
      if !("version" :: "help" :: shape.flags).contains name then
        .refuse (.unknownFlag argument)
      else if hasValue then .refuse (.unwantedValue argument)
      else if name = "version" then .version
      else if name = "help" then .help
      else
        match takeFlag shape seen name with
        | .ok seen => read shape seen rest
        | .error cause => .refuse cause
    | '-' :: 'V' :: _ => .version
    | '-' :: 'h' :: _ => .help
    | '-' :: _ :: _ => .refuse (.unknownFlag argument)
    | _ =>
      match takeFile seen argument with
      | .ok seen => read shape seen rest
      | .error cause => .refuse cause

/-- What the arguments of a command ask for. -/
def request (shape : Shape) (arguments : List String) : Request := read shape {} arguments

end BytecodeMachine.Arguments
