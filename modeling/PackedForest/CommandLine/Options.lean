import PackedForest.Decimal.Reader

/-!
# The options of the command line

Arguments are read from left to right. A request for help ends the reading at once; the first
argument that is refused does so too.
-/

namespace PackedForest.CommandLine

/-- What a run is asked to do. -/
structure Options where
  files : List String := []
  spanLimits : Option (List Nat) := none
  deleteUnknown : Bool := false
  root : Option String := none
  unknown : Option String := none
  factors : Nat := 1
  keepSourceText : Bool := false
  json : Bool := false
  trees : Nat := 0

inductive Request
  | help
  | run (options : Options)

inductive ArgumentError
  | needsValue (option : String)
  | notANumber (text : String)
  | unknownOption (option : String)
  | missingFile

def usage (program : String) : String :=
  s!"Usage: {program} FILE [FILE...] [options]" ++ "

Reads one sentence per line from stdin and prints the forest each one yields.
Set RUST_LOG (e.g. RUST_LOG=debug) to see what the builder is doing.

Options:
  -h, --help               Print this message
  -s, --span-limits N,M    Widest span each grammar may cover, one per FILE
  -d, --delete-unknown     Drop words no rule covers instead of passing them through
  -r, --root LABEL         Label of the node covering the sentence (default S)
  -u, --unk LABEL          Label given to unknown words (default X)
  -f, --factors N          Number of target factors in the grammars (default 1)
      --src-str            Keep each rule's source text on its edges
  -j, --json               Print the forest as JSON
  -t, --trees N            Also print up to N derivation trees with their
                           probability and summed features"

namespace ArgumentError

def message : ArgumentError → String
  | needsValue option => s!"{option} needs a value"
  | notANumber text => s!"not a number: {text}"
  | unknownOption option => s!"unknown option {option}"
  | missingFile => "missing grammar file"

/-- The message, followed by the usage. -/
def report (program : String) (e : ArgumentError) : String :=
  s!"argument error: {e.message}.\n\n{usage program}"

end ArgumentError

/-- A number of at most 64 bits. A plus in front of the digits is let pass. -/
def readNumber? (text : String) : Option Nat :=
  let digits :=
    match text.toList with
    | '+' :: digits => digits
    | digits => digits
  let number := Decimal.digitsFrom 0 digits
  if !digits.isEmpty && digits.all Char.isDigit && number < 0x10000000000000000 then some number
  else none

def readNumber (text : String) : Except ArgumentError Nat :=
  match readNumber? text with
  | some n => .ok n
  | none => .error (.notANumber text)

/-- The options that take no value. -/
def flag? : String → Option (Options → Options)
  | "-d" | "--delete-unknown" => some fun o => { o with deleteUnknown := true }
  | "--src-str" => some fun o => { o with keepSourceText := true }
  | "-j" | "--json" => some fun o => { o with json := true }
  | _ => none

/-- The options that take the next argument as their value. -/
def setting? : String → Option (String → Options → Except ArgumentError Options)
  | "-s" | "--span-limits" => some fun value o => do
    let limits ← (value.splitOn ",").mapM readNumber
    return { o with spanLimits := some limits }
  | "-r" | "--root" => some fun value o => return { o with root := some value }
  | "-u" | "--unk" => some fun value o => return { o with unknown := some value }
  | "-f" | "--factors" => some fun value o => return { o with factors := ← readNumber value }
  | "-t" | "--trees" => some fun value o => return { o with trees := ← readNumber value }
  | _ => none

/-- Reads the arguments that are left, after those that gave some options. -/
def readArguments : Options → List String → Except ArgumentError Request
  | o, [] => if o.files.isEmpty then .error .missingFile else .ok (.run o)
  | o, argument :: arguments =>
    if argument = "-h" ∨ argument = "--help" then .ok .help
    else match flag? argument with
      | some change => readArguments (change o) arguments
      | none =>
        match setting? argument with
        | some change =>
          match arguments with
          | [] => .error (.needsValue argument)
          | value :: arguments => do readArguments (← change value o) arguments
        | none =>
          if argument.startsWith "-" then .error (.unknownOption argument)
          else readArguments { o with files := o.files ++ [argument] } arguments

/-- The files that a run with these arguments reads. -/
def filesOf (arguments : List String) : List String :=
  match readArguments {} arguments with
  | .ok (.run o) => o.files
  | _ => []

end PackedForest.CommandLine
