import WireTree.Options

/-!
# Command-line arguments

What the arguments of each tool ask for.

* `Tool` are the three tools. `pack` knows no options but the general ones, `unpack` can be told how
  to decode, and `validate` what to check and report; `validate` alone takes a file.
* Arguments are read from left to right. Long options are written in full, short ones may be run
  together, and `--` ends the options. The depth is the next argument, or stands behind `=`.
* Only `-v` may be repeated. An unknown option, a repeated one, a value that is missing, not wanted
  or no number, an empty file and an argument that no tool takes are all misuse.
* Help and version are answered as soon as they are read, so what stands behind them is not looked
  at. A depth or file is judged when the next option or the end is read.
-/

namespace WireTree

/-- The command-line tools. -/
inductive Tool where
  | pack
  | unpack
  | validate
  deriving DecidableEq, Repr

/-- The name under which a tool is called. -/
def Tool.name : Tool → String
  | pack => "bos-pack"
  | unpack => "bos-unpack"
  | validate => "bos-validate"

/-- The tool with the given name. -/
def Tool.ofName? (name : String) : Option Tool :=
  [pack, unpack, validate].find? (·.name == name)

namespace CommandLine

/-- The options of all tools. -/
inductive Flag where
  | exactSize
  | legacyNullTags
  | explain
  | size
  deriving DecidableEq, Repr

/-- What a tool is told to do. -/
structure Settings where
  maxDepth : Option UInt64 := none
  flags : List Flag := []
  verbosity : Nat := 0
  file : Option String := none

/-- Whether a flag is set. -/
def Settings.has (s : Settings) (f : Flag) : Bool :=
  s.flags.contains f

/-- The decoding options of the settings. -/
def Settings.options (s : Settings) : Options where
  maxDepth := s.maxDepth.getD defaultMaxDepth
  unknownTags := if s.has .legacyNullTags then .null else .reject
  exactSize := s.has .exactSize

/-- What the arguments ask for. -/
inductive Request where
  | run (settings : Settings)
  | version
  | help
  | misuse

/-- A long option of a tool. -/
inductive LongOption where
  | flag (f : Flag)
  | maxDepth
  | verbose
  | version
  | help

/-- The option of a tool with the given name. -/
def longOption? (tool : Tool) (name : String) : Option LongOption :=
  match name, tool with
  | "verbose", _ => some .verbose
  | "version", _ => some .version
  | "help", _ => some .help
  | "max-depth", .unpack => some .maxDepth
  | "max-depth", .validate => some .maxDepth
  | "exact-size", .unpack => some (.flag .exactSize)
  | "exact-size", .validate => some (.flag .exactSize)
  | "legacy-null-tags", .unpack => some (.flag .legacyNullTags)
  | "explain", .validate => some (.flag .explain)
  | "size", .validate => some (.flag .size)
  | _, _ => none

/-- A 64-bit number in decimal digits, with an optional plus sign. -/
def depth? (s : String) : Option UInt64 :=
  let digits :=
    match s.toList with
    | '+' :: rest => rest
    | cs => cs
  let isDigit := fun c : Char => 48 ≤ c.toNat && c.toNat ≤ 57
  if digits.isEmpty || !digits.all isDigit then none
  else
    let n := digits.foldl (fun n c => 10 * n + (c.toNat - 48)) 0
    if n < 0x1_0000_0000_0000_0000 then some (UInt64.ofNat n) else none

/-- A value that was read and is still to be judged. -/
inductive Pending where
  | nothing
  /-- The depth option, with its value unless that is to follow. -/
  | depth (value : Option String)
  | file (path : String)

/-- Judges the value that is still to be judged. -/
def settle (s : Settings) : Pending → Option Settings
  | .nothing => some s
  | .depth none => none
  | .depth (some text) =>
    match depth? text, s.maxDepth with
    | some n, none => some { s with maxDepth := some n }
    | _, _ => none
  | .file path => if path.isEmpty then none else some { s with file := some path }

/-- Sets a flag, unless it is set already. -/
def setFlag (s : Settings) (f : Flag) : Option Settings :=
  if s.has f then none else some { s with flags := f :: s.flags }

/-- An argument, taken apart. -/
inductive Argument where
  /-- The two dashes that end the options. -/
  | endOfOptions
  | long (name : String) (value : Option String)
  | short (letters : List Char)
  | plain (text : String)

/-- Takes an argument apart. A dash alone is plain. -/
def Argument.ofString (s : String) : Argument :=
  match s.toList with
  | ['-', '-'] => .endOfOptions
  | '-' :: '-' :: rest =>
    match rest.span (· != '=') with
    | (name, '=' :: value) => .long (String.ofList name) (some (String.ofList value))
    | (name, _) => .long (String.ofList name) none
  | '-' :: first :: rest => .short (first :: rest)
  | _ => .plain s

/-- Reads short options that are run together. Gives the settings behind them, or the request that
they end in. -/
def shortOptions (s : Settings) : List Char → Settings ⊕ Request
  | [] => .inl s
  | 'v' :: rest => shortOptions { s with verbosity := s.verbosity + 1 } rest
  | 'V' :: _ => .inr .version
  | 'h' :: _ => .inr .help
  | _ :: _ => .inr .misuse

/-- Reads a plain argument as the file of a tool that takes one. -/
def plainArgument (tool : Tool) (s : Settings) (pending : Pending) (text : String) :
    Option (Settings × Pending) := do
  let s ← settle s pending
  if tool = .validate ∧ s.file = none then some (s, .file text) else none

/-- Reads plain arguments up to the end. -/
def plainArguments (tool : Tool) (s : Settings) (pending : Pending) : List String → Request
  | [] =>
    match settle s pending with
    | some s => .run s
    | none => .misuse
  | text :: rest =>
    match plainArgument tool s pending text with
    | some (s, pending) => plainArguments tool s pending rest
    | none => .misuse

/-- Reads arguments up to the end. -/
def arguments (tool : Tool) (s : Settings) (pending : Pending) : List String → Request
  | [] =>
    match settle s pending with
    | some s => .run s
    | none => .misuse
  | arg :: rest =>
    match Argument.ofString arg with
    | .endOfOptions => plainArguments tool s pending rest
    | .long name value =>
      match longOption? tool name, settle s pending with
      | some .version, some _ => if value.isSome then .misuse else .version
      | some .help, some _ => if value.isSome then .misuse else .help
      | some .verbose, some s =>
        if value.isSome then .misuse
        else arguments tool { s with verbosity := s.verbosity + 1 } .nothing rest
      | some .maxDepth, some s => arguments tool s (.depth value) rest
      | some (.flag f), some s =>
        match setFlag s f, value with
        | some s, none => arguments tool s .nothing rest
        | _, _ => .misuse
      | _, _ => .misuse
    | .short letters =>
      match settle s pending with
      | none => .misuse
      | some s =>
        match shortOptions s letters with
        | .inl s => arguments tool s .nothing rest
        | .inr request => request
    | .plain text =>
      match pending with
      | .depth none => arguments tool s (.depth (some text)) rest
      | _ =>
        match plainArgument tool s pending text with
        | some (s, pending) => arguments tool s pending rest
        | none => .misuse

/-- What the arguments of a tool ask for. -/
def parse (tool : Tool) (args : List String) : Request :=
  arguments tool {} .nothing args

end CommandLine

end WireTree
