/-
The command line. A command is `uninit`, `dead-func` or `all`, a file, and options in any order; an
option with a value takes it after an equals sign or as the next word. The level of the log may be
told before the command as well.
-/
import SSALint.Log

namespace SSALint.CommandLine

/-! ## Options -/

/-- The options that a command line may have. -/
inductive Opt where
  | fixpoint
  | emitIr
  | transitive
  | entry
  | output
  | logLevel
  | help
deriving DecidableEq, Repr

instance : Spelled Opt where
  all := [.fixpoint, .emitIr, .transitive, .entry, .output, .logLevel, .help]
  spelling
    | .fixpoint => "fixpoint"
    | .emitIr => "emit-ir"
    | .transitive => "transitive"
    | .entry => "entry"
    | .output => "output"
    | .logLevel => "log-level"
    | .help => "help"

/-- Whether an option has a value. -/
def Opt.hasValue : Opt → Bool
  | .entry | .output | .logLevel => true
  | _ => false

/-- The option that a single letter stands for. -/
def Opt.ofLetter? : Char → Option Opt
  | 'o' => some .output
  | 'h' => some .help
  | _ => none

/-- What a command line asks for. -/
inductive Command where
  | uninit
  | deadFunc
  | all
deriving DecidableEq, Repr

instance : Spelled Command where
  all := [.uninit, .deadFunc, .all]
  spelling
    | .uninit => "uninit"
    | .deadFunc => "dead-func"
    | .all => "all"

/-- Whether a command checks for uninitialized reads. -/
def Command.checks : Command → Bool
  | .uninit | .all => true
  | .deadFunc => false

/-- Whether a command removes dead functions. -/
def Command.prunes : Command → Bool
  | .deadFunc | .all => true
  | .uninit => false

/-- Whether an option may stand behind a command. -/
def Command.allows (c : Command) : Opt → Bool
  | .fixpoint | .emitIr => c.checks
  | .transitive | .entry | .output => c.prunes
  | .logLevel | .help => true

/-- Why a command line is refused. -/
inductive UsageError where
  | missingCommand
  | missingFile
  | unexpected (word : String)
  | repeated (o : Opt)
  | missingValue (o : Opt)
  | unneededValue (o : Opt)
  | emptyPath
  | unknownLevel (word : String)
deriving DecidableEq, Repr

/-- The wording of a complaint about a command line. -/
def UsageError.message : UsageError → String
  | .missingCommand => "a command is required: uninit, dead-func or all"
  | .missingFile => "a file is required"
  | .unexpected word => "unexpected argument " ++ word
  | .repeated o => "--" ++ Spelled.spelling o ++ " is given twice"
  | .missingValue o => "--" ++ Spelled.spelling o ++ " needs a value"
  | .unneededValue o => "--" ++ Spelled.spelling o ++ " takes no value"
  | .emptyPath => "the name of a file is empty"
  | .unknownLevel word => "unknown log level " ++ word

/-! ## Words -/

/-- What a word on the command line looks like. -/
inductive Word where
  /-- The mark after which every word is a file. -/
  | separator
  /-- An option by name, with the value behind its equals sign if it has one. -/
  | long (name : String) (value : Option String)
  /-- An option by letter, with the value that follows in the same word if there is one. -/
  | short (letter : Char) (value : Option String)
  | plain
deriving DecidableEq, Repr

/-- The text before the first equals sign and, if there is one, the text behind it. -/
def splitEquals (cs : List Char) : String × Option String :=
  match cs.dropWhile (· ≠ '=') with
  | [] => (String.ofList cs, none)
  | _ :: value => (String.ofList (cs.takeWhile (· ≠ '=')), some (String.ofList value))

/-- Reads a word. A lone dash is a plain word. -/
def Word.ofString (w : String) : Word :=
  match w.toList with
  | ['-', '-'] => .separator
  | '-' :: '-' :: cs =>
    let (name, value) := splitEquals cs
    .long name value
  | ['-', c] => .short c none
  | '-' :: c :: '=' :: cs => .short c (some (String.ofList cs))
  | '-' :: c :: cs => .short c (some (String.ofList cs))
  | _ => .plain

/-- The option that a word names, with the value inside the word. -/
def Word.option? : Word → Option (Opt × Option String)
  | .long name value => (Spelled.ofWord? name).map (·, value)
  | .short letter value => (Opt.ofLetter? letter).map (·, value)
  | _ => none

/-! ## Arguments -/

/-- The options of one level of a command line with their values; flags have the empty one. -/
abbrev Given := List (Opt × String)

/-- The value of an option, if it was given. -/
def Given.value? (g : Given) (o : Opt) : Option String := g.lookup o

/-- Whether an option was given. -/
def Given.has (g : Given) (o : Opt) : Bool := (g.value? o).isSome

/-- Adds an option that was not given before. -/
def Given.add (g : Given) (o : Opt) (value : String) : Except UsageError Given :=
  if g.has o then .error (.repeated o) else .ok (g ++ [(o, value)])

/-- The words of one level up to the first plain word, and what they give. -/
structure Level where
  given : Given
  /-- The first plain word and the words behind it. -/
  rest : List String
  /-- Whether the mark was met, behind which all words are plain. -/
  separated : Bool

/-- Reads options up to the first plain word. -/
def options (allows : Opt → Bool) (given : Given) : List String → Except UsageError Level
  | [] => .ok ⟨given, [], false⟩
  | w :: ws =>
    match Word.ofString w with
    | .plain => .ok ⟨given, w :: ws, false⟩
    | .separator => .ok ⟨given, ws, true⟩
    | word =>
      match word.option? with
      | none => .error (.unexpected w)
      | some (o, inside) =>
        if !allows o then .error (.unexpected w)
        else if !o.hasValue then
          match inside with
          | some _ => .error (.unneededValue o)
          | none => do options allows (← given.add o "") ws
        else
          match inside, ws with
          | some value, ws => do options allows (← given.add o value) ws
          | none, [] => .error (.missingValue o)
          | none, v :: ws =>
            match Word.ofString v with
            | .plain => do options allows (← given.add o v) ws
            | _ => .error (.missingValue o)

/-- The level of the log that a word names, in letters of either case. -/
def logFilter? (word : String) : Option LogFilter :=
  if word.toUpper = "OFF" then some none
  else (Spelled.ofWord? word.toUpper : Option LogLevel).map some

/-- The level of the log that options ask for, if they do. -/
def Given.logFilter? (g : Given) : Except UsageError (Option LogFilter) :=
  match g.value? .logLevel with
  | none => .ok none
  | some word =>
    match CommandLine.logFilter? word with
    | some filter => .ok (some filter)
    | none => .error (.unknownLevel word)

/-- What a command line asks for. -/
structure Request where
  command : Command
  file : String
  given : Given
  /-- Which lines of the log to show: by default errors and warnings. -/
  log : LogFilter
deriving DecidableEq, Repr

/-- What a command line comes to: a request, or the question how to make one. -/
inductive Parsed where
  | run (r : Request)
  | help
deriving DecidableEq, Repr

/-- A path has to have characters. -/
def checkPath (path : String) : Except UsageError Unit :=
  if path.isEmpty then .error .emptyPath else .ok ()

/-- Reads what stands behind a command: options around one file. -/
def parseCommand (outer : Option LogFilter) (c : Command) (words : List String) :
    Except UsageError Parsed := do
  let before ← options c.allows [] words
  match before.rest with
  | [] => if before.given.has .help then return .help else .error .missingFile
  | file :: words =>
    let after : Level ←
      if before.separated then pure ⟨before.given, words, true⟩
      else options c.allows before.given words
    if after.given.has .help then return .help
    match after.rest with
    | extra :: _ => .error (.unexpected extra)
    | [] =>
      checkPath file
      checkPath ((after.given.value? .output).getD file)
      let inner ← after.given.logFilter?
      return .run ⟨c, file, after.given, (inner <|> outer).getD (some .warn)⟩

/-- Reads a command line. -/
def parse (words : List String) : Except UsageError Parsed := do
  let outer ← options (fun o => o = .logLevel ∨ o = .help) [] words
  if outer.given.has .help then return .help
  match outer.rest, outer.separated with
  | [], _ => .error .missingCommand
  | w :: _, true => .error (.unexpected w)
  | w :: words, false =>
    match Spelled.ofWord? w with
    | none => .error (.unexpected w)
    | some c => parseCommand (← outer.given.logFilter?) c words

end SSALint.CommandLine
