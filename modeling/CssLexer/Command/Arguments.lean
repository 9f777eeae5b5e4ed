/-
  CssLexer.Command.Arguments — what the arguments of the command ask for.

  Arguments are read from left to right. `--` makes everything behind it a file name; `-js` is `-j` and `-s`; the text
  of `--css` is behind an equals sign or is the next argument, which may then be `-` but not start with it otherwise.
  No option may come twice, and there is one file at most. Help and version answer as soon as they are reached;
  options that exclude each other are refused only at the end.
-/

import CssLexer.Text

namespace CssLexer.Command

inductive Source where
  | inline (css : Text)
  | file (path : Text)
  | standardInput
  deriving DecidableEq, Repr

inductive View where
  | listing
  | summary
  | json
  deriving DecidableEq, Repr

structure Options where
  source : Source
  view : View
  /-- Refuse a text with a malformed token. -/
  strict : Bool
  color : Bool
  deriving DecidableEq, Repr

inductive Request where
  | scan (options : Options)
  | help
  | version
  deriving DecidableEq, Repr

inductive UsageError where
  | unexpectedArgument (argument : Text)
  | missingValue (argument : Text)
  | unneededValue (argument value : Text)
  | repeated (argument : Text)
  | conflict (argument other : Text)
  deriving DecidableEq, Repr

def UsageError.message : UsageError → Text
  | unexpectedArgument a => "unexpected argument '" ++ a ++ "' found"
  | missingValue a => "a value is required for '" ++ a ++ "' but none was supplied"
  | unneededValue a v => "unexpected value '" ++ v ++ "' for '" ++ a ++ "' found; no more were expected"
  | repeated a => "the argument '" ++ a ++ "' cannot be used multiple times"
  | conflict a b => "the argument '" ++ a ++ "' cannot be used with '" ++ b ++ "'"

/-- The options given so far. -/
structure Given where
  file : Option Text
  css : Option Text
  json : Bool
  summary : Bool
  strict : Bool
  noColor : Bool
  deriving DecidableEq, Repr

inductive Flag where
  | json
  | summary
  | strict
  | noColor
  | help
  | version
  deriving DecidableEq, Repr

namespace Flag

def ofLetter? : Char → Option Flag
  | 'j' => some json
  | 's' => some summary
  | 'h' => some help
  | 'V' => some version
  | _ => none

def all : List Flag := [json, summary, strict, noColor, help, version]

/-- The long name of a flag, without its dashes. -/
def name : Flag → Text
  | json => "json"
  | summary => "summary"
  | strict => "strict"
  | noColor => "no-color"
  | help => "help"
  | version => "version"

def ofName? (name : Text) : Option Flag := all.find? fun f => f.name == name

end Flag

/-- One argument, by its form. -/
inductive Word where
  /-- Two dashes alone. -/
  | separator
  /-- Two dashes and a name, with or without an equals sign and a value. -/
  | long (name : Text) (value : Option Text)
  /-- One dash and letters. -/
  | letters (letters : Text)
  | plain (s : Text)
  deriving DecidableEq, Repr

/-- A long option divided at its first equals sign. -/
def Word.ofLong (s : Text) : Word :=
  match s.dropWhile (· ≠ '=') with
  | [] => long s none
  | _ :: value => long (s.takeWhile (· ≠ '=')) (some value)

def Word.ofArgument : Text → Word
  | ['-', '-'] => separator
  | '-' :: '-' :: s => ofLong s
  | ['-'] => plain ['-']
  | '-' :: s => letters s
  | s => plain s

/-- What ends the reading of arguments before their end. -/
inductive Stop where
  | refused (e : UsageError)
  | reached (r : Request)
  deriving DecidableEq, Repr

/-- The metavariable under which the value of `--css` appears in messages. -/
def cssUsage : Text := "--css <CSS>"

def fileUsage : Text := "[FILE]"

namespace Given

def none : Given := ⟨.none, .none, false, false, false, false⟩

def giveFile (g : Given) (path : Text) : Except Stop Given :=
  if path = [] then .error (.refused (.missingValue fileUsage))
  else if g.file.isSome then .error (.refused (.unexpectedArgument path))
  else .ok { g with file := some path }

def giveCss (g : Given) (css : Text) : Except Stop Given :=
  if g.css.isSome then .error (.refused (.repeated cssUsage)) else .ok { g with css := some css }

def giveFlag (g : Given) (f : Flag) : Except Stop Given :=
  let repeated := .error (.refused (.repeated ("--" ++ f.name)))
  match f with
  | .json => if g.json then repeated else .ok { g with json := true }
  | .summary => if g.summary then repeated else .ok { g with summary := true }
  | .strict => if g.strict then repeated else .ok { g with strict := true }
  | .noColor => if g.noColor then repeated else .ok { g with noColor := true }
  | .help => .error (.reached .help)
  | .version => .error (.reached .version)

def giveLetter (g : Given) (c : Char) : Except Stop Given :=
  match Flag.ofLetter? c with
  | some f => g.giveFlag f
  | .none => .error (.refused (.unexpectedArgument ['-', c]))

def giveName (g : Given) (name : Text) (value : Option Text) : Except Stop Given :=
  match Flag.ofName? name, value with
  | .none, _ => .error (.refused (.unexpectedArgument ("--" ++ name)))
  | some f, .none => g.giveFlag f
  | some f, some v => .error (.refused (.unneededValue ("--" ++ f.name) v))

/-- Reads arguments up to their end or to a stop, `g` being what the arguments before them gave. -/
def readAll : List Text → Given → Except Stop Given
  | [], g => .ok g
  | argument :: rest, g =>
    match Word.ofArgument argument with
    | .separator => rest.foldlM giveFile g
    | .letters cs => (cs.foldlM giveLetter g).bind (readAll rest)
    | .plain s => (g.giveFile s).bind (readAll rest)
    | .long name value =>
      if name ≠ "css" then (g.giveName name value).bind (readAll rest)
      else match value with
        | some css => (g.giveCss css).bind (readAll rest)
        | .none =>
          match rest with
          | [] => .error (.refused (.missingValue cssUsage))
          | next :: others =>
            match Word.ofArgument next with
            | .plain css => (g.giveCss css).bind (readAll others)
            | _ => .error (.refused (.missingValue cssUsage))

/-- What the given options come to, once all arguments are read. -/
def request (g : Given) : Except UsageError Request :=
  if g.json && g.summary then .error (.conflict "--summary" "--json")
  else if g.css.isSome && g.file.isSome then .error (.conflict cssUsage fileUsage)
  else
    let source := match g.css, g.file with
      | some css, _ => .inline css
      | .none, some path => if path = "-" then .standardInput else .file path
      | .none, .none => .standardInput
    let view := if g.json then .json else if g.summary then .summary else .listing
    .ok (.scan ⟨source, view, g.strict, !g.noColor⟩)

end Given

def Request.ofArguments (arguments : List Text) : Except UsageError Request :=
  match Given.readAll arguments .none with
  | .ok g => g.request
  | .error (.refused e) => .error e
  | .error (.reached r) => .ok r

end CssLexer.Command
