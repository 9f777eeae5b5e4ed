/-
  CssLexer.Command — the command: what it prints and how it exits, as a function of what it was asked and has read.
-/

import CssLexer.Command.Arguments
import CssLexer.Command.Views
import CssLexer.Scan

namespace CssLexer.Command

inductive ReadFailure where
  | notFound
  | isDirectory
  | invalidEncoding
  /-- Any other reason, in the system's words. -/
  | other (message : Text)
  deriving DecidableEq, Repr

def ReadFailure.message : ReadFailure → Text
  | notFound => "No such file or directory (os error 2)"
  | isDirectory => "Is a directory (os error 21)"
  | invalidEncoding => "stream did not contain valid UTF-8"
  | other message => message

structure Report where
  exit : Nat
  stdout : Text
  stderr : Text
  deriving DecidableEq, Repr

def errorText (context cause : Text) : Text := "Error: " ++ context ++ "\n\nCaused by:\n    " ++ cause ++ "\n"

def Source.description : Source → Text
  | inline _ => "argument"
  | file path => "'" ++ path ++ "'"
  | standardInput => "standard input"

def View.render (color : Bool) (tokens : List Token) : View → Text
  | listing => Command.listing color tokens
  | summary => Command.summary color tokens
  | json => Command.json tokens ++ "\n"

/-- The report on a text; `colorWarnings` says whether standard error takes colour. -/
def scanText (o : Options) (colorWarnings : Bool) (s : Text) : Report :=
  let warnings (lines : List Text) := lines.flatMap (warningLine (colorWarnings && o.color))
  if o.strict then
    let outcome := (Scan.ofText s).strict
    match outcome.result with
    | .ok tokens => ⟨0, o.view.render o.color tokens, warnings outcome.printed⟩
    | .error fault => ⟨1, [], warnings outcome.printed ++ errorText "Malformed CSS" fault.message⟩
  else
    let outcome := (Scan.ofText s).rest
    ⟨0, o.view.render o.color outcome.result, warnings outcome.printed⟩

def respond (o : Options) (colorWarnings : Bool) : Except ReadFailure Text → Report
  | .ok s => scanText o colorWarnings s
  | .error failure => ⟨1, [], errorText ("Error reading " ++ o.source.description) failure.message⟩

def versionText : Text := "lemur 0.1.0\n"

def usageText : Text := "Usage: lemur [OPTIONS] [FILE]\n"

def helpText : Text :=
  "Scan CSS 2.1 into a positioned token stream\n\n" ++ usageText ++ "
Arguments:
  [FILE]  CSS file to scan; `-` or nothing reads standard input

Options:
      --css <CSS>  Scan this CSS text instead of a file
  -j, --json       Output tokens as JSON
  -s, --summary    Print the number of tokens of each kind
      --strict     Stop with an error at the first malformed token
      --no-color   Disable colored output, warnings on standard error included
  -h, --help       Print help
  -V, --version    Print version
"

def refuse (e : UsageError) : Report :=
  ⟨2, [], "error: " ++ e.message ++ "\n\n" ++ usageText ++ "\nFor more information, try '--help'.\n"⟩

/-- Runs the command. `read` is how a source is read: whatever it stands for is all that the command sees of the world
besides its arguments and whether standard error takes colour. -/
def run {m : Type → Type} [Monad m] (read : Source → m (Except ReadFailure Text)) (colorWarnings : Bool)
    (arguments : List Text) : m Report :=
  match Request.ofArguments arguments with
  | .error e => pure (refuse e)
  | .ok .version => pure ⟨0, versionText, []⟩
  | .ok .help => pure ⟨0, helpText, []⟩
  | .ok (.scan o) => do return respond o colorWarnings (← read o.source)

end CssLexer.Command
