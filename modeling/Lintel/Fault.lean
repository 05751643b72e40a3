import Lintel.Glob.Token
import Lintel.Json.Fault
import Lintel.Text.Words
import Lintel.Tree.Locate
import Lintel.Version.Basic

/-!
# What can go wrong

Every fault is a cause with the data that its message names. Faults fall into kinds: the user asked
for something impossible, the configuration is wrong, or a linter or the machine does not play
along.
-/
namespace Lintel

inductive OutputFault
  | notText (f : Text.Utf8Fault)
  | notRecords (f : Json.Fault)
  deriving DecidableEq, Repr

def OutputFault.message : OutputFault → String
  | .notText f => "invalid UTF-8: " ++ f.message
  | .notRecords f => f.message

inductive Fault
  | noTokens
  | notGlob (token : String)
  | groupOperator (token : String) (operator : Char)
  | badGlob (token glob : String) (cause : Glob.PatternFault)
  | unresolved (token : String)
  | badOptions (options : String) (cause : Words.Fault)
  | ignorePathMissing (path : Path)
  | ignorePathUnreadable (path : Path) (cause : IoFault)
  | badIgnoreRule (line : String) (path : Path) (rule : String) (cause : Glob.PatternFault)
  | settingsMissing (path : Path)
  | settingsUnreadable (path : Path) (cause : IoFault)
  | settingsInvalid
  | sinceMissing (linter : String)
  | sinceInvalid (linter since : String)
  | badVersionFlag (linter flag : String) (cause : Words.Fault)
  | badStructuredFlag (linter flag : String) (cause : Words.Fault)
  | unsupported (linter : String)
  | notInstalled (linter : String)
  | noVersion (linter flag : String)
  | badRange (text : String)
  | versionMismatch (linter : String) (version : Version) (range : String)
  | badOutput (linter : String) (file : Path) (cause : OutputFault)
  | io (cause : IoFault)
  deriving DecidableEq, Repr

namespace Fault

inductive Kind
  | argument
  | configuration
  | unsupported
  | notInstalled
  | noVersion
  | badRange
  | versionMismatch
  | badOutput
  | io
  deriving DecidableEq, Repr

def kind : Fault → Kind
  | .noTokens | .notGlob _ | .groupOperator .. | .badGlob .. | .unresolved _ | .badOptions .. =>
      .argument
  | .ignorePathMissing _ | .ignorePathUnreadable .. | .badIgnoreRule .. | .settingsMissing _
  | .settingsUnreadable .. | .settingsInvalid | .sinceMissing _ | .sinceInvalid ..
  | .badVersionFlag .. | .badStructuredFlag .. => .configuration
  | .unsupported _ => .unsupported
  | .notInstalled _ => .notInstalled
  | .noVersion .. => .noVersion
  | .badRange _ => .badRange
  | .versionMismatch .. => .versionMismatch
  | .badOutput .. => .badOutput
  | .io _ => .io

def quote (s : String) : String := "'" ++ s ++ "'"

def globCause (glob : String) (cause : Glob.PatternFault) : String :=
  "error parsing glob " ++ quote glob ++ ": " ++ cause.message

def message : Fault → String
  | .noTokens => "At least one file or glob pattern is required."
  | .notGlob token => quote token ++ " is not a valid glob pattern."
  | .groupOperator token operator =>
      quote token ++ " uses the extended glob operator '" ++ String.singleton operator
        ++ "(...)', only '@(...)' is supported."
  | .badGlob token glob cause =>
      quote token ++ " is not a valid glob pattern: " ++ globCause glob cause
  | .unresolved token =>
      quote token ++ " is neither an existing file nor a valid glob pattern."
  | .badOptions options cause =>
      "Invalid linter options " ++ quote options ++ ": " ++ cause.message
  | .ignorePathMissing path => "Ignore path " ++ quote path.display ++ " doesn't exist."
  | .ignorePathUnreadable path cause =>
      "Could not read ignore path " ++ quote path.display ++ ": " ++ cause.message
  | .badIgnoreRule line path rule cause =>
      "Invalid pattern " ++ quote line ++ " in ignore path " ++ quote path.display ++ ": "
        ++ globCause rule cause
  | .settingsMissing path => "Config path " ++ quote path.display ++ " doesn't exist."
  | .settingsUnreadable path cause =>
      "Could not read config " ++ quote path.display ++ ": " ++ cause.message
  | .settingsInvalid => "Invalid configuration:"
  | .sinceMissing linter =>
      linter ++ ": structured-output capability not fully configured (missing minimum version)."
  | .sinceInvalid linter since =>
      linter ++ ": structured-output minimum version " ++ quote since
        ++ " is not a valid semver range."
  | .badVersionFlag linter flag cause =>
      linter ++ ": invalid version flag " ++ quote flag ++ ": " ++ cause.message
  | .badStructuredFlag linter flag cause =>
      linter ++ ": invalid structured-output flag " ++ quote flag ++ ": " ++ cause.message
  | .unsupported linter => "Linter " ++ quote linter ++ " is not supported."
  | .notInstalled linter => "Could not find executable " ++ quote linter ++ "."
  | .noVersion linter flag =>
      "Could not find version for " ++ linter ++ " using '" ++ linter ++ " " ++ flag ++ "'."
  | .badRange text => quote text ++ " is not a valid semver range."
  | .versionMismatch linter version range =>
      linter ++ " " ++ version.triple ++ " does not satisfy " ++ range ++ "."
  | .badOutput linter file cause =>
      linter ++ " produced malformed structured output for " ++ file.display ++ ": "
        ++ cause.message
  | .io cause => "IO error: " ++ cause.message

def chain (f : Fault) : String :=
  match f with
  | .io cause => f.message ++ ": " ++ cause.message
  | f => f.message

end Fault

end Lintel
