import Lintel.Path.Basic

/-!
# The command line

The first positional argument names the linter and the others are tokens for files. Options may
stand anywhere before a double dash, each at most once. The value of an option follows it, or is
attached to a long name by `=` and to a short one with or without `=`. A value of its own may
not begin with a dash, except for the extra options of the linter. The arguments are read from
left to right, and a request for the version or for help is answered where it stands.
-/
namespace Lintel

inductive ReportFormat
  | text
  | json
  | jsonPretty
  deriving DecidableEq, Repr

structure Invocation where
  linter : String
  tokens : List String
  ignorePath : Option Path
  noIgnore : Bool
  range : Option String
  options : Option String
  settings : Option Path
  format : ReportFormat
  verbose : Bool
  deriving DecidableEq, Repr

namespace Invocation

inductive Switch
  | noIgnore
  | verbose
  | version
  | help
  deriving DecidableEq, Repr

inductive Setting
  | ignorePath
  | range
  | options
  | settings
  | format
  deriving DecidableEq, Repr

inductive Kind
  | switch (s : Switch)
  | setting (s : Setting)
  deriving DecidableEq, Repr

def longNames : List (String × Kind) :=
  [ ("ignore-path", .setting .ignorePath), ("no-ignore", .switch .noIgnore),
    ("range", .setting .range), ("options", .setting .options), ("config", .setting .settings),
    ("format", .setting .format), ("verbose", .switch .verbose), ("version", .switch .version),
    ("help", .switch .help) ]

def shortNames : List (Char × Kind) :=
  [ ('i', .setting .ignorePath), ('r', .setting .range), ('c', .setting .settings),
    ('f', .setting .format), ('v', .switch .verbose), ('V', .switch .version),
    ('h', .switch .help) ]

def formatNames : List (String × ReportFormat) :=
  [("text", .text), ("json", .json), ("json-pretty", .jsonPretty)]

inductive Refusal
  | version
  | help
  | misuse
  deriving DecidableEq, Repr

structure Draft where
  linter : Option String
  tokens : List String
  ignorePath : Option Path
  noIgnore : Bool
  range : Option String
  options : Option String
  settings : Option Path
  format : Option ReportFormat
  verbose : Bool
  deriving DecidableEq, Repr

namespace Draft

def empty : Draft := ⟨none, [], none, false, none, none, none, none, false⟩

def text (value : Bytes) : Except Refusal String :=
  match Text.decode? value with
  | some cs => .ok (String.ofList cs)
  | none => .error .misuse

def path (value : Bytes) : Except Refusal Path :=
  if value = [] then .error .misuse else .ok ⟨value⟩

def formatOf (value : Bytes) : Except Refusal ReportFormat := do
  match formatNames.lookup (← text value) with
  | some f => .ok f
  | none => .error .misuse

def fill {α : Type} (old : Option α) (new : Except Refusal α) : Except Refusal (Option α) :=
  match old with
  | none => new.map some
  | some _ => .error .misuse

def positional (d : Draft) (value : Bytes) : Except Refusal Draft := do
  let s ← text value
  match d.linter with
  | none => .ok { d with linter := some s }
  | some _ => .ok { d with tokens := d.tokens ++ [s] }

def switch (d : Draft) : Switch → Except Refusal Draft
  | .noIgnore => if d.noIgnore then .error .misuse else .ok { d with noIgnore := true }
  | .verbose => if d.verbose then .error .misuse else .ok { d with verbose := true }
  | .version => .error .version
  | .help => .error .help

def set (d : Draft) (s : Setting) (value : Bytes) : Except Refusal Draft := do
  match s with
  | .ignorePath => .ok { d with ignorePath := ← fill d.ignorePath (path value) }
  | .range => .ok { d with range := ← fill d.range (text value) }
  | .options => .ok { d with options := ← fill d.options (text value) }
  | .settings => .ok { d with settings := ← fill d.settings (path value) }
  | .format => .ok { d with format := ← fill d.format (formatOf value) }

def finish (d : Draft) : Except Refusal Invocation :=
  match d.linter, d.tokens with
  | none, _ | _, [] => .error .misuse
  | some linter, tokens =>
      .ok ⟨linter, tokens, d.ignorePath, d.noIgnore, d.range, d.options, d.settings,
        d.format.getD .text, d.verbose⟩

end Draft

def dash : UInt8 := 45

def equals : UInt8 := 61

/-- An argument that names options. A single dash is an ordinary value. -/
def isOption (a : Bytes) : Bool := a.head? == some dash && 1 < a.length

def allowsDash (s : Setting) : Bool := s == .options

def long (name : Bytes) : Option Kind :=
  (Text.decode? name).bind fun cs => longNames.lookup (String.ofList cs)

def short (b : UInt8) : Option Kind := shortNames.lookup (Char.ofNat b.toNat)

def cluster (d : Draft) : Bytes → Except Refusal (Draft × Option Setting)
  | [] => .ok (d, none)
  | b :: rest =>
      match short b with
      | none => .error .misuse
      | some (.switch s) => do cluster (← d.switch s) rest
      | some (.setting s) =>
          if rest = [] then .ok (d, some s)
          else do
            let value := if rest.head? = some equals then rest.tail else rest
            .ok (← d.set s value, none)

def option (d : Draft) (a : Bytes) : Except Refusal (Draft × Option Setting) :=
  match a with
  | 45 :: 45 :: body =>
      let (name, attached) := body.span (· != equals)
      match long name, attached with
      | some (.switch s), [] => do .ok (← d.switch s, none)
      | some (.setting s), [] => .ok (d, some s)
      | some (.setting s), _ :: value => do .ok (← d.set s value, none)
      | some (.switch _), _ :: _ | none, _ => .error .misuse
  | _ => cluster d a.tail

def readFrom (d : Draft) (waiting : Option Setting) : List Bytes → Except Refusal Invocation
  | [] => if waiting.isSome then .error .misuse else d.finish
  | a :: rest =>
      match waiting with
      | some s => do
          if isOption a && ! allowsDash s then .error .misuse
          else readFrom (← d.set s a) none rest
      | none =>
          if a = [dash, dash] then do (← rest.foldlM Draft.positional d).finish
          else if isOption a then do
            let (d, waiting) ← option d a
            readFrom d waiting rest
          else do readFrom (← d.positional a) none rest

def read (arguments : List Bytes) : Except Refusal Invocation :=
  readFrom Draft.empty none arguments

end Invocation

end Lintel
