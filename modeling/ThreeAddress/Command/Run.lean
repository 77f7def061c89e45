import ThreeAddress.Command.Usage
import ThreeAddress.Compile.Basic
import ThreeAddress.Program.Printer

/-!
# Running commands

`run` reads a command line and does what it asks for on a file system. The
outcome is a `Report`: what goes to standard output, and the error, if any.

Printing programs and compiling are all or nothing: output appears only if
every file named was read and worked. Tokens are printed file by file, and
what was printed before an error stays.
-/

namespace ThreeAddress.Command

variable {m : Type → Type} [Monad m]

/-- Why a command fails. -/
inductive Failure where
  | read (path : String) (e : FileError)
  | parse (path : String) (e : SyntaxError)
  | format (path : String) (e : FormatError)
  | compile (path : String) (e : CompileError)
  | write (e : FileError)
  deriving DecidableEq, Repr

def Failure.message : Failure → String
  | .read path e => "read " ++ path ++ ": " ++ e.message
  | .parse path e => "parse " ++ path ++ ": " ++ e.message
  | .format path e => "format " ++ path ++ ": " ++ e.message
  | .compile path e => "compile " ++ path ++ ": " ++ e.message
  | .write e => e.message

/-- The outcome of a command. -/
structure Outcome where
  stdout : String := ""
  failure : Option Failure := none
  deriving DecidableEq, Repr

/-! ## Tokens -/

def tokenLine (t : Token) : String :=
  toString t.loc.line ++ ":" ++ toString t.loc.col ++ "\t" ++ t.describe ++ "\n"

def tokenLines (text : Bytes) : String := String.join ((tokenize text).map tokenLine)

/-- Prints the tokens of each file up to the first that cannot be read. -/
def printTokens (files : Files m) : List String → m Outcome
  | [] => pure {}
  | path :: paths => do
    match ← files.read path with
    | .error e => return { failure := some (.read path e) }
    | .ok text =>
      let more ← printTokens files paths
      return { more with stdout := tokenLines text ++ more.stdout }

/-! ## All or nothing -/

/-- Works on each path in order, handing on the text so far from one to the next,
up to the first failure. -/
def workThrough (work : String → String → m (Except Failure String)) :
    List String → String → m (Except Failure String)
  | [], text => pure (.ok text)
  | path :: paths, text => do
    match ← work path text with
    | .error e => return .error e
    | .ok text => workThrough work paths text

/-- Adds the canonical text of one file. -/
def formatFile (files : Files m) (path : String) (text : String) : m (Except Failure String) := do
  match ← files.read path with
  | .error e => return .error (.read path e)
  | .ok source =>
    match parse (tokenize source) with
    | .error e => return .error (.parse path e)
    | .ok p => return (p.formatOnto text).mapError (.format path)

/-- The options of a compilation that the settings ask for. -/
def Settings.compileOptions (s : Settings) : CompileOptions :=
  { tempStem := s.tempStem, namedLabels := s.namedLabels, noDecls := s.noDecls, verify := s.verify }

/-- Prints the canonical text of all files. -/
def printPrograms (files : Files m) (paths : List String) : m Outcome := do
  match ← workThrough (formatFile files) paths "" with
  | .ok text => return { stdout := text }
  | .error e => return { failure := some e }

/-- Adds the printed code of one file. -/
def compileOnto (files : Files m) (o : CompileOptions) (path : String) (text : String) :
    m (Except Failure String) := do
  match ← compileFile files o path with
  | .error e => return .error (.compile path e)
  | .ok listing => return .ok (text ++ listing)

/-- Whether output goes to standard output rather than to a file. -/
def Settings.toStdout (s : Settings) : Bool := s.output = "-" || s.output = ""

/-- Compiles all files, one after the other, into one output. -/
def compileFiles (files : Files m) (s : Settings) (paths : List String) : m Outcome := do
  match ← workThrough (compileOnto files s.compileOptions) paths "" with
  | .error e => return { failure := some e }
  | .ok listing =>
    if s.toStdout then return { stdout := listing }
    else
      match ← files.write s.output listing with
      | .ok () => return {}
      | .error e => return { failure := some (.write e) }

/-- Does what a verb asks for. -/
def perform (files : Files m) (verb : Verb) (s : Settings) (paths : List String) : m Outcome :=
  match verb with
  | .tokens => printTokens files paths
  | .format => printPrograms files paths
  | .compile => compileFiles files s paths

/-! ## Reports -/

/-- What the tool prints, and the error it ends with, if any. -/
structure Report where
  stdout : String := ""
  error : Option String := none
  deriving DecidableEq, Repr

/-- The exit code: 1 after an error. -/
def Report.exitCode (r : Report) : UInt32 := if r.error.isSome then 1 else 0

/-- What goes to standard error. -/
def Report.stderr (r : Report) : String :=
  match r.error with
  | some e => "error: " ++ e ++ "\n"
  | none => ""

/-- An error message under the name a subcommand was called by. -/
def under (alias? : Option String) (message : String) : String :=
  match alias? with
  | some name => name ++ ": " ++ message
  | none => message

/-- Runs a command line. -/
def run (files : Files m) (args : List String) : m Report :=
  match readArgs args with
  | .error e => pure { error := some (under e.alias? e.error.message) }
  | .ok call =>
    match call.request with
    | .help text => pure { stdout := text }
    | .run verb s paths => do
      let outcome ← perform files verb s paths
      return ⟨outcome.stdout, outcome.failure.map fun f => under call.alias? f.message⟩

end ThreeAddress.Command
