import ThreeAddress.Code.Lowering
import ThreeAddress.Code.Verify
import ThreeAddress.Files.Basic
import ThreeAddress.Program.Parser
import ThreeAddress.Token.Lexer

/-!
# Compiling

From a source text to code, with an optional check of the code at the end.
Every error says which stage it comes from. What a compilation writes, it
writes as a whole after everything has succeeded, or not at all.
-/

namespace ThreeAddress

/-- Options of a compilation. -/
structure CompileOptions where
  /-- What the names of temporaries start with; empty for the default. -/
  tempStem : String := ""
  namedLabels : Bool := false
  noDecls : Bool := false
  /-- Checks the code before handing it out. -/
  verify : Bool := false
  deriving DecidableEq, Repr

/-- What the options say on lowering. -/
def CompileOptions.lowering (o : CompileOptions) : LowerOptions :=
  { tempStem := if o.tempStem = "" then ({} : LowerOptions).tempStem else o.tempStem
    namedLabels := o.namedLabels
    noDecls := o.noDecls }

/-- Why a compilation fails. -/
inductive CompileError where
  | read (e : FileError)
  | parse (source : String) (e : SyntaxError)
  | lower (e : LowerError)
  | verify (e : Offence)
  | write (cause : String)
  deriving DecidableEq, Repr

def CompileError.message : CompileError → String
  | .read e => "read file: " ++ e.message
  | .parse source e => "parse " ++ source ++ ": " ++ e.message
  | .lower e => "generate: " ++ e.message
  | .verify e => "verify: " ++ e.message
  | .write cause => "write: " ++ cause

/-- The code of a source text; `source` is the name it goes by in errors. -/
def compile (o : CompileOptions) (source : String) (text : Bytes) : Except CompileError Code := do
  let program ← (parse (tokenize text)).mapError (.parse source)
  let lowered ← (program.lower o.lowering).mapError .lower
  if o.verify then
    lowered.code.verify.mapError .verify
  return lowered.code

/-- The printed code of a source text. -/
def compileText (o : CompileOptions) (source : String) (text : Bytes) :
    Except CompileError String :=
  (compile o source text).map Code.listing

/-- Compiles, then writes the printed code in one go. -/
def compileTo {m : Type → Type} [Monad m] (write : String → m (Except String Unit))
    (o : CompileOptions) (source : String) (text : Bytes) : m (Except CompileError Unit) :=
  match compileText o source text with
  | .error e => pure (.error e)
  | .ok listing => do return (← write listing).mapError .write

/-- The printed code of a file. -/
def compileFile {m : Type → Type} [Monad m] (files : Files m) (o : CompileOptions)
    (path : String) : m (Except CompileError String) := do
  match ← files.read path with
  | .error e => return .error (.read e)
  | .ok text => return compileText o path text

end ThreeAddress
