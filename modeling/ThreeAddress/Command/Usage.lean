import ThreeAddress.Command.Flags

/-!
# Commands and their arguments

The tool, its subcommands, their flags and their help texts; and how a list of
arguments is read into a `Request`.
-/

namespace ThreeAddress.Command

/-- What the tool can do. -/
inductive Verb where
  | tokens | format | compile
  deriving DecidableEq, Repr

/-- A subcommand. -/
structure Sub where
  /-- The names a subcommand goes by. -/
  names : List String
  about : String
  flags : List Flag
  verb : Verb

def Sub.title (c : Sub) : String := String.intercalate "," c.names

/-! ## The tool -/

def tool : String := "tac"

def about : String := "tac translates programs into three-address code"

/-- Flags that every subcommand understands. -/
def toolFlags : List Flag :=
  [{ names := ["verbosity", "v"], about := "tlog verbosity topics"
     slot := .text (·.verbosity) fun s v => { s with verbosity := v } },
   { names := ["quiet", "q"], about := "no logs"
     slot := .switch (·.quiet) fun s v => { s with quiet := v } },
   { names := ["help", "h"], about := "print command help end exit", slot := .help }]

def compileFlags : List Flag :=
  [{ names := ["output", "o"], about := "output file"
     slot := .text (·.output) fun s v => { s with output := v } },
   { names := ["temp-prefix"], about := "temporary name prefix"
     slot := .text (·.tempStem) fun s v => { s with tempStem := v } },
   { names := ["named-labels"]
     about := "name labels WHILE<N>, ELSE<N>, END<N> instead of L<N>"
     slot := .switch (·.namedLabels) fun s v => { s with namedLabels := v } },
   { names := ["no-decls"], about := "omit declaration lines"
     slot := .switch (·.noDecls) fun s v => { s with noDecls := v } },
   { names := ["verify"], about := "check the generated code"
     slot := .switch (·.verify) fun s v => { s with verify := v } }]

def subs : List Sub :=
  [{ names := ["tokens"], about := "print tokens", flags := [], verb := .tokens },
   { names := ["parse", "fmt"], about := "parse and print the program in canonical form"
     flags := [], verb := .format },
   { names := ["compile"], about := "compile to three-address code"
     flags := compileFlags, verb := .compile }]

/-! ## Help -/

/-- A line of a help text: what it is about, in a column of its own, and what
there is to say. -/
def helpLine (title text : String) : String :=
  let pad := String.ofList (List.replicate (20 - title.length) ' ')
  "    " ++ title ++ pad ++ " - " ++ text ++ "\n"

def flagLine (s : Settings) (f : Flag) : String :=
  let value := f.shown s
  helpLine f.title (f.about ++ if value = "" then "" else " (default " ++ value ++ ")")

/-- Flags under a heading, or nothing if there are none. -/
def flagHelp (heading : String) (s : Settings) (flags : List Flag) : String :=
  if flags.isEmpty then ""
  else "\n" ++ heading ++ "\n" ++ String.join (flags.map (flagLine s))

/-- The help text of the tool. Flags show the values they have so far. -/
def toolHelp (s : Settings) : String :=
  tool ++ " [flags] - " ++ about ++ "\n" ++
    "\nSubcommands\n" ++ String.join (subs.map fun c => helpLine c.title c.about) ++
    flagHelp "Flags" s toolFlags

/-- The help text of a subcommand. -/
def Sub.help (c : Sub) (s : Settings) : String :=
  c.title ++ " [flags_and_args] - " ++ c.about ++ "\n" ++
    flagHelp "Flags" s c.flags ++
    flagHelp ("Flags of parent command " ++ tool) s toolFlags

/-! ## Requests -/

/-- What a list of arguments asks for. -/
inductive Request where
  | help (text : String)
  | run (verb : Verb) (s : Settings) (files : List String)
  deriving DecidableEq, Repr

/-- Reads the arguments of a subcommand. -/
def readSub (c : Sub) (s : Settings) (files args : List String) : Except UsageError Request :=
  match args with
  | [] => .ok (.run c.verb s files)
  | arg :: rest =>
    if isFlag arg then do
      match ← takeFlag (c.flags ++ toolFlags) s arg rest with
      | none => return .help (c.help s)
      | some taken => readSub c taken.settings files taken.left
    else if arg = endOfFlags then .ok (.run c.verb s (files ++ rest))
    else readSub c s (files ++ [arg]) rest
termination_by args.length
decreasing_by
  · exact Nat.lt_succ_of_le taken.shorter
  · exact Nat.lt_succ_self _

/-- What is wrong with a list of arguments; errors of a subcommand go under
the name it was called by. -/
structure ArgsError where
  alias? : Option String
  error : UsageError
  deriving DecidableEq, Repr

/-- A request and the name its subcommand was called by, if there is one. -/
structure Call where
  alias? : Option String
  request : Request
  deriving DecidableEq, Repr

/-- Reads the arguments of the tool: its own flags, then a subcommand, which
gets the rest. Without a subcommand it is help that is asked for. -/
def readTool (s : Settings) (args : List String) : Except ArgsError Call :=
  match args with
  | [] => .ok ⟨none, .help (toolHelp s)⟩
  | arg :: rest =>
    if isFlag arg then do
      match ← (takeFlag toolFlags s arg rest).mapError (⟨none, ·⟩) with
      | none => return ⟨none, .help (toolHelp s)⟩
      | some taken => readTool taken.settings taken.left
    else
      match subs.find? (·.names.contains arg) with
      | none => .error ⟨none, .noArgsExpected arg⟩
      | some c =>
        match readSub c s [] rest with
        | .ok r => .ok ⟨some arg, r⟩
        | .error e => .error ⟨some arg, e⟩
termination_by args.length
decreasing_by exact Nat.lt_succ_of_le taken.shorter

/-- What a whole command line asks for. -/
def readArgs (args : List String) : Except ArgsError Call := readTool {} args

end ThreeAddress.Command
