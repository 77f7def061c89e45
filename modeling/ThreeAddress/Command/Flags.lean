/-!
# Flags

The settings of a command line and the flags that change them. A flag is an
argument that starts with a dash; its name ends at the first `=` or blank, and
a value may follow there.
-/

namespace ThreeAddress.Command

/-- All that flags can set. -/
structure Settings where
  verbosity : String := ""
  quiet : Bool := false
  output : String := "-"
  tempStem : String := "t"
  namedLabels : Bool := false
  noDecls : Bool := false
  verify : Bool := false
  deriving DecidableEq, Repr

/-- What a flag does. -/
inductive Slot where
  /-- Sets a text, which it cannot do without. -/
  | text (get : Settings → String) (set : Settings → String → Settings)
  /-- Turns something on or off; on, if no value is given. -/
  | switch (get : Settings → Bool) (set : Settings → Bool → Settings)
  /-- Asks for help. -/
  | help

structure Flag where
  /-- The names a flag goes by. -/
  names : List String
  about : String
  slot : Slot

namespace Flag

/-- How a flag is called in a help text. -/
def title (f : Flag) : String :=
  String.intercalate "," f.names ++
    match f.slot with
    | .help => "=[hidden]"
    | _ => ""

/-- The current value of a flag as a help text shows it. -/
def shown (f : Flag) (s : Settings) : String :=
  match f.slot with
  | .text get _ => get s
  | .switch get _ => if get s then "true" else "false"
  | .help => ""

end Flag

/-! ## Reading flags -/

/-- What is wrong with an argument. -/
inductive UsageError where
  | noSuchFlag (arg : String)
  | valueRequired (arg : String)
  | notABool (arg : String)
  | noArgsExpected (arg : String)
  deriving DecidableEq, Repr

def UsageError.message : UsageError → String
  | .noSuchFlag arg => "parse flag: " ++ arg ++ ": no such flag"
  | .valueRequired arg => "parse flag: " ++ arg ++ ": flag value is required"
  | .notABool arg => "parse flag: " ++ arg ++ ": not a bool value"
  | .noArgsExpected arg => "no args expected, got " ++ arg

/-- Ends the flags: all arguments that follow are plain. -/
def endOfFlags : String := "--"

/-- Whether an argument is a flag. A dash alone is a plain argument. -/
def isFlag (arg : String) : Bool :=
  arg.toList.head? = some '-' && arg ≠ "-" && arg ≠ endOfFlags

/-- Takes off a dash, if there is one. -/
def dropDash : List Char → List Char
  | '-' :: rest => rest
  | cs => cs

/-- The name and the value of a flag. -/
def splitFlag (arg : String) : String × Option String :=
  let body := dropDash (dropDash arg.toList)
  let inName := fun c => c ≠ '=' ∧ c ≠ ' '
  let value :=
    match body.dropWhile inName with
    | [] => none
    | _ :: rest => some (String.ofList rest)
  (String.ofList (body.takeWhile inName), value)

/-- What a word for yes or no says; no word at all is a yes. -/
def switchValue? (word : String) : Option Bool :=
  let word := word.toLower
  if word ∈ ["", "true", "t", "yes", "y", "1"] then some true
  else if word ∈ ["false", "f", "no", "n", "0"] then some false
  else none

/-- The settings after a flag, and the arguments of `rest` it left. -/
structure Taken (rest : List String) where
  settings : Settings
  left : List String
  shorter : left.length ≤ rest.length

/-- Obeys the flag `arg`; `none` if it asks for help. A text flag without a
value of its own takes the next argument, whatever that is. -/
def takeFlag (flags : List Flag) (s : Settings) (arg : String) (rest : List String) :
    Except UsageError (Option (Taken rest)) :=
  let (name, value?) := splitFlag arg
  match flags.find? (·.names.contains name) with
  | none => .error (.noSuchFlag arg)
  | some flag =>
    match flag.slot with
    | .help => .ok none
    | .switch _ set =>
      match switchValue? (value?.getD "") with
      | some on => .ok (some ⟨set s on, rest, Nat.le_refl _⟩)
      | none => .error (.notABool arg)
    | .text _ set =>
      match value?, rest with
      | some value, rest => .ok (some ⟨set s value, rest, Nat.le_refl _⟩)
      | none, value :: rest => .ok (some ⟨set s value, rest, Nat.le_succ _⟩)
      | none, [] => .error (.valueRequired arg)

end ThreeAddress.Command
