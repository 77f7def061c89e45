import ThreeAddress.Compile.Basic

/-!
# The journal of a compilation

What a compilation reports while it runs: spans for the compilation and its
stages, which start and finish, and messages in between. Some messages appear
only if their topic is asked for (`Verbosity`). The journal is a function of
the input; nothing in it depends on the clock.
-/

namespace ThreeAddress

/-! ## Topics -/

/-- A request for topics: a comma-separated list, each part of which turns
topics joined by `+` on, or off if it starts with `!`. -/
structure Verbosity where
  request : String := ""
  deriving DecidableEq, Repr

namespace Verbosity

/-- Stands for every topic. -/
def everything : String := "*"

/-- What a part says of a topic, if anything. Only what follows a first `=`
names topics. -/
def verdict (topic : String) (part : List Char) : Option Bool :=
  let (on, names) :=
    match part with
    | '!' :: rest => (false, rest)
    | _ => (true, part)
  let names := if '=' ∈ names then (names.dropWhile (· ≠ '=')).drop 1 else names
  if ((String.ofList names).splitOn "+").any (fun n => n = everything ∨ n = topic) then some on
  else none

/-- Whether messages on a topic are wanted. The last part that speaks of the
topic decides; a request that starts by turning topics off wants all others. -/
def shows (v : Verbosity) (topic : String) : Bool :=
  if v.request = "" then false
  else if v.request = everything then true
  else
    let parts := (v.request.splitOn ",").filter (· ≠ "")
    let verdicts := parts.filterMap fun p => verdict topic p.toList
    verdicts.getLast?.getD (v.request.toList.head? = some '!')

end Verbosity

/-! ## Events -/

/-- Values attached to an event. -/
inductive Value where
  | int (n : Int)
  | text (s : String)
  | token (t : Token)
  | lines (ls : List String)
  | nil
  deriving DecidableEq, Repr

abbrev Fields := List (String × Value)

/-- Entries of the journal. Spans are numbered in the order they start. -/
inductive Event where
  | start (span : Nat) (parent : Option Nat) (name : String) (fields : Fields)
  | message (span : Nat) (text : String) (fields : Fields)
  | finish (span : Nat) (fields : Fields)
  deriving DecidableEq, Repr

namespace Journal

def compileSpan : Nat := 0
def parseSpan : Nat := 1
def lowerSpan : Nat := 2

def count {α : Type} (xs : List α) : Value := .int xs.length

/-- The end of a span, with the error it ends in, if any. -/
def finish (span : Nat) (error : Option String) : Event :=
  .finish span [("err", error.elim .nil .text)]

/-- Reports on the text itself: what was skipped, and the tokens. -/
def lexing (v : Verbosity) (s : Scans) : List Event :=
  let skipped := if v.shows "lex" then s.skipped else []
  let tokens := if v.shows "dump_tokens" then s.tokens else []
  let summary :=
    match s.skipped with
    | [] => []
    | a :: _ => [Event.message compileSpan "unexpected characters skipped"
        [("count", count s.skipped), ("first_line", .int a.loc.line), ("first_col", .int a.loc.col)]]
  skipped.map (fun a => .message compileSpan "unexpected char skipped"
      [("char", .text (String.singleton a.char)), ("line", .int a.loc.line), ("col", .int a.loc.col)]) ++
    tokens.zipIdx.map (fun (t, i) => .message compileSpan "token"
      [("i", .int i), ("tok", .token t)]) ++
    summary

/-- Reports on parsing. -/
def parsing (v : Verbosity) (tokens : List Token) : List Event :=
  let start := Event.start parseSpan (some compileSpan) "parse" [("tokens", count tokens)]
  match parse tokens with
  | .ok p =>
    [start,
     .message parseSpan "parsed" [("decls", count p.decls), ("stmts", count p.stmts)],
     finish parseSpan none]
  | .error e =>
    let detail :=
      if v.shows "parse" then
        [Event.message parseSpan "syntax error"
          [("msg", .text e.reason.message), ("tok", .token e.token)]]
      else []
    start :: detail ++ [finish parseSpan (some e.message)]

/-- Reports on lowering. -/
def lowering (v : Verbosity) (o : LowerOptions) (p : Program) : List Event :=
  let start := Event.start lowerSpan (some compileSpan) "generate"
    [("decls", count p.decls), ("stmts", count p.stmts)]
  match p.lower o with
  | .ok r =>
    let dump :=
      if v.shows "dump_code" then
        [Event.message lowerSpan "code" [("code", .lines r.code.lines)]]
      else []
    start :: dump ++
      [.message lowerSpan "generated"
        [("instrs", count r.code), ("temps", .int r.temps), ("labels", .int r.labels)],
       finish lowerSpan none]
  | .error e => [start, finish lowerSpan (some e.message)]

/-- The journal of a compilation. -/
def compiling (v : Verbosity) (o : CompileOptions) (source : String) (text : Bytes) :
    List Event :=
  let s := (Cursor.ofBytes text).all
  let error :=
    match compile o source text with
    | .ok _ => none
    | .error e => some e.message
  [.start compileSpan none "compile" [("name", .text source), ("size", count text)]] ++
    lexing v s ++
    parsing v s.tokens ++
    (match parse s.tokens with
      | .ok p => lowering v o.lowering p
      | .error _ => []) ++
    [finish compileSpan error]

end Journal

end ThreeAddress
