/-!
Glob patterns for paths, and how they are read.

A path is matched as a whole.  `*` and `?` also match slashes; two stars match
any number of directories, but only where they stand alone between slashes.
-/

namespace Outline

namespace Glob

inductive Token
  | literal (c : Char)
  | any
  | star
  /-- Two stars and a slash at the start: no directory, or some. -/
  | leadingDirectories
  /-- A slash and two stars at the end: everything below. -/
  | everythingBelow
  /-- Two stars between slashes: one slash, or two with anything between. -/
  | innerDirectories
  | class (negated : Bool) (ranges : List (Char × Char))
  | alternates (branches : List (List Token))
  deriving Repr, Inhabited

/-- Why a pattern cannot be read. -/
inductive Error
  | unclosedClass
  | invalidRange (low high : Char)
  | unclosedAlternates
  | unopenedAlternates
  | danglingEscape
  deriving DecidableEq, Repr

/-- The reason alone. -/
def Error.reason : Error → String
  | .unclosedClass => "unclosed character class; missing ']'"
  | .invalidRange low high => "invalid range; '" ++ low.toString ++ "' > '" ++ high.toString ++ "'"
  | .unclosedAlternates =>
    "unclosed alternate group; missing '\x7d' (maybe escape '\x7b' with '[\x7b]'?)"
  | .unopenedAlternates =>
    "unopened alternate group; missing '\x7b' (maybe escape '\x7d' with '[\x7d]'?)"
  | .danglingEscape => "dangling '\\'"

/-- The reason with the pattern it is about. -/
def Error.message (error : Error) (pattern : String) : String :=
  "error parsing glob '" ++ pattern ++ "': " ++ error.reason

/-! ## Classes -/

/-- Extend the last range of a class, which is listed first. -/
def extendRange (c : Char) : List (Char × Char) → Except Error (List (Char × Char))
  | [] => .ok [(c, c)]
  | (low, _) :: rest => if c < low then .error (.invalidRange low c) else .ok ((low, c) :: rest)

/-- Read the rest of a class; `ranges` are those read so far, the last one
first, and `inRange` tells that a hyphen has come after the last one. -/
def readClassFrom (first inRange : Bool) (ranges : List (Char × Char)) :
    List Char → Except Error (List (Char × Char) × List Char)
  | [] => .error .unclosedClass
  | c :: rest =>
    if c = ']' ∧ first = false then
      .ok ((if inRange then ('-', '-') :: ranges else ranges).reverse, rest)
    else if c = '-' ∧ first = false ∧ inRange = false then readClassFrom false true ranges rest
    else if inRange ∧ c ≠ ']' then do
      let ranges ← extendRange c ranges
      readClassFrom false false ranges rest
    else readClassFrom false false ((c, c) :: ranges) rest

/-- Read a class after its opening bracket. -/
def readClass (text : List Char) : Except Error (Token × List Char) :=
  let (negated, text) :=
    match text with
    | '!' :: rest | '^' :: rest => (true, rest)
    | _ => (false, text)
  (readClassFrom true false [] text).map fun (ranges, rest) => (.class negated ranges, rest)

/-! ## Patterns -/

/-- A group that is open: the tokens before it and its finished branches, each
list in reverse. -/
structure Group where
  before : List Token
  branches : List (List Token)
  deriving Repr

/-- What has been read: the open groups, the innermost first, and the tokens of
the branch that is being read, in reverse. -/
structure State where
  groups : List Group
  tokens : List Token
  deriving Repr

namespace State

def start : State := ⟨[], []⟩

def push (state : State) (token : Token) : State := { state with tokens := token :: state.tokens }

def openGroup (state : State) : State := ⟨⟨state.tokens, []⟩ :: state.groups, []⟩

/-- Start the next branch; outside of groups a comma stands for itself. -/
def comma (state : State) : State :=
  match state.groups with
  | [] => state.push (.literal ',')
  | group :: outer =>
    ⟨{ group with branches := state.tokens.reverse :: group.branches } :: outer, []⟩

def closeGroup (state : State) : Except Error State :=
  match state.groups with
  | [] => .error .unopenedAlternates
  | group :: outer =>
    .ok ⟨outer, .alternates (state.tokens.reverse :: group.branches).reverse :: group.before⟩

def finish (state : State) : Except Error (List Token) :=
  if state.groups.isEmpty then .ok state.tokens.reverse else .error .unclosedAlternates

end State

/-- Whether two stars after a character may stand for directories: at the start
of the pattern or of a component, or of a branch. -/
def startsComponent (state : State) (previous : Option Char) : Bool :=
  previous == some '/'
    || (!state.groups.isEmpty && (previous == some ',' || previous == some '\x7b'))

/-- The tokens after two stars that end the pattern, a branch or a component,
in place of the token before them. -/
def afterDirectories (atEnd : Bool) : List Token → List Token
  | .leadingDirectories :: rest => .leadingDirectories :: rest
  | .everythingBelow :: rest => .everythingBelow :: rest
  | tokens => (if atEnd then .everythingBelow else .innerDirectories) :: tokens.tail

/-- Read two stars; the text after them is given and answered. -/
def readStars (state : State) (previous : Option Char) (rest : List Char) : State × List Char :=
  let plain := ((state.push .star).push .star, rest)
  if state.tokens.isEmpty then
    match rest with
    | [] => (state.push .leadingDirectories, [])
    | '/' :: after => (state.push .leadingDirectories, after)
    | _ => plain
  else if startsComponent state previous then
    match rest with
    | [] => ({ state with tokens := afterDirectories true state.tokens }, [])
    | '/' :: after => ({ state with tokens := afterDirectories false state.tokens }, after)
    | c :: _ =>
      if (c = ',' ∨ c = '\x7d') ∧ state.groups.isEmpty = false then
        ({ state with tokens := afterDirectories true state.tokens }, rest)
      else plain
  else plain

/-- Read the rest of a pattern; `previous` is the character before it.  Every
round reads at least one character. -/
def readFrom : Nat → State → Option Char → List Char → Except Error (List Token)
  | 0, state, _, _ => state.finish
  | fuel + 1, state, previous, text =>
    match text with
    | [] => state.finish
    | '?' :: rest => readFrom fuel (state.push .any) (some '?') rest
    | '*' :: '*' :: rest =>
      let (state, after) := readStars state previous rest
      readFrom fuel state (some (if after.length < rest.length then '/' else '*')) after
    | '*' :: rest => readFrom fuel (state.push .star) (some '*') rest
    | '[' :: rest => do
      let (token, rest) ← readClass rest
      readFrom fuel (state.push token) (some ']') rest
    | '\x7b' :: rest => readFrom fuel state.openGroup (some '\x7b') rest
    | '\x7d' :: rest => do
      let state ← state.closeGroup
      readFrom fuel state (some '\x7d') rest
    | ',' :: rest => readFrom fuel state.comma (some ',') rest
    | '\\' :: [] => .error .danglingEscape
    | '\\' :: c :: rest => readFrom fuel (state.push (.literal c)) (some c) rest
    | c :: rest => readFrom fuel (state.push (.literal c)) (some c) rest

/-- The tokens of a pattern. -/
def parse (pattern : List Char) : Except Error (List Token) :=
  readFrom (pattern.length + 1) .start none pattern

end Glob
end Outline
