import Confinement.FileSystem.Read

/-!
# Wildcard patterns

A pattern names files below a directory.  In one of its components `?` stands
for any character, `*` for any stretch of characters, and `[...]` or `[!...]`
for one character inside or outside a set; a component `**` stands for any
number of directories.  Names beginning with a dot are matched like others,
but `.` and `..` only by a component that itself begins with a dot.

`Pattern.parse` reads one component and says where it is malformed, in
characters.  `matching` lists the paths a whole pattern names, in the order of
paths.
-/

namespace Confinement.Glob

/-- A member of a character set. -/
inductive Specifier where
  | single (c : Char)
  | range (low high : Char)
  deriving DecidableEq

def Specifier.admits (c : Char) : Specifier → Bool
  | .single d => c = d
  | .range low high => low ≤ c && c ≤ high

/-- A part of a component of a pattern. -/
inductive Token where
  | char (c : Char)
  | anyChar
  | anySequence
  | anyDirectories
  | within (set : List Specifier)
  | except (set : List Specifier)
  deriving DecidableEq

/-- Why a pattern is refused. -/
inductive Problem where
  | wildcards
  | recursiveWildcards
  | invalidRange
  deriving DecidableEq

/-- A refused pattern, with the number of characters before the fault. -/
structure PatternError where
  position : Nat
  problem : Problem
  deriving DecidableEq

/-- A refused pattern in words. -/
def PatternError.message (e : PatternError) : String :=
  "Pattern syntax error near position " ++ toString e.position ++ ": " ++
    match e.problem with
    | .wildcards => "wildcards are either regular \x60*\x60 or recursive \x60**\x60"
    | .recursiveWildcards => "recursive wildcards must form a single path component"
    | .invalidRange => "invalid range pattern"

/-! ## Patterns -/

/-- A component of a pattern. -/
structure Pattern where
  tokens : List Token
  isRecursive : Bool

/-- The members of a character set. -/
def specifiers : List Char → List Specifier
  | a :: '-' :: b :: rest => .range a b :: specifiers rest
  | a :: rest => .single a :: specifiers rest
  | [] => []

/-- A character set after its opening bracket, and what follows it.  The
closing bracket is sought behind at least one member. -/
private def characterSet? (cs : List Char) : Option (Token × List Char) :=
  let (negated, members) :=
    match cs with
    | '!' :: rest => (true, rest)
    | _ => (false, cs)
  match members with
  | [] => none
  | first :: rest =>
    let inner := rest.takeWhile (· ≠ ']')
    match rest.drop inner.length with
    | [] => none
    | _ :: after =>
      let set := specifiers (first :: inner)
      some (if negated then .except set else .within set, after)

/-- The tokens of a pattern from `position` on, where `previous` is the
character before it.  `fuel` bounds the characters ahead. -/
private def tokensFrom : (fuel : Nat) → (position : Nat) → (previous : Option Char) →
    List Char → Except PatternError (List Token)
  | 0, _, _, _ => .ok []
  | _, _, _, [] => .ok []
  | fuel + 1, position, previous, c :: rest =>
    if c = '?' then (.anyChar :: ·) <$> tokensFrom fuel (position + 1) (some c) rest
    else if c = '*' then
      let more := rest.takeWhile (· = '*')
      let after := rest.drop more.length
      let stop := position + 1 + more.length
      if 1 < more.length then .error ⟨position + 2, .wildcards⟩
      else if more.length = 1 then
        if previous.isSome && previous ≠ some '/' then
          .error ⟨position - 1, .recursiveWildcards⟩
        else
          match after with
          | [] => .ok [.anyDirectories]
          | d :: after =>
            if d = '/' then
              (.anyDirectories :: ·) <$> tokensFrom fuel (stop + 1) (some '/') after
            else .error ⟨stop, .recursiveWildcards⟩
      else (.anySequence :: ·) <$> tokensFrom fuel stop (some c) after
    else if c = '[' then
      match characterSet? rest with
      | some (token, after) =>
        (token :: ·) <$>
          tokensFrom fuel (position + 1 + (rest.length - after.length)) (some ']') after
      | none => .error ⟨position, .invalidRange⟩
    else (.char c :: ·) <$> tokensFrom fuel (position + 1) (some c) rest

/-- A pattern, or where and why it is malformed. -/
def Pattern.parse (cs : List Char) : Except PatternError Pattern := do
  let tokens ← tokensFrom (cs.length + 1) 0 none cs
  return ⟨tokens, tokens.contains .anyDirectories⟩

/-- The text of a component without wildcards. -/
def Pattern.literal? (p : Pattern) : Option (List Char) :=
  p.tokens.mapM fun
    | .char c => some c
    | _ => none

/-- Whether some end of a text satisfies a test; the whole text is tried
first. -/
private def someSuffix (test : List Char → Bool) : List Char → Bool
  | [] => test []
  | c :: cs => test (c :: cs) || someSuffix test cs

/-- Whether tokens stand for a whole text. -/
def accepts : List Token → List Char → Bool
  | [], cs => cs.isEmpty
  | .anySequence :: ts, cs | .anyDirectories :: ts, cs => someSuffix (accepts ts) cs
  | .char d :: ts, c :: cs => c = d && accepts ts cs
  | .anyChar :: ts, _ :: cs => accepts ts cs
  | .within set :: ts, c :: cs => set.any (·.admits c) && accepts ts cs
  | .except set :: ts, c :: cs => !set.any (·.admits c) && accepts ts cs
  | _ :: _, [] => false

/-! ## Matching paths -/

/-- The directory from which a relative pattern starts. -/
private def here : Path := Path.ofString "."

/-- An entry as seen from a directory.  Paths below the current directory are
written without it. -/
private def step (directory : Path) (name : Path) : Path :=
  if directory.Same here then name else directory.join name

/-- The name of a path's last component, when it is text. -/
private def lastName? (p : Path) : Option (List Char) := p.fileName?.bind Utf8.decodeChars?

/-- The paths that the components of a pattern name below a directory.  A path
grows with every step and is refused when it is too long, which bounds the
steps. -/
private def below (fs : FileSystem) (directoryOnly : Bool) :
    (fuel : Nat) → List Pattern → Path → List Path
  | 0, _, _ => []
  | _, [], _ => []
  | fuel + 1, pattern :: rest, directory =>
    let onward (p : Path) : List Path :=
      if rest.isEmpty then if directoryOnly && !fs.isDirectory p then [] else [p]
      else below fs directoryOnly fuel rest p
    match pattern.literal? with
    | some cs =>
      let name := Path.ofString (String.ofList cs)
      let p := step directory name
      let isSpecial := cs = ['.'] || cs = ['.', '.']
      if if isSpecial then fs.isDirectory directory else (fs.lstat p).isOk then onward p else []
    | none =>
      match fs.list directory with
      | .error _ => []
      | .ok entries =>
        let names := (entries.map fun e => (⟨e.1⟩ : Path)).mergeSort Path.precedes
        let specials :=
          if pattern.tokens.head? = some (.char '.') then
            ([['.'], ['.', '.']].filter (accepts pattern.tokens)).flatMap fun cs =>
              onward (directory.join (Path.ofString (String.ofList cs)))
          else []
        let visit (name : Path) : List Path :=
          let child := step directory name
          let byName (patterns : List Pattern) : List Path :=
            match patterns, lastName? child with
            | next :: after, some cs =>
              if accepts next.tokens cs then
                if after.isEmpty then
                  if directoryOnly && !fs.isDirectory child then [] else [child]
                else below fs directoryOnly fuel after child
              else []
            | _, _ => []
          if pattern.isRecursive then
            let rest := rest.dropWhile (·.isRecursive)
            if fs.isDirectory child then
              below fs directoryOnly fuel (pattern :: rest) child ++
                if rest.isEmpty then [child] else byName rest
            else byName rest
          else byName (pattern :: rest)
        specials ++ names.flatMap visit

/-- The components of a pattern after its root. -/
private def componentsOf (pattern : List Char) : List (List Char) :=
  let stretches := (if pattern.head? = some '/' then pattern.drop 1 else pattern).splitOn '/'
  if stretches.getLast? = some [] then stretches.dropLast else stretches

/-- The paths a pattern names, in order. -/
def matching (fs : FileSystem) (pattern : String) : Except PatternError (List Path) := do
  let cs := pattern.toList
  let _ ← Pattern.parse cs
  let patterns ← (componentsOf cs).mapM Pattern.parse
  let patterns := if cs = ['/'] || cs = [] then patterns ++ [⟨[], false⟩] else patterns
  let start := if cs.head? = some '/' then Path.root else here
  return Path.sort
    (below fs (cs.getLast? = some '/') (FileSystem.pathLimit + patterns.length) patterns start)

end Confinement.Glob
