import Confinement.Glob
import Confinement.Log
import Confinement.Text.Blank

/-!
# Linker configuration files

A linker configuration file lists search directories, separated by blanks,
colons and commas; what follows `#` is a comment, and what follows `=` in an
entry a hardware class.  A line that begins with `include` stands for the
files its pattern names.

Reading a file gives findings in the order of the text, each include line
replaced by the findings of its files.  A chain of includes has at most eight
steps, so reading ends also when files include each other.
-/

namespace Confinement.LinkerConf

/-- What a file has to say: a directory, or a remark for the log. -/
inductive Finding where
  | directory (path : Path)
  | remark (line : LogLine)

def Finding.directory? : Finding → Option Path
  | .directory path => some path
  | .remark _ => none

def Finding.remark? : Finding → Option LogLine
  | .directory _ => none
  | .remark line => some line

/-- What one line says: nothing, a pattern to include, or a row of entries. -/
inductive Statement where
  | inclusion (pattern : String)
  | entries (directories : List Path)

/-- Whether a character separates two entries of a line. -/
def isSeparator (c : Char) : Bool := Text.isBlank c || c = ':' || c = ','

/-- The directory of an entry, if it is absolute. -/
def directory? (entry : List Char) : Option Path :=
  let name := entry.takeWhile (· ≠ '=')
  if name.head? = some '/' then some ⟨Utf8.encodeChars name⟩ else none

/-- The statement of a line. -/
def Statement.ofLine (line : List Char) : Statement :=
  let line := Text.trimChars (line.takeWhile (· ≠ '#'))
  match "include".toList.isPrefixOf? line with
  | some pattern => .inclusion (String.ofList (Text.trimChars pattern))
  | none => .entries ((line.splitOnP isSeparator).filterMap directory?)

/-- The statements of a text. -/
def statements (text : String) : List Statement :=
  (Text.lineChars text.toList).map Statement.ofLine

/-- The files a pattern names, seen from the directory of the file that
includes it, or a remark on why there are none. -/
def included (fs : FileSystem) (base : Path) (pattern : String) : Except LogLine (List Path) :=
  if pattern.isEmpty then .ok []
  else
    let full := base.join (.ofString pattern)
    match full.text? with
    | none => .error ⟨.debug, "Skipping non UTF-8 include pattern " ++ full.display⟩
    | some text =>
      match Glob.matching fs text with
      | .ok paths => .ok paths
      | .error e => .error ⟨.warn, "Invalid include pattern " ++ text ++ ": " ++ e.message⟩

/-- The findings of a file from which `steps` further includes are allowed. -/
def findingsWithin (fs : FileSystem) : (steps : Nat) → Path → List Finding
  | steps, file =>
    match fs.readText file with
    | .error e => [.remark ⟨.debug, "Skipping " ++ file.display ++ ": " ++ e.message⟩]
    | .ok text =>
      (statements text).flatMap fun
        | .entries directories => directories.map .directory
        | .inclusion pattern =>
          match included fs (file.parent?.getD .root) pattern with
          | .error line => [.remark line]
          | .ok files =>
            match steps with
            | 0 => files.map fun f =>
              .remark ⟨.warn, "ld.so.conf include depth exceeded at " ++ f.display⟩
            | steps + 1 => files.flatMap (findingsWithin fs steps)

/-- The number of steps in a chain of includes. -/
def stepLimit : Nat := 8

/-- The findings of a file. -/
def findings (fs : FileSystem) (file : Path) : List Finding := findingsWithin fs stepLimit file

/-- The directories a file lists, includes expanded. -/
def directories (fs : FileSystem) (file : Path) : List Path :=
  (findings fs file).filterMap Finding.directory?

/-- The remarks made on the way. -/
def remarks (fs : FileSystem) (file : Path) : Log :=
  (findings fs file).filterMap Finding.remark?

end Confinement.LinkerConf
