/-
Module: TokenScan.Toml.Document
Purpose: TOML documents as far as settings use them: a list of statements, each an assignment or the
  header of a table. Values that settings cannot hold are refused with the document.
Main exports: Toml.Value, Toml.Statement, Toml.document?
-/
import TokenScan.Toml.Scalar

namespace TokenScan.Toml

/-- A value that settings can hold. -/
inductive Value where
  | natural (n : Nat)
  | text (s : String)
  /-- An array or an inline table without entries. -/
  | empty
  /-- An inline table whose one entry is empty. -/
  | choice (name : String)
deriving DecidableEq, Repr

/-- A dotted name, as the list of its parts. -/
abbrev Path := List String

/-- One statement of a document. -/
inductive Statement where
  | assign (path : Path) (value : Value)
  /-- What follows belongs to the table of this name. -/
  | header (path : Path)
deriving DecidableEq, Repr

/-- The rest after blanks. -/
def skipBlanks (cs : List Char) : List Char :=
  cs.dropWhile isBlank

/-- The rest after blanks, line breaks and comments; `comment` says that a comment is going on. -/
def skipLines (comment : Bool) : List Char → List Char
  | [] => []
  | c :: cs =>
    if c = '\n' then skipLines false cs
    else if startsBreak (c :: cs) then skipLines false cs
    else if comment && isPlain c then skipLines true cs
    else if !comment && isBlank c then skipLines false cs
    else if !comment && c = '#' then skipLines true cs
    else c :: cs

/-- The rest after the given character. -/
def expect? (c : Char) : List Char → Option (List Char)
  | d :: cs => if d = c then some cs else none
  | [] => none

/-- The rest of the document after the rest of a line, which may hold only blanks and a comment. -/
def endLine? (cs : List Char) : Option (List Char) :=
  let rest := match skipBlanks cs with
    | '#' :: comment => comment.dropWhile isPlain
    | rest => rest
  if rest = [] || startsBreak rest then some (dropBreak rest) else none

/-- A character of a name that is not quoted. -/
def isBare (c : Char) : Bool :=
  c.isAlphanum || c = '_' || c = '-'

/-- One part of a dotted name. -/
def part? (cs : List Char) : Option (String × List Char) :=
  let name := cs.takeWhile isBare
  if name ≠ [] then some (String.ofList name, cs.dropWhile isBare)
  else (quotedLine? cs).map fun (name, rest) => (String.ofList name, rest)

/-- The parts of a dotted name, with blanks around them. The first argument bounds their number. -/
def parts? : Nat → Reader Path
  | 0, _ => none
  | fuel + 1, cs => do
    let (name, cs) ← part? (skipBlanks cs)
    match skipBlanks cs with
    | '.' :: cs =>
      let (names, cs) ← parts? fuel cs
      return (name :: names, cs)
    | cs => return ([name], cs)

/-- A dotted name. -/
def path? : Reader Path := fun cs =>
  parts? cs.length cs

/-- An empty array or inline table. -/
def empty? : List Char → Option (List Char)
  | '[' :: cs => expect? ']' (skipLines false cs)
  | '{' :: cs => expect? '}' (skipLines false cs)
  | _ => none

/-- The rest after the end of an inline table, in front of which a comma may stand. -/
def closeTable? (cs : List Char) : Option (List Char) :=
  match skipLines false cs with
  | ',' :: cs => expect? '}' (skipLines false cs)
  | cs => expect? '}' cs

/-- An inline table with one empty entry. Its name, the equals sign and the value may stand on lines
    of their own, with comments between them; a name is on one line. -/
def choice? (cs : List Char) : Option (Value × List Char) := do
  let (path, cs) ← path? (skipLines false (← expect? '{' cs))
  let [name] := path | none
  let cs ← empty? (skipLines false (← expect? '=' (skipLines false cs)))
  return (.choice name, ← closeTable? cs)

/-- A value. -/
def value? (cs : List Char) : Option (Value × List Char) :=
  match quoted? cs with
  | some (s, rest) => some (.text (String.ofList s), rest)
  | none =>
    match empty? cs with
    | some rest => some (.empty, rest)
    | none =>
      match choice? cs with
      | some read => some read
      | none => do
        let digits := cs.takeWhile fun c => isBare c || c = '+'
        return (.natural (← natural? digits), cs.drop digits.length)

/-- An assignment or a header. -/
def statement? (cs : List Char) : Option (Statement × List Char) :=
  match cs with
  | '[' :: cs => do
    let (path, cs) ← path? cs
    return (.header path, ← expect? ']' cs)
  | cs => do
    let (path, cs) ← path? cs
    let (value, cs) ← value? (skipBlanks (← expect? '=' cs))
    return (.assign path value, cs)

/-- The statements, each on lines of its own. The first argument bounds their number. -/
def statements? : Nat → List Char → Option (List Statement)
  | 0, _ => none
  | fuel + 1, cs =>
    let cs := skipLines false cs
    if cs = [] then some []
    else do
      let (statement, cs) ← statement? cs
      let statements ← statements? fuel (← endLine? cs)
      return statement :: statements

/-- The statements of a document; a byte order mark at its start does not count. -/
def document? (source : String) : Option (List Statement) :=
  let cs := match source.toList with
    | '\ufeff' :: cs => cs
    | cs => cs
  statements? (cs.length + 1) cs

end TokenScan.Toml
