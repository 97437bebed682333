/-
Module: TokenScan.Toml.Scalar
Purpose: The single values of TOML documents that settings use: natural numbers in four bases, and
  texts in the four ways of quoting.
Main exports: Toml.Reader, Toml.natural?, Toml.quoted?
-/
import TokenScan.Text.Hex

namespace TokenScan.Toml

/-- A reader takes something off the front of the characters, or refuses them. -/
abbrev Reader (α : Type) := List Char → Option (α × List Char)

/-- A space or a tab. -/
def isBlank (c : Char) : Bool :=
  c = ' ' || c = '\t'

/-- A character that may stand for itself in a text or a comment: no control character but the tab.
    -/
def isPlain (c : Char) : Bool :=
  c = '\t' || (0x20 ≤ c.toNat && c.toNat ≠ 0x7f)

/-- The value of a digit below a base. -/
def digit? (base : Nat) (c : Char) : Option Nat :=
  (Text.Hex.digit? c).filter (· < base)

/-- The number of some digits after those that make `n`; single underscores may stand between
    digits. -/
def grouped? (base n : Nat) : List Char → Option Nat
  | [] => none
  | c :: cs => do
    let n := base * n + (← digit? base c)
    match cs with
    | [] => return n
    | '_' :: rest => grouped? base n rest
    | rest => grouped? base n rest

/-- A decimal number, which starts with a zero only when it is zero. -/
def decimal? (cs : List Char) : Option Nat :=
  if cs.head? = some '0' ∧ cs ≠ ['0'] then none else grouped? 10 0 cs

/-- A natural number: decimal with an optional sign, or in base 16, 8 or 2 without one. -/
def natural? : List Char → Option Nat
  | '0' :: 'x' :: cs => grouped? 16 0 cs
  | '0' :: 'o' :: cs => grouped? 8 0 cs
  | '0' :: 'b' :: cs => grouped? 2 0 cs
  | '+' :: cs => decimal? cs
  | '-' :: cs => (decimal? cs).filter (· = 0)
  | cs => decimal? cs

/-- The character of a code point in hexadecimal; surrogates are none. -/
def codePoint? (digits : List Char) : Option Char := do
  let n ← digits.foldlM (fun n c => (digit? 16 c).map (16 * n + ·)) 0
  if n.isValidChar then return Char.ofNat n else none

/-- The character of an escape of one letter. -/
def escape? : Char → Option Char
  | 'b' => some '\x08'
  | 't' => some '\t'
  | 'n' => some '\n'
  | 'f' => some '\x0c'
  | 'r' => some '\r'
  | 'e' => some '\x1b'
  | '"' => some '"'
  | '\\' => some '\\'
  | _ => none

/-- The characters start a line break. -/
def startsBreak : List Char → Bool
  | '\n' :: _ => true
  | '\r' :: '\n' :: _ => true
  | _ => false

/-- A character in front of what a reader has read. -/
def push (c : Char) (read : Option (List Char × List Char)) : Option (List Char × List Char) :=
  read.map fun (cs, rest) => (c :: cs, rest)

/-- The body of a text in double quotes, up to the closing ones, with escapes. With `lines` it may
    hold line breaks and single quotes, and three quotes close it; a backslash at the end of a line
    takes away the white space up to the next character, which `trimming` says is going on. -/
def basicBody? (lines : Bool) : Bool → Reader (List Char)
  | _, [] => none
  | _, '\\' :: 'x' :: a :: b :: cs => do
    push (← codePoint? [a, b]) (basicBody? lines false cs)
  | _, '\\' :: 'u' :: a :: b :: c :: d :: cs => do
    push (← codePoint? [a, b, c, d]) (basicBody? lines false cs)
  | _, '\\' :: 'U' :: a :: b :: c :: d :: e :: f :: g :: h :: cs => do
    push (← codePoint? [a, b, c, d, e, f, g, h]) (basicBody? lines false cs)
  | _, '\\' :: c :: cs =>
    match escape? c with
    | some escaped => push escaped (basicBody? lines false cs)
    | none =>
      if lines && startsBreak ((c :: cs).dropWhile isBlank) then basicBody? lines true cs else none
  | trimming, c :: cs =>
    if trimming && (isBlank c || startsBreak (c :: cs)) then basicBody? lines true cs
    else if c = '"' then
      if !lines then some ([], cs)
      else match cs with
        | '"' :: '"' :: '"' :: _ => push c (basicBody? lines false cs)
        | '"' :: '"' :: rest => some ([], rest)
        | _ => push c (basicBody? lines false cs)
    else if isPlain c || lines && startsBreak (c :: cs) then
      push c (basicBody? lines false cs)
    else none

/-- The body of a text in single quotes, up to the closing ones, without escapes. -/
def literalBody? (lines : Bool) : Reader (List Char)
  | [] => none
  | c :: cs =>
    if c = '\'' then
      if !lines then some ([], cs)
      else match cs with
        | '\'' :: '\'' :: '\'' :: _ => push c (literalBody? lines cs)
        | '\'' :: '\'' :: rest => some ([], rest)
        | _ => push c (literalBody? lines cs)
    else if isPlain c || lines && startsBreak (c :: cs) then push c (literalBody? lines cs)
    else none

/-- The characters after a line break at the front, if there is one. -/
def dropBreak : List Char → List Char
  | '\n' :: cs => cs
  | '\r' :: '\n' :: cs => cs
  | cs => cs

/-- A quoted text on one line. -/
def quotedLine? : Reader (List Char)
  | '"' :: cs => basicBody? false false cs
  | '\'' :: cs => literalBody? false cs
  | _ => none

/-- A quoted text; three quotes open one of several lines, whose first break does not count. -/
def quoted? : Reader (List Char)
  | '"' :: '"' :: '"' :: cs => basicBody? true false (dropBreak cs)
  | '\'' :: '\'' :: '\'' :: cs => literalBody? true (dropBreak cs)
  | cs => quotedLine? cs

end TokenScan.Toml
