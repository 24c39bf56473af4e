/-
Reading TOML documents.

A reader takes a part off the beginning of a text and answers what it means and what is left; `none` means
that the text cannot go on like this. A document is a sequence of lines: headers, which say to which table
the following entries belong, and entries. Arrays and tables in braces nest up to a limit, and the parts of a
key are bounded by the same limit.
-/
import Dataflow.Toml.Scalar

set_option autoImplicit false

namespace Dataflow.Toml

/-- Takes something off the beginning of a text. -/
abbrev Reader (α : Type) := List Char → Option (α × List Char)

/-! ## Blanks and comments -/

/-- Blanks within a line. -/
def isBlank (c : Char) : Bool := c = ' ' || c = '\t'

/-- Characters that may stand in comments and in strings of one line. -/
def isPlain (c : Char) : Bool := c = '\t' || (32 ≤ c.toNat && c.toNat != 127)

/-- What follows the end of a line. -/
def afterNewline? : List Char → Option (List Char)
  | '\n' :: cs => some cs
  | '\r' :: '\n' :: cs => some cs
  | _ => none

/-- A text without the blanks at its beginning. -/
def skipBlanks (cs : List Char) : List Char := cs.dropWhile isBlank

/-- A text without the comment at its beginning. -/
def skipComment : List Char → List Char
  | '#' :: cs => cs.dropWhile isPlain
  | cs => cs

/-- What follows a line of which nothing but a comment is left. -/
def endLine? (cs : List Char) : Option (List Char) :=
  match skipComment (skipBlanks cs) with
  | [] => some []
  | rest => afterNewline? rest

/-- A text without the blanks, comments and line ends at its beginning; at most `lines` lines are skipped. -/
def skipLines : (lines : Nat) → List Char → Option (List Char)
  | 0, cs => some cs
  | lines + 1, cs =>
    match skipBlanks cs with
    | '#' :: rest => do skipLines lines (← afterNewline? (rest.dropWhile isPlain))
    | rest =>
      match afterNewline? rest with
      | some rest => skipLines lines rest
      | none => some rest

/-! ## Strings -/

/-- The character of a code point in hexadecimal. -/
def codePoint? (digits : List Char) : Option Char := do
  let n ← Json.hexNumber? digits
  if n < 0xD800 ∨ (0xE000 ≤ n ∧ n < 0x110000) then some (Char.ofNat n) else none

/-- The character that a letter after a backslash stands for. -/
def escaped? : Char → Option Char
  | 'b' => some (Char.ofNat 8)
  | 't' => some '\t'
  | 'n' => some '\n'
  | 'f' => some (Char.ofNat 12)
  | 'r' => some '\r'
  | '"' => some '"'
  | '\\' => some '\\'
  | _ => none

/-- Puts a character before what has been read. -/
def consChar (c : Char) : Option (List Char × List Char) → Option (List Char × List Char)
  | some (read, rest) => some (c :: read, rest)
  | none => none

/-- A string of one line in double quotes, after the opening quote. -/
def basic : Reader (List Char)
  | [] => none
  | '"' :: cs => some ([], cs)
  | '\\' :: 'u' :: a :: b :: c :: d :: cs => do consChar (← codePoint? [a, b, c, d]) (basic cs)
  | '\\' :: 'U' :: a :: b :: c :: d :: e :: f :: g :: h :: cs => do
    consChar (← codePoint? [a, b, c, d, e, f, g, h]) (basic cs)
  | '\\' :: c :: cs => do consChar (← escaped? c) (basic cs)
  | c :: cs => if isPlain c then consChar c (basic cs) else none

/-- A string of one line in single quotes, after the opening quote. -/
def literal : Reader (List Char)
  | [] => none
  | '\'' :: cs => some ([], cs)
  | c :: cs => if isPlain c then consChar c (literal cs) else none

/-- Whether nothing but blanks comes before the end of the line. -/
def lineEnds (cs : List Char) : Bool := (afterNewline? (skipBlanks cs)).isSome

/-- A string of several lines in double quotes, after the opening quotes. The quotes that close it may come
after up to two that belong to it. After a backslash at the end of a line, blanks and line ends are
skipped. -/
def longBasic : (skipping : Bool) → Reader (List Char)
  | _, [] => none
  | _, '"' :: '"' :: '"' :: '"' :: '"' :: cs => some (['"', '"'], cs)
  | _, '"' :: '"' :: '"' :: '"' :: cs => some (['"'], cs)
  | _, '"' :: '"' :: '"' :: cs => some ([], cs)
  | skipping, '\r' :: '\n' :: cs =>
    if skipping then longBasic true cs else consChar '\n' (longBasic false cs)
  | _, '\\' :: 'u' :: a :: b :: c :: d :: cs => do consChar (← codePoint? [a, b, c, d]) (longBasic false cs)
  | _, '\\' :: 'U' :: a :: b :: c :: d :: e :: f :: g :: h :: cs => do
    consChar (← codePoint? [a, b, c, d, e, f, g, h]) (longBasic false cs)
  | _, '\\' :: c :: cs =>
    if lineEnds (c :: cs) then longBasic true cs
    else do consChar (← escaped? c) (longBasic false cs)
  | skipping, c :: cs =>
    if skipping && (isBlank c || c = '\n') then longBasic true cs
    else if isPlain c || c = '\n' then consChar c (longBasic false cs)
    else none

/-- A string of several lines in single quotes, after the opening quotes. -/
def longLiteral : Reader (List Char)
  | [] => none
  | '\'' :: '\'' :: '\'' :: '\'' :: '\'' :: cs => some (['\'', '\''], cs)
  | '\'' :: '\'' :: '\'' :: '\'' :: cs => some (['\''], cs)
  | '\'' :: '\'' :: '\'' :: cs => some ([], cs)
  | '\r' :: '\n' :: cs => consChar '\n' (longLiteral cs)
  | c :: cs => if isPlain c || c = '\n' then consChar c (longLiteral cs) else none

/-- A text without the line end at its beginning. -/
def dropNewline (cs : List Char) : List Char := (afterNewline? cs).getD cs

/-- A string. -/
def string : Reader String := fun cs => do
  let (read, rest) ← match cs with
    | '"' :: '"' :: '"' :: cs => longBasic false (dropNewline cs)
    | '\'' :: '\'' :: '\'' :: cs => longLiteral (dropNewline cs)
    | '"' :: cs => basic cs
    | '\'' :: cs => literal cs
    | _ => none
  return (String.ofList read, rest)

/-- Arrays and tables in braces nest up to this depth, and keys have up to this many parts. -/
def maxNesting : Nat := 79

/-! ## Keys -/

/-- Characters of keys without quotes. -/
def isBare (c : Char) : Bool := c.isAlphanum || c = '_' || c = '-'

/-- A part of a key. -/
def keyPart : Reader String
  | '"' :: cs => do
    let (read, rest) ← basic cs
    return (String.ofList read, rest)
  | '\'' :: cs => do
    let (read, rest) ← literal cs
    return (String.ofList read, rest)
  | cs =>
    let bare := cs.takeWhile isBare
    if bare.isEmpty then none else some (String.ofList bare, cs.drop bare.length)

/-- A key of at most `parts` parts with points between them: the parts before the last, and the last. -/
def key : (parts : Nat) → Reader (List String × String)
  | 0, _ => none
  | parts + 1, cs => do
    let (part, rest) ← keyPart (skipBlanks cs)
    match skipBlanks rest with
    | '.' :: rest =>
      let ((path, last), rest) ← key parts rest
      return ((part :: path, last), rest)
    | rest => return (([], part), rest)

/-! ## Values -/

mutual

/-- A value; `room` bounds the number of its parts and `nesting` their depth. -/
def value : (room nesting : Nat) → Reader Toml
  | 0, _, _ => none
  | room + 1, nesting, cs =>
    match nesting, cs with
    | 0, '[' :: _ | 0, '\x7b' :: _ => none
    | nesting + 1, '[' :: rest => do
      let (items, rest) ← items room nesting rest
      return (.arr items, rest)
    | nesting + 1, '\x7b' :: rest =>
      match skipBlanks rest with
      | '\x7d' :: rest => some (.table .braces [], rest)
      | rest => do
        let (entries, rest) ← members room nesting [] rest
        return (.table .braces entries, rest)
    | _, '"' :: _ | _, '\'' :: _ => do
      let (s, rest) ← string cs
      return (.str s, rest)
    | _, cs => do
      let n := wordLength cs
      let v ← ofWord? (cs.take n)
      return (v, cs.drop n)

/-- The items of an array up to its closing bracket. -/
def items : (room nesting : Nat) → Reader (List Toml)
  | 0, _, _ => none
  | room + 1, nesting, cs => do
    match ← skipLines cs.length cs with
    | ']' :: rest => return ([], rest)
    | rest =>
      let (v, rest) ← value room nesting rest
      match ← skipLines rest.length rest with
      | ',' :: rest =>
        let (more, rest) ← items room nesting rest
        return (v :: more, rest)
      | ']' :: rest => return ([v], rest)
      | _ => none

/-- The entries of a table in braces up to its closing brace. -/
def members : (room nesting : Nat) → Entries → Reader Entries
  | 0, _, _, _ => none
  | room + 1, nesting, entries, cs => do
    let ((path, last), rest) ← key maxNesting cs
    match rest with
    | '=' :: rest =>
      let (v, rest) ← value room nesting (skipBlanks rest)
      let entries ← entries.putDotted path last v
      match skipBlanks rest with
      | ',' :: rest => members room nesting entries rest
      | '\x7d' :: rest => return (entries, rest)
      | _ => none
    | _ => none

end

/-! ## Documents -/

/-- A document that has been read so far: all entries, and the headers that lead to the current table. -/
structure Partial where
  root : Entries := []
  header : List String := []

/-- A header in double brackets, after them. -/
def elementHeader (p : Partial) (cs : List Char) : Option (Partial × List Char) := do
  let ((path, last), rest) ← key maxNesting cs
  match rest with
  | ']' :: ']' :: rest =>
    let root ← p.root.within (Entries.openElement last) path
    return (⟨root, path ++ [last]⟩, rest)
  | _ => none

/-- A header in single brackets, after the first. -/
def tableHeader (p : Partial) (cs : List Char) : Option (Partial × List Char) := do
  let ((path, last), rest) ← key maxNesting cs
  match rest with
  | ']' :: rest =>
    let root ← p.root.within (Entries.openTable last) path
    return (⟨root, path ++ [last]⟩, rest)
  | _ => none

/-- An entry. -/
def entry (p : Partial) (cs : List Char) : Option (Partial × List Char) := do
  let ((path, last), rest) ← key maxNesting cs
  match rest with
  | '=' :: rest =>
    let (v, rest) ← value (2 * rest.length + 2) maxNesting (skipBlanks rest)
    let root ← p.root.within (Entries.putDotted path last v) p.header
    return ({ p with root }, rest)
  | _ => none

/-- The lines of a document, at most `lines`. -/
def lines : (lines : Nat) → Partial → List Char → Option Entries
  | 0, p, cs => if cs.isEmpty then some p.root else none
  | n + 1, p, cs =>
    match skipBlanks cs with
    | [] => some p.root
    | '[' :: '[' :: rest => do
      let (p, rest) ← elementHeader p rest
      lines n p (← endLine? rest)
    | '[' :: rest => do
      let (p, rest) ← tableHeader p rest
      lines n p (← endLine? rest)
    | rest =>
      match endLine? rest with
      | some rest => lines n p rest
      | none => do
        let (p, rest) ← entry p rest
        lines n p (← endLine? rest)

/-- A text without the mark that may open it. -/
def skipMark : List Char → List Char
  | c :: cs => if c.toNat = 0xFEFF then cs else c :: cs
  | [] => []

/-- Reads a document. -/
def parse? (text : String) : Option Entries :=
  let cs := skipMark text.toList
  lines (cs.length + 1) {} cs

end Dataflow.Toml
