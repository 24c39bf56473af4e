/-
Reading JSON text, one character at a time.

The reader is an automaton: `Reader.step` takes the next character, `Reader.finish` is asked once the text
has ended, and reading a text is a fold over its characters. The first character that no document could
continue with is reported as `malformed`; a text that stops inside a document is `truncated`. Unless the
rules of a reader say otherwise, arrays and objects may nest 127 deep.

Numbers keep what a 64-bit significand can hold. An integer that fits 64 bits stays an integer; otherwise
the digits that fit are scaled by a power of ten in double precision, and a result out of range is
malformed.

The rules also say which members of the outermost object are wanted. The others are skipped: they must be
well-formed, but they may nest as deep as they like, their numbers may be out of range, and their strings may
hold halves of pairs.
-/
import Dataflow.Json.Basic

set_option autoImplicit false

namespace Dataflow.Json

/-! ## Numbers -/

/-- Where in a number the reader is. -/
inductive NumberPhase where
  /-- After the minus sign. -/
  | sign
  /-- After a leading zero. -/
  | zero
  /-- In the integer part; `full` once the significand had no room for a digit. -/
  | whole (full : Bool)
  /-- After the point, before any digit. -/
  | point
  /-- In the fraction; `full` once the significand had no room for a digit. -/
  | fraction (full : Bool)
  /-- After the exponent mark. -/
  | mark
  /-- After the sign of the exponent. -/
  | markSign
  /-- In the digits of the exponent; `huge` once they are beyond any number. -/
  | exponent (huge : Bool)
  deriving Repr, DecidableEq

/-- A number read so far: `significand · 10^scale · 10^(±shift)`. -/
structure PartialNumber where
  phase : NumberPhase
  negative : Bool
  significand : Nat
  scale : Int
  shiftDown : Bool
  shift : Nat
  deriving Repr

namespace PartialNumber

/-- The significand grows up to this bound. -/
def significandBound : Nat := Nat.pow 2 64

/-- The largest power of ten that a double holds. -/
def topPower : Nat := 308

/-- `x · 10^e`, by at most three multiplications or divisions; `none` if that overflows. -/
def scaled : Nat → Float → Int → Option Float
  | 0, x, _ => some x
  | n + 1, x, e =>
    if e.natAbs ≤ topPower then
      let power := Float.ofScientific 1 false e.natAbs
      if 0 ≤ e then
        let y := x * power
        if y.isInf then none else some y
      else some (x / power)
    else if x == 0 then some x
    else if 0 ≤ e then none
    else scaled n (x / Float.ofScientific 1 false topPower) (e + topPower)

/-- The number as a float. -/
def toDouble (n : PartialNumber) (e : Int) : Option Json := do
  let x ← scaled 3 (UInt64.ofNat n.significand).toFloat e
  return .double (if n.negative then -x else x)

/-- The number as it stands; `none` if it is out of range. -/
def value? (n : PartialNumber) : Option Json :=
  match n.phase with
  | .zero | .whole false =>
    if !n.negative then some (.int n.significand)
    else if n.significand = 0 ∨ Nat.pow 2 63 < n.significand then
      some (.double (-(UInt64.ofNat n.significand).toFloat))
    else some (.int (-n.significand))
  | .exponent true =>
    if n.significand ≠ 0 ∧ !n.shiftDown then none else some (.double (if n.negative then -0.0 else 0.0))
  | .exponent false => n.toDouble (n.scale + if n.shiftDown then -(n.shift : Int) else n.shift)
  | _ => n.toDouble n.scale

/-- Whether the number may end here. -/
def complete (n : PartialNumber) : Bool :=
  match n.phase with
  | .zero | .whole _ | .fraction _ | .exponent _ => true
  | _ => false

/-- Appends a digit to the significand if there is room. -/
def push? (n : PartialNumber) (d : Nat) : Option Nat :=
  if 10 * n.significand + d < significandBound then some (10 * n.significand + d) else none

/-- Appends a digit to the exponent. -/
def pushExponent (n : PartialNumber) (d : Nat) : PartialNumber :=
  if 10 * n.shift + d < Nat.pow 2 31 then { n with phase := .exponent false, shift := 10 * n.shift + d }
  else { n with phase := .exponent true }

/-- Appends a digit. -/
def pushDigit (n : PartialNumber) (d : Nat) : Except JsonError PartialNumber :=
  match n.phase with
  | .sign => .ok { n with phase := if d = 0 then .zero else .whole false, significand := d }
  | .zero => .error .malformed
  | .whole true => .ok { n with scale := n.scale + 1 }
  | .whole false =>
    match n.push? d with
    | some m => .ok { n with significand := m }
    | none => .ok { n with phase := .whole true, scale := n.scale + 1 }
  | .fraction true => .ok n
  | .point | .fraction false =>
    match n.push? d with
    | some m => .ok { n with phase := .fraction false, significand := m, scale := n.scale - 1 }
    | none => .ok { n with phase := .fraction true }
  | .exponent true => .ok n
  | .mark | .markSign | .exponent false => .ok (n.pushExponent d)

/-- Takes a character that belongs to the number; `none` if it does not. -/
def step? (n : PartialNumber) (c : Char) : Option (Except JsonError PartialNumber) :=
  if c.isDigit then some (n.pushDigit (c.toNat - '0'.toNat))
  else
    match n.phase, c with
    | .zero, '.' | .whole _, '.' => some (.ok { n with phase := .point })
    | .zero, 'e' | .zero, 'E' | .whole _, 'e' | .whole _, 'E' | .fraction _, 'e' | .fraction _, 'E' =>
      some (.ok { n with phase := .mark })
    | .mark, '+' => some (.ok { n with phase := .markSign })
    | .mark, '-' => some (.ok { n with phase := .markSign, shiftDown := true })
    | _, _ => if n.complete then none else some (.error .malformed)

/-- A number that starts with `c`. -/
def start? (c : Char) : Option PartialNumber :=
  if c = '-' then some ⟨.sign, true, 0, 0, false, 0⟩
  else if c.isDigit then
    let d := c.toNat - '0'.toNat
    some ⟨if d = 0 then .zero else .whole false, false, d, 0, false, 0⟩
  else none

end PartialNumber

/-! ## The automaton -/

/-- An array or object that has been opened, its content in reverse. -/
inductive Opened where
  | arr (items : List Json)
  /-- Waiting for the value of `name`. -/
  | obj (members : List (String × Json)) (name : String)

/-- What a string is read for. -/
inductive StringUse where
  | value
  | name (members : List (String × Json))

/-- What the reader is in the middle of. -/
inductive Mode where
  /-- Before a value. -/
  | value
  /-- Just after an opening bracket. -/
  | firstItem
  /-- Just after an opening brace. -/
  | firstName
  /-- Before the name of a further member. -/
  | name (members : List (String × Json))
  /-- After a member's name. -/
  | colon (members : List (String × Json)) (name : String)
  /-- After a value. -/
  | after (j : Json)
  /-- Inside a word, of which these letters are missing. -/
  | word (missing : List Char) (j : Json)
  | number (n : PartialNumber)
  /-- Inside a string, its characters in reverse. -/
  | string (use : StringUse) (read : List Char)
  /-- After a backslash. -/
  | escape (use : StringUse) (read : List Char)
  /-- Inside a code unit, which takes four bytes, its digits in reverse; `high` is the first half of a
  pair. -/
  | unit (use : StringUse) (read : List Char) (high : Option Nat) (digits : List Char)
  /-- After the first half of a pair; `slash` once the backslash has been read. -/
  | pair (use : StringUse) (read : List Char) (high : Nat) (slash : Bool)

/-- The state of the reader: what it is in the middle of, what is open around that, and whether it skips a
member that is not wanted. -/
structure Reader where
  mode : Mode
  opened : List Opened
  skipping : Bool

/-- Documents usually nest up to this depth. -/
def maxNesting : Nat := 127

/-- What a reader accepts. -/
structure Rules where
  /-- How deep arrays and objects may nest. -/
  nesting : Nat := maxNesting
  /-- Which members of the outermost object are wanted. -/
  wanted : String → Bool := fun _ => true

/-- Blanks between tokens. -/
def isBlank (c : Char) : Bool := c == ' ' || c == '\t' || c == '\n' || c == '\r'

/-- The value of a hexadecimal digit. -/
def hexValue? (c : Char) : Option Nat :=
  if c.isDigit then some (c.toNat - '0'.toNat)
  else if 'a' ≤ c ∧ c ≤ 'f' then some (c.toNat - 'a'.toNat + 10)
  else if 'A' ≤ c ∧ c ≤ 'F' then some (c.toNat - 'A'.toNat + 10)
  else none

/-- The number that hexadecimal digits spell. -/
def hexNumber? (digits : List Char) : Option Nat :=
  digits.foldlM (fun n c => (hexValue? c).map (16 * n + ·)) 0

namespace Reader

/-- Before the document. -/
def start : Reader := ⟨.value, [], false⟩

/-- Opens a container, unless too many are open already. -/
def enter (rules : Rules) (r : Reader) (opened : List Opened) (mode : Mode) : Except JsonError Reader :=
  if r.skipping || r.opened.length < rules.nesting then .ok { r with mode, opened } else .error .malformed

/-- Starts a value. -/
def beginValue (rules : Rules) (r : Reader) (c : Char) : Except JsonError Reader :=
  match c with
  | '"' => .ok { r with mode := .string .value [] }
  | '[' => r.enter rules (.arr [] :: r.opened) .firstItem
  | '\x7b' => r.enter rules r.opened .firstName
  | 't' => .ok { r with mode := .word ['r', 'u', 'e'] (.bool true) }
  | 'f' => .ok { r with mode := .word ['a', 'l', 's', 'e'] (.bool false) }
  | 'n' => .ok { r with mode := .word ['u', 'l', 'l'] .null }
  | _ =>
    match PartialNumber.start? c with
    | some n => .ok { r with mode := .number n }
    | none => .error .malformed

/-- Continues after the value `j`. The end of a member of the outermost object ends the skipping. -/
def afterValue (r : Reader) (j : Json) (c : Char) : Except JsonError Reader :=
  match r.opened, c with
  | .arr items :: rest, ',' => .ok { r with mode := .value, opened := .arr (j :: items) :: rest }
  | .arr items :: rest, ']' => .ok { r with mode := .after (.arr (j :: items).reverse), opened := rest }
  | .obj members name :: rest, ',' =>
    .ok ⟨.name ((name, j) :: members), rest, r.skipping && !rest.isEmpty⟩
  | .obj members name :: rest, '\x7d' =>
    .ok ⟨.after (.obj ((name, j) :: members).reverse), rest, r.skipping && !rest.isEmpty⟩
  | _, _ => .error .malformed

/-- The string that has been read. -/
def endString (r : Reader) (use : StringUse) (read : List Char) : Reader :=
  let s := String.ofList read.reverse
  match use with
  | .value => { r with mode := .after (.str s) }
  | .name members => { r with mode := .colon members s }

/-- A character of a string. -/
def stringChar (r : Reader) (use : StringUse) (read : List Char) (c : Char) : Except JsonError Reader :=
  if c = '"' then .ok (r.endString use read)
  else if c = '\\' then .ok { r with mode := .escape use read }
  else if c.toNat < 32 then .error .malformed
  else .ok { r with mode := .string use (c :: read) }

/-- The character after a backslash. -/
def escapedChar (r : Reader) (use : StringUse) (read : List Char) (c : Char) : Except JsonError Reader :=
  let put := fun (d : Char) => Except.ok { r with mode := .string use (d :: read) }
  match c with
  | '"' => put '"'
  | '\\' => put '\\'
  | '/' => put '/'
  | 'b' => put (Char.ofNat 8)
  | 'f' => put (Char.ofNat 12)
  | 'n' => put '\n'
  | 'r' => put '\r'
  | 't' => put '\t'
  | 'u' => .ok { r with mode := .unit use read none [] }
  | _ => .error .malformed

/-- A complete code unit. The halves of a pair must come in order and together, unless they are skipped. -/
def codeUnit (r : Reader) (use : StringUse) (read : List Char) (high : Option Nat) (n : Nat) :
    Except JsonError Reader :=
  let isHigh := 0xD800 ≤ n ∧ n < 0xDC00
  let isLow := 0xDC00 ≤ n ∧ n < 0xE000
  if r.skipping then .ok { r with mode := .string use read }
  else
    match high with
    | some h =>
      if isLow then
        let c := Char.ofNat (0x10000 + (h - 0xD800) * 0x400 + (n - 0xDC00))
        .ok { r with mode := .string use (c :: read) }
      else .error .malformed
    | none =>
      if isLow then .error .malformed
      else if isHigh then .ok { r with mode := .pair use read n false }
      else .ok { r with mode := .string use (Char.ofNat n :: read) }

/-- The value of a number that has ended. -/
def numberValue (r : Reader) (n : PartialNumber) : Except JsonError Json :=
  if r.skipping then .ok .null
  else
    match n.value? with
    | some j => .ok j
    | none => .error .malformed

/-- Takes the next character. -/
def step (rules : Rules) (r : Reader) (c : Char) : Except JsonError Reader :=
  match r.mode with
  | .value => if isBlank c then .ok r else r.beginValue rules c
  | .firstItem =>
    if isBlank c then .ok r
    else if c = ']' then .ok { r with mode := .after (.arr []), opened := r.opened.drop 1 }
    else r.beginValue rules c
  | .firstName =>
    if isBlank c then .ok r
    else if c = '\x7d' then .ok { r with mode := .after (.obj []) }
    else if c = '"' then .ok { r with mode := .string (.name []) [] }
    else .error .malformed
  | .name members =>
    if isBlank c then .ok r
    else if c = '"' then .ok { r with mode := .string (.name members) [] }
    else .error .malformed
  | .colon members name =>
    if isBlank c then .ok r
    else if c = ':' then
      .ok ⟨.value, .obj members name :: r.opened, r.skipping || (r.opened.isEmpty && !rules.wanted name)⟩
    else .error .malformed
  | .after j => if isBlank c then .ok r else r.afterValue j c
  | .word missing j =>
    match missing with
    | [] => .error .malformed
    | [d] => if c = d then .ok { r with mode := .after j } else .error .malformed
    | d :: more => if c = d then .ok { r with mode := .word more j } else .error .malformed
  | .number n =>
    match n.step? c with
    | some result => result.map fun n => { r with mode := .number n }
    | none => do
      let j ← r.numberValue n
      if isBlank c then return { r with mode := .after j } else r.afterValue j c
  | .string use read => r.stringChar use read c
  | .escape use read => r.escapedChar use read c
  | .unit use read high digits =>
    let digits := c :: digits
    if (String.ofList digits).utf8ByteSize < 4 then .ok { r with mode := .unit use read high digits }
    else
      match hexNumber? digits.reverse with
      | none => .error .malformed
      | some n => r.codeUnit use read high n
  | .pair use read high slash =>
    if !slash then
      if c = '\\' then .ok { r with mode := .pair use read high true } else .error .malformed
    else if c = 'u' then .ok { r with mode := .unit use read (some high) [] }
    else .error .malformed

/-- The document, if the text may end here. A skipped number that is incomplete is malformed. -/
def finish (r : Reader) : Except JsonError Json :=
  match r.opened, r.mode with
  | [], .after j => .ok j
  | [], .number n => if n.complete then r.numberValue n else .error .truncated
  | _, .number n => .error (if r.skipping && !n.complete then .malformed else .truncated)
  | _, _ => .error .truncated

end Reader

/-- Reads a document from its text by the given rules. -/
def parseBy (rules : Rules) (text : String) : Except JsonError Json := do
  (← text.toList.foldlM (Reader.step rules) Reader.start).finish

/-- Reads a document from its text. -/
def parse (text : String) : Except JsonError Json := parseBy {} text

end Dataflow.Json
