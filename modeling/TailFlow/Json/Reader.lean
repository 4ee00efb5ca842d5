import TailFlow.Collection.Sum
import TailFlow.Json.Draft

/-!
# Reading a text

A text is read into its draft, character by character. Every reader gives what it has read and the
text that is left, or no text where the reading cannot go on.
-/

namespace TailFlow.Json

/-- The blanks that may stand between the parts of a document. -/
def isBlank (c : Char) : Bool := c = ' ' || c = '\n' || c = '\t' || c = '\r'

def dropBlanks (text : List Char) : List Char := text.dropWhile isBlank

def hexValue? (c : Char) : Option Nat :=
  if c.isDigit then some (c.toNat - '0'.toNat)
  else if 'a' ≤ c && c ≤ 'f' then some (c.toNat - 'a'.toNat + 10)
  else if 'A' ≤ c && c ≤ 'F' then some (c.toNat - 'A'.toNat + 10)
  else none

/-- The number of bytes in the first four characters of a text. -/
def bytesAhead (text : List Char) : Nat := sumOf ((text.take 4).map Char.utf8Size)

/-- Reads four hexadecimal digits. A text of fewer than four bytes ends early, whatever they are. -/
def readUnit (text : List Char) : Except Flaw (Nat × List Char) :=
  if bytesAhead text < 4 then .error .truncated
  else match text with
    | a :: b :: c :: d :: rest =>
      match hexValue? a, hexValue? b, hexValue? c, hexValue? d with
      | some a, some b, some c, some d => .ok (a * 4096 + b * 256 + c * 16 + d, rest)
      | _, _, _, _ => .error .malformed
    | _ => .error .malformed

/-- Whether a code unit is the first half of a surrogate pair. -/
def isLeading (unit : Nat) : Bool := 0xd800 ≤ unit && unit ≤ 0xdbff

/-- Whether a code unit is the second half of a surrogate pair. -/
def isTrailing (unit : Nat) : Bool := 0xdc00 ≤ unit && unit ≤ 0xdfff

/-- Reads a character written by code units, after its `\u`. No character is found in half of a
surrogate pair. -/
def readCodeUnits (text : List Char) : Except Flaw (Option Char × List Char) := do
  let (unit, rest) ← readUnit text
  if isTrailing unit then return (none, rest)
  else if isLeading unit then
    match rest with
    | [] => .error .truncated
    | ['\\'] => .error .truncated
    | '\\' :: 'u' :: after =>
      let (second, rest') ← readUnit after
      if isTrailing second then
        return (some (Char.ofNat (0x10000 + (unit - 0xd800) * 0x400 + (second - 0xdc00))), rest')
      else return (none, rest)
    | _ => return (none, rest)
  else return (some (Char.ofNat unit), rest)

/-- Reads an escape, after its backslash. -/
def readEscape : List Char → Except Flaw (Option Char × List Char)
  | [] => .error .truncated
  | c :: rest =>
    if c = '"' || c = '\\' || c = '/' then .ok (some c, rest)
    else if c = 'b' then .ok (some (Char.ofNat 8), rest)
    else if c = 'f' then .ok (some (Char.ofNat 12), rest)
    else if c = 'n' then .ok (some '\n', rest)
    else if c = 'r' then .ok (some '\r', rest)
    else if c = 't' then .ok (some '\t', rest)
    else if c = 'u' then readCodeUnits rest
    else .error .malformed

/-- What was read of a string: what stands between its quotes, with a lone backslash for every
escape, what it says, whether it holds half of a surrogate pair, and the flaw it breaks off with or,
if there is none, the text after its closing quote. -/
structure StringReading where
  raw : List Char
  value : List Char
  unpaired : Bool
  ending : Option Flaw
  rest : List Char

/-- Reads a string, after its opening quote. The number bounds how many characters it may have. -/
def readString : Nat → List Char → StringReading
  | 0, text => ⟨[], [], false, some .malformed, text⟩
  | _ + 1, [] => ⟨[], [], false, some .truncated, []⟩
  | fuel + 1, c :: rest =>
    if c = '"' then ⟨[], [], false, none, rest⟩
    else if c = '\\' then
      match readEscape rest with
      | .error flaw => ⟨[c], [], false, some flaw, c :: rest⟩
      | .ok (found, rest) =>
        let reading := readString fuel rest
        match found with
        | some d => { reading with raw := c :: reading.raw, value := d :: reading.value }
        | none => { reading with raw := c :: reading.raw, unpaired := true }
    else if c.toNat < 32 then ⟨[c], [], false, some .malformed, c :: rest⟩
    else
      let reading := readString fuel rest
      { reading with raw := c :: reading.raw, value := c :: reading.value }

/-- The values of the digits at the start of a text, and the text after them. -/
def takeDigits (text : List Char) : List Nat × List Char :=
  ((text.takeWhile Char.isDigit).map fun c => c.toNat - '0'.toNat, text.dropWhile Char.isDigit)

def readDigits (text : List Char) : Except Flaw (List Nat × List Char) :=
  match takeDigits text with
  | ([], []) => .error .truncated
  | ([], _) => .error .malformed
  | found => .ok found

/-- Reads the whole part of a number, which begins with a zero only if it is zero. -/
def readWhole (text : List Char) : Except Flaw (Nat × List Char) := do
  let (digits, rest) ← readDigits text
  match digits with
  | 0 :: _ :: _ => .error .malformed
  | _ => return (Numeral.spell digits, rest)

/-- Reads the digits after the point of a number, if it has a point. -/
def readFraction : List Char → Except Flaw (List Nat × List Char)
  | '.' :: rest => readDigits rest
  | text => .ok ([], text)

def readExponent : List Char → Except Flaw (Option Int × List Char)
  | [] => .ok (none, [])
  | c :: rest =>
    if c = 'e' || c = 'E' then
      match rest with
      | '-' :: digits => (readDigits digits).map fun (found, rest) =>
          (some (-(Numeral.spell found : Int)), rest)
      | '+' :: digits => (readDigits digits).map fun (found, rest) =>
          (some (Numeral.spell found : Int), rest)
      | digits => (readDigits digits).map fun (found, rest) =>
          (some (Numeral.spell found : Int), rest)
    else .ok (none, c :: rest)

def readNumeral (text : List Char) : Except Flaw (Numeral × List Char) := do
  let (negative, text) :=
    match text with
    | '-' :: rest => (true, rest)
    | text => (false, text)
  let (whole, text) ← readWhole text
  let (fraction, text) ← readFraction text
  let (exponent, text) ← readExponent text
  return (⟨negative, whole, fraction, exponent⟩, text)

/-- Reads the letters of a word. -/
def readWord : List Char → List Char → Except Flaw (List Char)
  | [], text => .ok text
  | _ :: _, [] => .error .truncated
  | expected :: letters, c :: rest =>
    if c = expected then readWord letters rest else .error .malformed

def startsNumber (c : Char) : Bool := c = '-' || c.isDigit

/-- Reads a value that is neither an array nor an object. The number bounds how many characters a
string may have. -/
def readScalar (fuel : Nat) (text : List Char) : Draft × Option (List Char) :=
  let word (letters : String) (value : Draft) (rest : List Char) :=
    match readWord letters.toList rest with
    | .ok rest => (value, some rest)
    | .error .truncated => (.cutWord, none)
    | .error .malformed => (.broken .malformed, none)
  match text with
  | [] => (.broken .truncated, none)
  | 'n' :: rest => word "ull" .null rest
  | 't' :: rest => word "rue" (.bool true) rest
  | 'f' :: rest => word "alse" (.bool false) rest
  | '"' :: rest =>
    let reading := readString fuel rest
    let left := if reading.ending.isNone then some reading.rest else none
    if reading.unpaired then (.unpaired reading.ending, left)
    else match reading.ending with
      | none => (.string (String.ofList reading.value), left)
      | some flaw => (.broken flaw, none)
  | c :: rest =>
    if startsNumber c then
      match readNumeral (c :: rest) with
      | .ok (numeral, rest) => (.number numeral, some rest)
      | .error .truncated => (.cutNumber, none)
      | .error .malformed => (.broken .malformed, none)
    else (.broken .malformed, none)

/-- Reads the key of a member. The number bounds how many characters it may have. -/
def readKey (fuel : Nat) (text : List Char) : Key × Option (List Char) :=
  match text with
  | [] => (.absent .truncated, none)
  | '"' :: rest =>
    let reading := readString fuel rest
    let left := if reading.ending.isNone then some reading.rest else none
    if reading.unpaired then (.unpaired reading.raw reading.ending, left)
    else match reading.ending with
      | none => (.text reading.raw (String.ofList reading.value), left)
      | some flaw => (.cut reading.raw flaw, none)
  | _ => (.misplaced, none)

mutual

def readValue : Nat → List Char → Draft × Option (List Char)
  | 0, _ => (.broken .malformed, none)
  | fuel + 1, text =>
    match text with
    | '[' :: rest =>
      match dropBlanks rest with
      | ']' :: rest => (.array [] none, some rest)
      | [] => (.array [] (some .truncated), none)
      | rest =>
        let (items, ending, left) := readItems fuel rest
        (.array items ending, left)
    | '\x7b' :: rest =>
      match dropBlanks rest with
      | '\x7d' :: rest => (.object [] none, some rest)
      | [] => (.object [] (some .truncated), none)
      | rest =>
        let (members, ending, left) := readMembers fuel rest
        (.object members ending, left)
    | text => readScalar fuel text

/-- Reads the elements of an array, from the first that has not been read. -/
def readItems : Nat → List Char → List Draft × Option Flaw × Option (List Char)
  | 0, _ => ([], some .malformed, none)
  | fuel + 1, text =>
    match readValue fuel text with
    | (item, none) => ([item], some .malformed, none)
    | (item, some rest) =>
      match dropBlanks rest with
      | [] => ([item], some .truncated, none)
      | ']' :: rest => ([item], none, some rest)
      | ',' :: rest =>
        match dropBlanks rest with
        | [] => ([item, .broken .truncated], some .truncated, none)
        | ']' :: _ => ([item, .broken .malformed], some .malformed, none)
        | rest =>
          let (items, ending, left) := readItems fuel rest
          (item :: items, ending, left)
      | _ => ([item], some .malformed, none)

/-- Reads the members of an object, from the first that has not been read. -/
def readMembers : Nat → List Char → List (Key × Draft) × Option Flaw × Option (List Char)
  | 0, _ => ([], some .malformed, none)
  | fuel + 1, text =>
    match readKey fuel text with
    | (key, none) => ([(key, .broken .malformed)], some .malformed, none)
    | (key, some rest) =>
      match dropBlanks rest with
      | [] => ([(key, .broken .truncated)], some .truncated, none)
      | ':' :: rest =>
        match readValue fuel (dropBlanks rest) with
        | (value, none) => ([(key, value)], some .malformed, none)
        | (value, some rest) =>
          match dropBlanks rest with
          | [] => ([(key, value)], some .truncated, none)
          | '\x7d' :: rest => ([(key, value)], none, some rest)
          | ',' :: rest =>
            match dropBlanks rest with
            | [] =>
              ([(key, value), (.absent .truncated, .broken .truncated)], some .truncated, none)
            | '\x7d' :: _ =>
              ([(key, value), (.absent .malformed, .broken .malformed)], some .malformed, none)
            | rest =>
              let (members, ending, left) := readMembers fuel rest
              ((key, value) :: members, ending, left)
          | _ => ([(key, value)], some .malformed, none)
      | _ => ([(key, .broken .malformed)], some .malformed, none)

end

/-- Reads a whole text: its draft, and whether nothing but blanks follows it. -/
def Draft.ofText (text : String) : Draft × Bool :=
  let characters := dropBlanks text.toList
  let (draft, left) := readValue (2 * characters.length + 2) characters
  (draft, match left with
    | some rest => (dropBlanks rest).isEmpty
    | none => false)

end TailFlow.Json
