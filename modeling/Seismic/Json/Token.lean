import Seismic.Json.Value

/-!
# JSON tokens

The text of a JSON value is a sequence of tokens with white space between them.  Reading
takes the longest number or word at each place; writing puts no white space at all.
-/

namespace Seismic
namespace Json

inductive Token where
  | openBracket | closeBracket | openBrace | closeBrace | comma | colon
  | null | yes | no
  | number (n : Numeral)
  | text (s : Option String)
  deriving DecidableEq, Repr

namespace Token

/-! ## Texts -/

/-- A character of a text, or the 16-bit unit of an escape. -/
inductive Piece where
  | char (c : Char)
  | unit (n : Nat)

def hexDigit? (c : Char) : Option Nat :=
  if c.isDigit then some (c.toNat - '0'.toNat)
  else if 'a' ≤ c ∧ c ≤ 'f' then some (c.toNat - 'a'.toNat + 10)
  else if 'A' ≤ c ∧ c ≤ 'F' then some (c.toNat - 'A'.toNat + 10)
  else none

def hexUnit? (a b c d : Char) : Option Nat := do
  let a ← hexDigit? a
  let b ← hexDigit? b
  let c ← hexDigit? c
  let d ← hexDigit? d
  return ((a * 16 + b) * 16 + c) * 16 + d

def escaped? : Char → Option Char
  | '"' => some '"'
  | '\\' => some '\\'
  | '/' => some '/'
  | 'b' => some '\x08'
  | 'f' => some '\x0c'
  | 'n' => some '\n'
  | 'r' => some '\r'
  | 't' => some '\t'
  | _ => none

/-- The pieces up to the closing quote, and what follows it.  Control characters have to be
escaped. -/
def pieces? : List Char → Option (List Piece × List Char)
  | '"' :: rest => some ([], rest)
  | '\\' :: 'u' :: a :: b :: c :: d :: rest =>
    match hexUnit? a b c d, pieces? rest with
    | some n, some (pieces, rest) => some (.unit n :: pieces, rest)
    | _, _ => none
  | '\\' :: c :: rest =>
    match escaped? c, pieces? rest with
    | some c, some (pieces, rest) => some (.char c :: pieces, rest)
    | _, _ => none
  | c :: rest =>
    if c.toNat < 0x20 ∨ c = '\\' then none
    else (pieces? rest).map fun (pieces, rest) => (.char c :: pieces, rest)
  | [] => none

/-- The characters of a text.  A unit of a surrogate pair has to be followed by the other
half. -/
def assemble? : List Piece → Option (List Char)
  | [] => some []
  | .char c :: rest => (c :: ·) <$> assemble? rest
  | .unit high :: .unit low :: rest =>
    if 0xD800 ≤ high ∧ high < 0xDC00 then
      if 0xDC00 ≤ low ∧ low < 0xE000 then
        (Char.ofNat (0x10000 + (high - 0xD800) * 0x400 + (low - 0xDC00)) :: ·) <$>
          assemble? rest
      else none
    else if 0xDC00 ≤ high ∧ high < 0xE000 then none
    else (Char.ofNat high :: ·) <$> assemble? (.unit low :: rest)
  | .unit n :: rest =>
    if 0xD800 ≤ n ∧ n < 0xE000 then none else (Char.ofNat n :: ·) <$> assemble? rest

/-! ## Numbers -/

def digits? (input : List Char) : Option (List Char × List Char) :=
  match input.takeWhile Char.isDigit with
  | [] => none
  | digits => some (digits, input.dropWhile Char.isDigit)

/-- The digits before the point: zero alone, or digits that do not start with zero. -/
def wholeDigits? (input : List Char) : Option (List Char × List Char) :=
  match digits? input with
  | some ('0' :: _ :: _, _) => none
  | found => found

def exponent? (input : List Char) : Option (Int × List Char) :=
  match input with
  | '-' :: rest => (digits? rest).map fun (digits, rest) => (-(Digits.toNat digits : Int), rest)
  | '+' :: rest => (digits? rest).map fun (digits, rest) => ((Digits.toNat digits : Int), rest)
  | _ => (digits? input).map fun (digits, rest) => ((Digits.toNat digits : Int), rest)

def magnitude? (negative : Bool) (input : List Char) : Option (Numeral × List Char) := do
  let (digits, rest) ← wholeDigits? input
  let (places, rest) ← match rest with
    | '.' :: rest => digits? rest
    | _ => some ([], rest)
  let (exponent, rest, plain) ← match rest with
    | 'e' :: rest | 'E' :: rest => (exponent? rest).map fun (n, rest) => (n, rest, false)
    | _ => some (0, rest, true)
  return (⟨negative, Digits.toNat (digits ++ places), exponent - places.length,
    plain && places.isEmpty⟩, rest)

def numeral? : List Char → Option (Numeral × List Char)
  | '-' :: rest => magnitude? true rest
  | input => magnitude? false input

/-! ## Reading -/

def word? (word input : List Char) : Option (List Char) :=
  if input.take word.length = word then some (input.drop word.length) else none

/-- The first token of a text that does not start with white space. -/
def next? (input : List Char) : Option (Token × List Char) :=
  match input with
  | '[' :: rest => some (openBracket, rest)
  | ']' :: rest => some (closeBracket, rest)
  | '{' :: rest => some (openBrace, rest)
  | '}' :: rest => some (closeBrace, rest)
  | ',' :: rest => some (comma, rest)
  | ':' :: rest => some (colon, rest)
  | '"' :: rest => (pieces? rest).map fun (pieces, rest) =>
    (Token.text ((assemble? pieces).map String.ofList), rest)
  | 'n' :: _ => (word? ['n', 'u', 'l', 'l'] input).map fun rest => (null, rest)
  | 't' :: _ => (word? ['t', 'r', 'u', 'e'] input).map fun rest => (yes, rest)
  | 'f' :: _ => (word? ['f', 'a', 'l', 's', 'e'] input).map fun rest => (no, rest)
  | _ => (numeral? input).map fun (n, rest) => (number n, rest)

def isSpace (c : Char) : Bool := c == ' ' || c == '\n' || c == '\r' || c == '\t'

/-- The tokens of a text.  Every token has at least one character, so as many steps as the
text has characters are enough. -/
def readFrom : Nat → List Char → Option (List Token)
  | 0, input => if input.isEmpty then some [] else none
  | steps + 1, input =>
    match input.dropWhile isSpace with
    | [] => some []
    | input =>
      match next? input with
      | some (token, rest) => (token :: ·) <$> readFrom steps rest
      | none => none

def read? (input : List Char) : Option (List Token) := readFrom input.length input

/-! ## Writing -/

/-- The letter of a character that has an escape of its own. -/
def escape? : Char → Option Char
  | '"' => some '"'
  | '\\' => some '\\'
  | '\x08' => some 'b'
  | '\x0c' => some 'f'
  | '\n' => some 'n'
  | '\r' => some 'r'
  | '\t' => some 't'
  | _ => none

/-- Lower-case hexadecimal digits of a character below 32, after the mark of an escape. -/
def controlEscape (n : Nat) : List Char :=
  ['\\', 'u', '0', '0', Nat.digitChar (n / 16), Nat.digitChar (n % 16)]

/-- Quotes, reverse strokes and control characters are escaped. -/
def writeChar (c : Char) : List Char :=
  match escape? c with
  | some letter => ['\\', letter]
  | none => if c.toNat < 0x20 then controlEscape c.toNat else [c]

/-- A number without exponent: zeros are added after the digits or around the point. -/
def writeNumeral (n : Numeral) : List Char :=
  (if n.negative then ['-'] else []) ++ (Decimal.positional ⟨n.digits, n.exponent⟩).toList

def write : Token → List Char
  | openBracket => ['[']
  | closeBracket => [']']
  | openBrace => ['{']
  | closeBrace => ['}']
  | comma => [',']
  | colon => [':']
  | null => ['n', 'u', 'l', 'l']
  | yes => ['t', 'r', 'u', 'e']
  | no => ['f', 'a', 'l', 's', 'e']
  | number n => writeNumeral n
  | text (some s) => '"' :: s.toList.flatMap writeChar ++ ['"']
  | text none => ['n', 'u', 'l', 'l']

end Token
end Json
end Seismic
