import Seismic.Json.Token

/-!
# JSON text

Reading and writing of whole values.  Reading is strict: one value with nothing but white
space around it.
-/

namespace Seismic
namespace Json

open Token (openBracket closeBracket openBrace closeBrace comma colon)

/-! ## Writing -/

mutual

def tokens : Json → List Token
  | null => [.null]
  | bool b => [if b then .yes else .no]
  | number n => [.number n]
  | text s => [.text s]
  | array items => openBracket :: itemTokens items ++ [closeBracket]
  | object members => openBrace :: memberTokens members ++ [closeBrace]

def itemTokens : List Json → List Token
  | [] => []
  | [v] => tokens v
  | v :: items => tokens v ++ comma :: itemTokens items

def memberTokens : List (Option String × Json) → List Token
  | [] => []
  | [(name, v)] => .text name :: colon :: tokens v
  | (name, v) :: members => .text name :: colon :: tokens v ++ comma :: memberTokens members

end

def render (v : Json) : String := String.ofList (v.tokens.flatMap Token.write)

/-! ## Reading -/

mutual

/-- A value at the head of a sequence of tokens, and what follows it.  `depth` bounds the
number of nested steps. -/
def value? : (depth : Nat) → List Token → Option (Json × List Token)
  | 0, _ => none
  | depth + 1, token :: rest =>
    match token with
    | .null => some (null, rest)
    | .yes => some (bool true, rest)
    | .no => some (bool false, rest)
    | .number n => some (number n, rest)
    | .text s => some (text s, rest)
    | openBracket =>
      match rest with
      | closeBracket :: rest => some (array [], rest)
      | _ => (items? depth rest).map fun (items, rest) => (array items, rest)
    | openBrace =>
      match rest with
      | closeBrace :: rest => some (object [], rest)
      | _ => (members? depth rest).map fun (members, rest) => (object members, rest)
    | _ => none
  | _ + 1, [] => none

/-- The values of an array, through its closing bracket. -/
def items? : (depth : Nat) → List Token → Option (List Json × List Token)
  | 0, _ => none
  | depth + 1, tokens =>
    match value? depth tokens with
    | some (v, comma :: rest) =>
      (items? depth rest).map fun (items, rest) => (v :: items, rest)
    | some (v, closeBracket :: rest) => some ([v], rest)
    | _ => none

/-- The members of an object, through its closing brace. -/
def members? : (depth : Nat) → List Token → Option (List (Option String × Json) × List Token)
  | depth + 1, .text name :: colon :: tokens =>
    match value? depth tokens with
    | some (v, comma :: rest) =>
      (members? depth rest).map fun (members, rest) => ((name, v) :: members, rest)
    | some (v, closeBrace :: rest) => some ([(name, v)], rest)
    | _ => none
  | _, _ => none

end

/-- The value of a sequence of tokens.  Each token takes at most two nested steps. -/
def ofTokens? (tokens : List Token) : Option Json :=
  match value? (2 * tokens.length + 1) tokens with
  | some (v, []) => some v
  | _ => none

def parse? (text : String) : Option Json := (Token.read? text.toList).bind ofTokens?

end Json
end Seismic
