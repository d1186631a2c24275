import ConfigChain.Decimal.Shortest
import ConfigChain.Text.Quoted

/-!
What can be wrong with a JSON text, and the words that say so.
-/

namespace ConfigChain.Json

/-- A whole number of 64 bits, signed or not, or else a binary64 number with its sign. -/
inductive Number where
  | whole (n : Int)
  | binary (negative : Bool) (magnitude : Binary64)
deriving DecidableEq, Repr

/-- The text of a number. -/
def Number.text : Number → String
  | .whole n => toString n
  | .binary negative magnitude => magnitude.text negative

/-- A value of a kind that was not asked for. -/
inductive Found where
  | nothing
  | boolean (b : Bool)
  | number (n : Number)
  | text (s : String)
  | list
  | object
deriving DecidableEq, Repr

/-- How a message names a value. -/
def Found.describe : Found → String
  | .nothing => "null"
  | .boolean b => "boolean `" ++ (if b then "true" else "false") ++ "`"
  | .number (.whole n) => "integer `" ++ (Number.whole n).text ++ "`"
  | .number n => "floating point `" ++ n.text ++ "`"
  | .text s => "string " ++ Text.quoted s
  | .list => "sequence"
  | .object => "map"

/-- Why reading stops. -/
inductive Cause where
  | endInValue
  | endInList
  | endInObject
  | endInString
  | expectedColon
  | expectedListEnd
  | expectedObjectEnd
  | expectedWord
  | expectedValue
  | keyNotString
  | trailingComma
  | trailingCharacters
  | controlCharacter
  | invalidEscape
  | loneSurrogate
  | unfinishedPair
  | notUtf8
  | invalidNumber
  | outOfRange
  | tooDeep
  | repeatedField (name : String)
  | wrongKind (found : Found) (expected : String)
  | wrongLength (length : Nat) (expected : String)
deriving DecidableEq, Repr

/-- The words for a cause. -/
def Cause.message : Cause → String
  | .endInValue => "EOF while parsing a value"
  | .endInList => "EOF while parsing a list"
  | .endInObject => "EOF while parsing an object"
  | .endInString => "EOF while parsing a string"
  | .expectedColon => "expected `:`"
  | .expectedListEnd => "expected `,` or `]`"
  | .expectedObjectEnd => "expected `,` or `\x7d`"
  | .expectedWord => "expected ident"
  | .expectedValue => "expected value"
  | .keyNotString => "key must be a string"
  | .trailingComma => "trailing comma"
  | .trailingCharacters => "trailing characters"
  | .controlCharacter => "control character (\\u0000-\\u001F) found while parsing a string"
  | .invalidEscape => "invalid escape"
  | .loneSurrogate => "lone leading surrogate in hex escape"
  | .unfinishedPair => "unexpected end of hex escape"
  | .notUtf8 => "invalid unicode code point"
  | .invalidNumber => "invalid number"
  | .outOfRange => "number out of range"
  | .tooDeep => "recursion limit exceeded"
  | .repeatedField name => "duplicate field `" ++ name ++ "`"
  | .wrongKind found expected => "invalid type: " ++ found.describe ++ ", expected " ++ expected
  | .wrongLength length expected =>
    "invalid length " ++ toString length ++ ", expected " ++ expected

/-- The three families of causes. -/
inductive Family where
  | ending
  | grammar
  | content
deriving DecidableEq, Repr

/-- A text may end too early, break the grammar, or hold the wrong content. -/
def Cause.family : Cause → Family
  | .endInValue | .endInList | .endInObject | .endInString => .ending
  | .repeatedField _ | .wrongKind .. | .wrongLength .. => .content
  | _ => .grammar

end ConfigChain.Json
