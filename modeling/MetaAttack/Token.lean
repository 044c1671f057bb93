import MetaAttack.Span

/-!
# Tokens

The words and signs of the Meta Attack Language. Keywords and signs are written in one way each;
integers, strings and identifiers carry their text. `Token.text` is how a message shows a token.
-/

namespace MetaAttack

/-- A reserved word. -/
inductive Keyword
  | inclusion
  | category
  | asset
  | abstraction
  | extension
  | associations
  | binding
deriving DecidableEq, Repr

namespace Keyword

/-- The letters of a reserved word. -/
def chars : Keyword → List Char
  | inclusion => ['i', 'n', 'c', 'l', 'u', 'd', 'e']
  | category => ['c', 'a', 't', 'e', 'g', 'o', 'r', 'y']
  | asset => ['a', 's', 's', 'e', 't']
  | abstraction => ['a', 'b', 's', 't', 'r', 'a', 'c', 't']
  | extension => ['e', 'x', 't', 'e', 'n', 'd', 's']
  | associations => ['a', 's', 's', 'o', 'c', 'i', 'a', 't', 'i', 'o', 'n', 's']
  | binding => ['l', 'e', 't']

def all : List Keyword :=
  [inclusion, category, asset, abstraction, extension, associations, binding]

/-- The reserved word with exactly these letters. -/
def ofChars? (word : List Char) : Option Keyword :=
  all.find? fun k => k.chars = word

theorem mem_all (k : Keyword) : k ∈ all := by cases k <;> decide

end Keyword

/-- A sign made of punctuation. -/
inductive Sign
  | lbrace
  | rbrace
  | lparen
  | rparen
  | lbracket
  | rbracket
  | comma
  | colon
  | dot
  | dotDot
  | hash
  | atSign
  | equals
  | pipe
  | ampersand
  | bang
  | reaches
  | appends
  | requires
  | leftArm
  | rightArm
  | union
  | intersection
  | minus
  | plus
  | star
  | slash
  | caret
deriving DecidableEq, Repr

namespace Sign

/-- The characters of a sign. -/
def chars : Sign → List Char
  | lbrace => ['{']
  | rbrace => ['}']
  | lparen => ['(']
  | rparen => [')']
  | lbracket => ['[']
  | rbracket => [']']
  | comma => [',']
  | colon => [':']
  | dot => ['.']
  | dotDot => ['.', '.']
  | hash => ['#']
  | atSign => ['@']
  | equals => ['=']
  | pipe => ['|']
  | ampersand => ['&']
  | bang => ['!']
  | reaches => ['-', '>']
  | appends => ['+', '>']
  | requires => ['<', '-']
  | leftArm => ['<', '-', '-']
  | rightArm => ['-', '-', '>']
  | union => ['\\', '/']
  | intersection => ['/', '\\']
  | minus => ['-']
  | plus => ['+']
  | star => ['*']
  | slash => ['/']
  | caret => ['^']

/-- Every sign, the longer ones first. -/
def longestFirst : List Sign :=
  [leftArm, rightArm, dotDot, reaches, appends, requires, union, intersection, lbrace, rbrace,
    lparen, rparen, lbracket, rbracket, comma, colon, dot, hash, atSign, equals, pipe, ampersand,
    bang, minus, plus, star, slash, caret]

theorem mem_longestFirst (s : Sign) : s ∈ longestFirst := by cases s <;> decide

theorem chars_ne_nil (s : Sign) : s.chars ≠ [] := by cases s <;> decide

theorem longestFirst_sorted :
    longestFirst.Pairwise fun s t => t.chars.length ≤ s.chars.length := by decide

/-- The longest sign that a text starts with. -/
def leading? (cs : List Char) : Option Sign :=
  longestFirst.find? fun s => s.chars.isPrefixOf cs

end Sign

/-- A word of the language. -/
inductive Token
  | keyword (word : Keyword)
  | sign (sign : Sign)
  /-- An unsigned integer, with its digits as written. -/
  | integer (digits : String)
  /-- A string literal, with the text it stands for. -/
  | string (value : String)
  | ident (name : String)
deriving DecidableEq, Repr

namespace Token

/-- How a message shows a token. A string is shown between quotes and is not escaped again. -/
def text : Token → String
  | keyword k => String.ofList k.chars
  | sign s => String.ofList s.chars
  | integer digits => digits
  | string value => "\"" ++ value ++ "\""
  | ident name => name

end Token

/-- A token with its place in the source. -/
structure Lexeme where
  token : Token
  span : Span
deriving DecidableEq, Repr

end MetaAttack
