/-
Tokens: keywords, symbols, integers, string literals and names, with their spelling. A token that
was read from a text keeps the text it was read from and its span (`Lexeme`).
-/
import Parley.Text.Escaped
import Parley.Text.Position
import Parley.Text.Quoted

namespace Parley

inductive Keyword
  | transaction | actor | message | block | function | entry
  | role | send | call | goto | when | yes | no
deriving DecidableEq, Repr

namespace Keyword

def spelling : Keyword → String
  | transaction => "transaction"
  | actor => "actor"
  | message => "message"
  | block => "block"
  | function => "function"
  | entry => "entry"
  | role => "role"
  | send => "send"
  | call => "call"
  | goto => "goto"
  | when => "when"
  | yes => "true"
  | no => "false"

def ofSpelling? : String → Option Keyword
  | "transaction" => some transaction
  | "actor" => some actor
  | "message" => some message
  | "block" => some block
  | "function" => some function
  | "entry" => some entry
  | "role" => some role
  | "send" => some send
  | "call" => some call
  | "goto" => some goto
  | "when" => some when
  | "true" => some yes
  | "false" => some no
  | _ => none

theorem ofSpelling?_eq_some_iff {word : String} {k : Keyword} : ofSpelling? word = some k ↔ k.spelling = word := by
  constructor
  · intro h
    unfold ofSpelling? at h
    split at h <;> cases h <;> rfl
  · rintro rfl
    cases k <;> rfl

/-- The words that cannot be names, because they are keywords. -/
def reserved : List String :=
  ["transaction", "actor", "message", "block", "function", "entry", "role", "send", "call", "goto", "when", "true",
    "false"]

/-- Whether a keyword opens a transaction or a declaration. -/
def opensDeclaration : Keyword → Bool
  | transaction | actor | message | block | function | entry => true
  | _ => false

end Keyword

inductive Symbol
  | openBrace | closeBrace | openParen | closeParen | colon | comma | semicolon | dot | arrow
  | equal | notEqual | atMost | atLeast | less | greater | and | or | not
deriving DecidableEq, Repr

def Symbol.spelling : Symbol → String
  | openBrace => "\x7b"
  | closeBrace => "\x7d"
  | openParen => "("
  | closeParen => ")"
  | colon => ":"
  | comma => ","
  | semicolon => ";"
  | dot => "."
  | arrow => "->"
  | equal => "=="
  | notEqual => "!="
  | atMost => "<="
  | atLeast => ">="
  | less => "<"
  | greater => ">"
  | and => "&&"
  | or => "||"
  | not => "!"

inductive Token
  | keyword (word : Keyword)
  | symbol (mark : Symbol)
  | integer (value : Int64)
  | string (value : String)
  | name (word : String)
deriving DecidableEq, Repr

namespace Token

/-- The token as messages show it: a string with every character made visible. -/
def display : Token → String
  | keyword word => word.spelling
  | symbol mark => mark.spelling
  | integer value => toString value.toInt
  | string value => Escaped.ofString value
  | name word => word

def spelling : Token → String
  | string value => Quoted.literal value
  | token => token.display

def opensDeclaration : Token → Bool
  | keyword word => word.opensDeclaration
  | _ => false

end Token

structure Lexeme where
  token : Token
  /-- The text the token was read from. -/
  text : String
  span : Span
deriving DecidableEq, Repr

end Parley
