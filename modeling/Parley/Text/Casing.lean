/-
Spelling conventions for names. A name is cut into lower-case words at underscores and where a
capital follows a small letter or a digit; a convention says how the words are put together again.
-/

namespace Parley

inductive Casing
  /-- A capital first, then letters and digits only. -/
  | upperCamel
  /-- Small letters, digits and single underscores, a letter first; underscores may lead. -/
  | snake
deriving DecidableEq, Repr

namespace Casing

def label : Casing → String
  | upperCamel => "UpperCamelCase"
  | snake => "snake_case"

def hasDoubleUnderscore : List Char → Bool
  | '_' :: '_' :: _ => true
  | _ :: cs => hasDoubleUnderscore cs
  | [] => false

def isUpperCamel (cs : List Char) : Bool :=
  cs.head?.any Char.isUpper && cs.all Char.isAlphanum

/-- After any leading underscores a small letter, then small letters, digits and single
underscores. -/
def isSnake (cs : List Char) : Bool :=
  let body := cs.dropWhile (· == '_')
  body.head?.any Char.isLower && body.all (fun c => c.isLower || c.isDigit || c == '_') &&
    !hasDoubleUnderscore body

def accepts (casing : Casing) (name : String) : Bool :=
  match casing with
  | upperCamel => isUpperCamel name.toList
  | snake => isSnake name.toList

def nonEmpty (word : List Char) : List (List Char) := if word.isEmpty then [] else [word]

/-- The words of a name, the first of them continuing `word`; `small` tells whether the character
before was a small letter or a digit, which has then begun `word`. -/
def wordsFrom (word : List Char) (small : Bool) : List Char → List (List Char)
  | [] => nonEmpty word
  | c :: cs =>
    if c = '_' then nonEmpty word ++ wordsFrom [] false cs
    else if c.isUpper && small then word :: wordsFrom [c.toLower] false cs
    else wordsFrom (word ++ [c.toLower]) (c.isLower || c.isDigit) cs

def words (cs : List Char) : List (List Char) := wordsFrom [] false cs

def capitalize : List Char → List Char
  | [] => []
  | c :: cs => c.toUpper :: cs

def respell (casing : Casing) (name : String) : String :=
  match casing with
  | upperCamel => String.ofList ((words name.toList).flatMap capitalize)
  | snake => String.ofList (['_'].intercalate (words name.toList))

end Casing

end Parley
