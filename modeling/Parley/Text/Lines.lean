/-
Lines and words. A line ends at a line feed, and a carriage return before it belongs to the end of
the line; a text that ends in a line feed has no empty last line. Words are separated by white
space.
-/
import Parley.Text.CharClass

namespace Parley.Lines

/-- The stretches of a text between line feeds. -/
def splitAtFeeds : List Char → List (List Char)
  | [] => [[]]
  | c :: cs =>
    if c = '\n' then [] :: splitAtFeeds cs
    else match splitAtFeeds cs with
      | [] => [[c]]
      | line :: lines => (c :: line) :: lines

def dropReturn (line : List Char) : List Char :=
  if line.getLast? = some '\r' then line.dropLast else line

/-- Lines without their ends; the last stretch is a line only if it holds something. -/
def ofStretches : List (List Char) → List (List Char)
  | [] => []
  | [last] => if last.isEmpty then [] else [last]
  | line :: lines => dropReturn line :: ofStretches lines

def ofText (cs : List Char) : List (List Char) := ofStretches (splitAtFeeds cs)

def trim (cs : List Char) : List Char :=
  ((cs.dropWhile CharClass.isBlank).reverse.dropWhile CharClass.isBlank).reverse

def after? (opening cs : List Char) : Option (List Char) :=
  if opening.isPrefixOf cs then some (cs.drop opening.length) else none

/-- The words of a text, the first of them continuing `word`. -/
def wordsFrom (word : List Char) : List Char → List (List Char)
  | [] => if word.isEmpty then [] else [word]
  | c :: cs =>
    if CharClass.isBlank c then
      if word.isEmpty then wordsFrom [] cs else word :: wordsFrom [] cs
    else wordsFrom (word ++ [c]) cs

def words (cs : List Char) : List (List Char) := wordsFrom [] cs

/-- A text with one space for every stretch of white space inside it. -/
def collapse (cs : List Char) : List Char := [' '].intercalate (words cs)

def holds (fragment : List Char) : List Char → Bool
  | [] => fragment.isEmpty
  | c :: cs => fragment.isPrefixOf (c :: cs) || holds fragment cs

def unlines (lines : List String) : String := String.join (lines.map (· ++ "\n"))

end Parley.Lines
