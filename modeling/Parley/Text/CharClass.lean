/-
Classes of characters: the letters and digits of names, white space, characters that have to be
written as an escape to be seen, and the number of columns a character takes on a display.
-/
import Parley.Text.CharTable

namespace Parley.CharClass

/-- A character that may start a name: an ASCII letter or an underscore. -/
def startsName (c : Char) : Bool := c.isAlpha || c == '_'

/-- A character that may continue a name: an ASCII letter, a digit or an underscore. -/
def continuesName (c : Char) : Bool := c.isAlphanum || c == '_'

def isBlank (c : Char) : Bool := CharTable.covers CharTable.blankRanges c.toNat

/-- A character that shows nothing by itself, or that would be drawn on its neighbour. -/
def isInvisible (c : Char) : Bool :=
  if c.toNat < 0x7F then c.toNat < 0x20
  else CharTable.covers CharTable.hiddenRanges c.toNat || CharTable.covers CharTable.joiningRanges c.toNat

/-- The columns a character takes: none for marks and ignorable characters, two for wide ones,
one for every other, control characters included. -/
def columns (c : Char) : Nat :=
  if c.toNat < 0xA0 then 1
  else if CharTable.covers CharTable.joiningRanges c.toNat || CharTable.covers CharTable.ignorableRanges c.toNat then 0
  else if CharTable.covers CharTable.wideRanges c.toNat then 2
  else 1

end Parley.CharClass
