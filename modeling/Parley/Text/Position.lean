/-
Positions and spans. A position counts the bytes of UTF-8 before it, its line from 1, and the
characters of that line before it from 1; only a line feed ends a line. A span is a position and a
length in bytes. A position is reached by walking over characters (`Position.after`); the span of an
arbitrary range of bytes is found with the starts of all lines (`Parley.Text.LineIndex`).
-/

namespace Parley

def byteLength (cs : List Char) : Nat := cs.foldr (fun c n => c.utf8Size + n) 0

@[simp] theorem byteLength_nil : byteLength [] = 0 := rfl

@[simp] theorem byteLength_cons (c : Char) (cs : List Char) :
    byteLength (c :: cs) = c.utf8Size + byteLength cs := rfl

@[simp] theorem byteLength_append (cs ds : List Char) :
    byteLength (cs ++ ds) = byteLength cs + byteLength ds := by
  induction cs with
  | nil => simp
  | cons c cs ih => rw [List.cons_append, byteLength_cons, byteLength_cons, ih, Nat.add_assoc]

structure Position where
  /-- The bytes before the place. -/
  offset : Nat
  /-- The line, from 1. -/
  line : Nat
  /-- The character of its line, from 1. -/
  column : Nat
deriving DecidableEq, Repr, Inhabited

namespace Position

def first : Position := ⟨0, 1, 1⟩

/-- The place after a character: a line feed starts the next line. -/
def advance (p : Position) (c : Char) : Position :=
  if c = '\n' then ⟨p.offset + c.utf8Size, p.line + 1, 1⟩
  else ⟨p.offset + c.utf8Size, p.line, p.column + 1⟩

def after (p : Position) (cs : List Char) : Position := cs.foldl advance p

@[simp] theorem after_nil (p : Position) : p.after [] = p := rfl

@[simp] theorem after_cons (p : Position) (c : Char) (cs : List Char) :
    p.after (c :: cs) = (p.advance c).after cs := rfl

@[simp] theorem after_append (p : Position) (cs ds : List Char) :
    p.after (cs ++ ds) = (p.after cs).after ds := by simp [after]

@[simp] theorem offset_advance (p : Position) (c : Char) :
    (p.advance c).offset = p.offset + c.utf8Size := by
  unfold advance; split <;> rfl

@[simp] theorem offset_after (p : Position) (cs : List Char) :
    (p.after cs).offset = p.offset + byteLength cs := by
  induction cs generalizing p with
  | nil => rfl
  | cons c cs ih => rw [after_cons, ih, offset_advance, byteLength_cons, Nat.add_assoc]

end Position

/-- A stretch of a text: where it starts and how many bytes it has. -/
structure Span where
  offset : Nat
  length : Nat
  line : Nat
  column : Nat
deriving DecidableEq, Repr, Inhabited

namespace Span

/-- The span that belongs to no text. -/
def nowhere : Span := ⟨0, 0, 0, 0⟩

def startingAt (p : Position) (length : Nat) : Span := ⟨p.offset, length, p.line, p.column⟩

def stop (s : Span) : Nat := s.offset + s.length

def place (s : Span) : String := toString s.line ++ ":" ++ toString s.column

def atStart (s : Span) : Span := { s with length := 0 }

/-- The stretch from the start of one span to the end of another. -/
def upTo (s t : Span) : Span := { s with length := t.stop - s.offset }

end Span

/-- The longest run of leading characters that fits into `n` bytes. -/
def takeBytes : Nat → List Char → List Char
  | _, [] => []
  | n, c :: cs => if c.utf8Size ≤ n then c :: takeBytes (n - c.utf8Size) cs else []

theorem takeBytes_isPrefix (n : Nat) (cs : List Char) : takeBytes n cs <+: cs := by
  induction cs generalizing n with
  | nil => exact List.prefix_refl _
  | cons c cs ih =>
    unfold takeBytes; split
    · exact List.cons_prefix_cons.mpr ⟨rfl, ih _⟩
    · exact ⟨c :: cs, rfl⟩

/-- What is left of the characters after the longest run that fits into `n` bytes. -/
def dropBytes (n : Nat) (cs : List Char) : List Char := cs.drop (takeBytes n cs).length

theorem takeBytes_append_dropBytes (n : Nat) (cs : List Char) :
    takeBytes n cs ++ dropBytes n cs = cs := by
  obtain ⟨rest, h⟩ := takeBytes_isPrefix n cs
  unfold dropBytes
  generalize takeBytes n cs = front at h
  subst h; simp

/-- Whether byte `n` of a text starts a character or is its end. -/
def isBoundary (cs : List Char) (n : Nat) : Bool := byteLength (takeBytes n cs) == n

end Parley
