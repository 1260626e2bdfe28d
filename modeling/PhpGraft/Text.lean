/-!
Text is a list of characters. White space is the Unicode property `White_Space`; letter case and
the white space of source code (`isSpace`) are those of ASCII. Sizes and orders that readers of a
file can observe are those of its UTF-8 bytes.
-/
namespace PhpGraft

abbrev Text := List Char

instance : Coe String Text := ⟨String.toList⟩

/-- The 25 characters with the Unicode property `White_Space`. -/
def isWhite (c : Char) : Bool :=
  let n := c.toNat
  (9 ≤ n && n ≤ 13) || n == 0x20 || n == 0x85 || n == 0xA0 || n == 0x1680 ||
    (0x2000 ≤ n && n ≤ 0x200A) || n == 0x2028 || n == 0x2029 || n == 0x202F || n == 0x205F ||
    n == 0x3000

/-- Space, tab, line feed, form feed and carriage return. -/
def isSpace (c : Char) : Bool :=
  c == ' ' || c == '\t' || c == '\n' || c == '\x0c' || c == '\r'

theorem isWhite_of_isSpace {c : Char} (h : isSpace c = true) : isWhite c = true := by
  simp only [isSpace, Bool.or_eq_true, beq_iff_eq] at h
  rcases h with (((rfl | rfl) | rfl) | rfl) | rfl <;> decide

namespace Text

def trimStart (t : Text) : Text := t.dropWhile isWhite

def trimEnd (t : Text) : Text := (t.reverse.dropWhile isWhite).reverse

def trim (t : Text) : Text := t.trimStart.trimEnd

/-- Nothing but white space. -/
def isBlank (t : Text) : Bool := t.all isWhite

def lower (t : Text) : Text := t.map Char.toLower

/-- Equal but for the case of ASCII letters. -/
def sameLetters (s t : Text) : Bool := s.lower == t.lower

/-- The pieces between the occurrences of `sep`, one more than there are occurrences. -/
def splitOn (sep : Char) : Text → List Text
  | [] => [[]]
  | c :: t =>
    if c = sep then [] :: splitOn sep t
    else match splitOn sep t with
      | [] => [[c]]
      | w :: ws => (c :: w) :: ws

theorem splitOn_ne_nil (sep : Char) (t : Text) : splitOn sep t ≠ [] := by
  cases t with
  | nil => simp [splitOn]
  | cons c t =>
    simp only [splitOn]
    split
    · simp
    · split <;> simp

def join (sep : Text) (ts : List Text) : Text := sep.intercalate ts

def startsWith (t s : Text) : Bool := s.isPrefixOf t

/-- `t` without its leading `s`, if it has one. -/
def dropPrefix? (t s : Text) : Option Text :=
  if s.isPrefixOf t then some (t.drop s.length) else none

/-- `s` occurs somewhere in `t`. -/
def hasInfix (t s : Text) : Bool :=
  s.isPrefixOf t || match t with
    | [] => false
    | _ :: t => hasInfix t s

def times (t : Text) (n : Nat) : Text := (List.replicate n t).flatten

def bytes (t : Text) : List UInt8 := t.flatMap String.utf8EncodeChar

def byteSize (t : Text) : Nat := t.foldr (fun c n => c.utf8Size + n) 0

/-- What is left after `n` bytes; nothing when byte `n` is inside a character or past the end. -/
def dropBytes? : Nat → Text → Option Text
  | 0, t => some t
  | _ + 1, [] => none
  | n + 1, c :: t => if c.utf8Size ≤ n + 1 then dropBytes? (n + 1 - c.utf8Size) t else none

/-- Shorter texts come first, texts of one size in the order of their bytes. -/
def shortLexLE (s t : Text) : Bool :=
  s.byteSize < t.byteSize || (s.byteSize == t.byteSize && decide (s.bytes ≤ t.bytes))

end Text
end PhpGraft
