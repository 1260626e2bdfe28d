import PhpGraft.Data.Yaml.Scalar

/-!
Tags of nodes. A tag is a sequence of bytes, which need not be text: percent signs in it stand for
any bytes that are as many as their first one says. It ends at a zero byte.
-/
namespace PhpGraft.Yaml

abbrev Tag := List UInt8

namespace Tag

/-- A tag of the core schema. -/
def core (name : Text) : Tag := Text.bytes ("tag:yaml.org,2002:" ++ name)

/-- The tag `!`, which says nothing but that there is one. -/
def bare : Tag := Text.bytes ['!']

def startsLocal (tag : Tag) : Bool := bare.isPrefixOf tag

def isText (bytes : List UInt8) : Bool := (String.fromUTF8? ⟨bytes.toArray⟩).isSome

/-- A name of the application, which data knows nothing about. -/
def isLocal (tag : Tag) : Bool := tag.startsLocal && isText (tag.drop 1)

def isWordChar (c : Char) : Bool := c.isAlphanum || c == '_' || c == '-'

/-- Characters of a tag; `anywhere` if it stands where commas and brackets end nothing. -/
def isChar (anywhere : Bool) (c : Char) : Bool :=
  isWordChar c || ";/?:@&=+$.%!~*'()".toList.contains c ||
    (anywhere && ",[]".toList.contains c)

/-- How many bytes the character has that starts with this one. -/
def width? (byte : UInt8) : Option Nat :=
  if byte < 0x80 then some 1
  else if byte < 0xC0 then none
  else if byte < 0xE0 then some 2
  else if byte < 0xF0 then some 3
  else if byte < 0xF8 then some 4
  else none

/-- The bytes that are written; `more` of them are still due to the character that has begun. -/
def decodeFrom? (more : Nat) : Text → Option Tag
  | [] => if more = 0 then some [] else none
  | '%' :: a :: b :: t =>
    match Json.hexDigit? a, Json.hexDigit? b with
    | some a, some b =>
      let byte := (a * 16 + b).toUInt8
      match more with
      | 0 => (width? byte).bind fun width => (decodeFrom? (width - 1) t).map (byte :: ·)
      | more + 1 =>
        if 0x80 ≤ byte ∧ byte < 0xC0 then (decodeFrom? more t).map (byte :: ·) else none
    | _, _ => none
  | c :: t =>
    if more = 0 ∧ c ≠ '%' then (decodeFrom? 0 t).map (String.utf8EncodeChar c ++ ·) else none

def decode? (t : Text) : Option Tag := (decodeFrom? 0 t).map (·.takeWhile (· != 0))

/-- A tag that is read: the name of its handle, what follows that, and the rest of the text. A tag
without handle is complete. -/
structure Read where
  handle : Text
  suffix : Tag
  rest : Text

/-- A tag is `!<tag>`, `!suffix` or `!handle!suffix`. -/
def read? (t : Text) : Option Read :=
  match t with
  | '!' :: '<' :: t =>
    let body := t.takeWhile (isChar true)
    match t.drop body.length with
    | '>' :: rest => if body.isEmpty then none else (decode? body).map (⟨[], ·, rest⟩)
    | _ => none
  | '!' :: t =>
    let word := t.takeWhile isWordChar
    match t.drop word.length with
    | '!' :: t =>
      let suffix := t.takeWhile (isChar false)
      if suffix.isEmpty then none
      else (decode? suffix).map (⟨'!' :: word ++ ['!'], ·, t.drop suffix.length⟩)
    | _ =>
      let suffix := t.takeWhile (isChar false)
      (decode? suffix).map fun bytes =>
        if bytes.isEmpty then ⟨[], bare, t.drop suffix.length⟩
        else ⟨['!'], bytes, t.drop suffix.length⟩
  | _ => none

end Tag
end PhpGraft.Yaml
