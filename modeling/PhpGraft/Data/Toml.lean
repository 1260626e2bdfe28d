import PhpGraft.Data.Toml.Scalar

/-!
TOML documents. Arrays and inline tables nest at most 79 deep, and a key has at most 79 parts.
Arrays of tables are refused.
-/
namespace PhpGraft.Toml

def isBare (c : Char) : Bool := c.isAlphanum || c == '_' || c == '-'

def simpleKey? (t : Text) : Option (Text × Text) :=
  match t with
  | [] => none
  | c :: r =>
    if c = '"' ∨ c = '\'' then line? c (r.length + 1) [] r
    else
      let key := t.takeWhile isBare
      if key.isEmpty then none else some (key, t.drop key.length)

/-- A key, its parts joined by dots, of which there are no more than `parts`. -/
def keyOf? (parts : Nat) (t : Text) : Option (List Text × Text) :=
  match parts with
  | 0 => none
  | parts + 1 =>
    (simpleKey? (skipGap t)).bind fun (part, t) =>
      match skipGap t with
      | '.' :: t => (keyOf? parts t).map fun r => (part :: r.1, r.2)
      | t => some ([part], t)

def maxDepth : Nat := 79

def key? (t : Text) : Option (List Text × Text) := keyOf? maxDepth t

/-- How a table came to be, which settles what may still be added to it. -/
inductive Kind where
  | header | implicit | dotted
  deriving DecidableEq

inductive Item where
  | value (data : Data Text)
  | table (kind : Kind) (entries : List (Text × Item))

def put (es : List (Text × Item)) (key : Text) (item : Item) : List (Text × Item) :=
  Entries.insert es key item

/-- Sets the value of a dotted key inside a table. -/
def assign? (value : Data Text) : List Text → List (Text × Item) → Option (List (Text × Item))
  | [], _ => none
  | [key], es => if (es.lookup key).isSome then none else some (put es key (.value value))
  | key :: path, es =>
    match es.lookup key with
    | none => (assign? value path []).map fun inner => put es key (.table .dotted inner)
    | some (.table .header _) => none
    | some (.table kind inner) =>
      (assign? value path inner).map fun inner => put es key (.table kind inner)
    | some (.value _) => none

/-- Opens the table of a header. -/
def openTable? : List Text → List (Text × Item) → Option (List (Text × Item))
  | [], _ => none
  | [key], es =>
    match es.lookup key with
    | none => some (put es key (.table .header []))
    | some (.table .implicit inner) => some (put es key (.table .header inner))
    | some _ => none
  | key :: path, es =>
    match es.lookup key with
    | none => (openTable? path []).map fun inner => put es key (.table .implicit inner)
    | some (.table kind inner) =>
      (openTable? path inner).map fun inner => put es key (.table kind inner)
    | some (.value _) => none

/-- Changes the entries of the table at a path. -/
def within? (f : List (Text × Item) → Option (List (Text × Item))) :
    List Text → List (Text × Item) → Option (List (Text × Item))
  | [], es => f es
  | key :: path, es =>
    match es.lookup key with
    | some (.table kind inner) =>
      (within? f path inner).map fun inner => put es key (.table kind inner)
    | _ => none

mutual

def Item.data : Item → Data Text
  | .value d => d
  | .table _ es => .table (entriesData es)

def entriesData : List (Text × Item) → List (Text × Data Text)
  | [] => []
  | (key, item) :: es => (key, item.data) :: entriesData es

end

mutual

def value? (fuel depth : Nat) (t : Text) : Option (Data Text × Text) :=
  match fuel with
  | 0 => none
  | fuel + 1 =>
    match t with
    | 't' :: 'r' :: 'u' :: 'e' :: t => some (.bool true, t)
    | 'f' :: 'a' :: 'l' :: 's' :: 'e' :: t => some (.bool false, t)
    | '[' :: t =>
      match depth with
      | 0 => none
      | depth + 1 => (items? fuel depth [] t).map fun r => (.list r.1, r.2)
    | '\x7b' :: t =>
      match depth, skipGap t with
      | 0, _ => none
      | _, '\x7d' :: t => some (.table [], t)
      | depth + 1, t => (inline? fuel depth [] t).map fun r => (.table (entriesData r.1), r.2)
    | c :: t =>
      if c = '"' ∨ c = '\'' then (string? (c :: t)).map fun r => (.text r.1, r.2)
      else quantity? (c :: t)
    | [] => none

def items? (fuel depth : Nat) (seen : List (Data Text)) (t : Text) :
    Option (List (Data Text) × Text) :=
  match fuel with
  | 0 => none
  | fuel + 1 =>
    match skipLines t.length t with
    | ']' :: t => some (seen.reverse, t)
    | t =>
      match value? fuel depth t with
      | none => none
      | some (d, t) =>
        match skipLines t.length t with
        | ',' :: t => items? fuel depth (d :: seen) t
        | ']' :: t => some ((d :: seen).reverse, t)
        | _ => none

def inline? (fuel depth : Nat) (seen : List (Text × Item)) (t : Text) :
    Option (List (Text × Item) × Text) :=
  match fuel with
  | 0 => none
  | fuel + 1 =>
    match key? t with
    | some (path, '=' :: t) =>
      match value? fuel depth (skipGap t) with
      | none => none
      | some (d, t) =>
        match assign? d path seen, skipGap t with
        | some es, ',' :: t => inline? fuel depth es t
        | some es, '\x7d' :: t => some (es, t)
        | _, _ => none
    | _ => none

end

/-- Reads statements into `root`; keys belong to the table at `path`. -/
def statements? (fuel : Nat) (path : List Text) (root : List (Text × Item)) (t : Text) :
    Option (List (Text × Item)) :=
  match fuel with
  | 0 => none
  | fuel + 1 =>
    match skipLines (t.length + 1) t with
    | [] => some root
    | '[' :: t =>
      match key? t with
      | some (path, ']' :: t) =>
        match openTable? path root, endOfLine? t with
        | some root, some t => statements? fuel path root t
        | _, _ => none
      | _ => none
    | t =>
      match key? t with
      | some (key, '=' :: t) =>
        match value? (2 * t.length + 2) maxDepth (skipGap t) with
        | none => none
        | some (d, t) =>
          match within? (assign? d key) path root, endOfLine? t with
          | some root, some t => statements? fuel path root t
          | _, _ => none
      | _ => none

/-- What a document says. A byte order mark may stand in front of it. -/
def read? (t : Text) : Option (Data Text) :=
  let t := if t.head?.any (·.toNat == 0xFEFF) then t.drop 1 else t
  (statements? (t.length + 1) [] [] t).map fun es => .table (entriesData es)

end PhpGraft.Toml
