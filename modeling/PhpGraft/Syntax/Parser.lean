import PhpGraft.Syntax
import PhpGraft.Syntax.Bracket
import PhpGraft.Token.Lexer

/-!
Reading the syntax of a file. Namespaces, imports, class-like declarations and methods become nodes
of their own; any other statement or class member is found by its brackets and kept as it stands.
Each step ends behind the token it started at.
-/
namespace PhpGraft

/-- Statements that a closing brace may end. -/
def blockKeywords : List Text :=
  ["if", "for", "foreach", "while", "switch", "try", "function", "class", "interface", "trait",
    "enum", "abstract", "final", "declare"]

def classModifiers : List Text := ["abstract", "final", "readonly"]

def memberModifiers : List Text :=
  ["public", "protected", "private", "static", "abstract", "final", "var", "readonly"]

namespace Tokens

/-- Behind the attributes `#[…]` that start at `i`. -/
def skipAttributes (ts : Tokens) (i stop : Nat) : Except ParseError Nat :=
  if ts.isPunct i '#' && ts.isPunct (i + 1) '[' then
    match h : ts.matching .square (i + 1) stop with
    | .error e => .error e
    | .ok closing =>
      have := matching_bounds h
      have := le_firstFrom ts.isCode (show closing + 1 ≤ stop by omega)
      skipAttributes ts (ts.significant (closing + 1) stop) stop
  else .ok i
termination_by stop - i
decreasing_by simp only [significant]; omega

/-- The modifiers from `i` on in lower case, and the index of what follows them. -/
def modifiers (ts : Tokens) (words : List Text) (i stop : Nat) : List Text × Nat :=
  if _ : i < stop then
    if ts.isOneOf i words then
      have := le_firstFrom ts.isCode (show i + 1 ≤ stop by omega)
      let r := modifiers ts words (ts.significant (i + 1) stop) stop
      ((ts.text i).lower :: r.1, r.2)
    else ([], i)
  else ([], i)
termination_by stop - i
decreasing_by simp only [significant]; omega

def isBlock (ts : Tokens) (i : Nat) : Bool := ts.isPunct i '{' || ts.isOneOf i blockKeywords

/-- The statements of a body, each with the comments in front of it and the one that ends its line;
comments behind the last statement come as one more. -/
def statements (ts : Tokens) (i stop : Nat) : Except ParseError (List Text) :=
  let first := ts.significant i stop
  let start := ts.leading i first
  if _ : first < stop then
    match ts.skipAttributes first stop with
    | .error e => .error e
    | .ok head =>
      match h : ts.statementEnd first stop (ts.isBlock head) with
      | .error e => .error e
      | .ok next =>
        have := statementEnd_bounds h
        have : i ≤ firstFrom ts.isCode i stop := le_firstFrom_of_lt ‹_›
        have := le_trailing ts next stop
        let next := ts.trailing next stop
        match statements ts next stop with
        | .error e => .error e
        | .ok rest => .ok ((ts.between start next).trim :: rest)
  else
    let closing := (ts.between start stop).trim
    .ok (if closing.isEmpty then [] else [closing])
termination_by stop - i
decreasing_by simp only [first, significant] at *; omega

def verbatim (ts : Tokens) (start first stop : Nat) (block : Bool) :
    Except ParseError (Node × Nat) :=
  match ts.statementEnd first stop block with
  | .error e => .error e
  | .ok next =>
    .ok (.ofSource (.verbatim (ts.between first next)) ⟨start, next⟩ none [], next)

/-- The alias at `i`, if there is one, and the index of what follows; none for an `as` alone. -/
def importAlias? (ts : Tokens) (i stop : Nat) : Option (Option Text × Nat) :=
  if ts.isKeyword i "as" then
    let j := ts.significant (i + 1) stop
    if ts.isName j then some (some (ts.text j), ts.significant (j + 1) stop) else none
  else some (none, i)

theorem le_of_importAlias? {ts : Tokens} {i j stop : Nat} {a : Option Text}
    (h : ts.importAlias? i stop = some (a, j)) (hi : i ≤ stop) : i ≤ j ∧ j ≤ stop := by
  have := min_le_firstFrom ts.isCode
  have := firstFrom_le ts.isCode
  unfold importAlias? significant at h
  grind

def importClauses? (ts : Tokens) (i stop : Nat) : Option (List ImportClause) :=
  if _ : i < stop ∧ ts.isName i then
    match h : ts.importAlias? (ts.significant (i + 1) stop) stop with
    | none => none
    | some (alias?, j) =>
      let clause := ⟨(ts.text i).dropWhile (· == '\\'), alias?⟩
      if ts.isPunct j ',' then
        have := le_of_importAlias? h (firstFrom_le ..)
        have := min_le_firstFrom ts.isCode (i + 1) stop
        have := min_le_firstFrom ts.isCode (j + 1) stop
        (importClauses? ts (ts.significant (j + 1) stop) stop).map (clause :: ·)
      else if ts.isPunct j ';' then some [clause]
      else none
  else none
termination_by stop - i
decreasing_by simp only [significant] at *; omega

/-- The clauses of the import that starts at `first`; none for one that groups its names. -/
def import? (ts : Tokens) (first stop : Nat) : Option Import :=
  let i := ts.significant (first + 1) stop
  let kind : ImportKind :=
    if ts.isKeyword i "function" then .function
    else if ts.isKeyword i "const" then .constant
    else .classLike
  let i := if kind = .classLike then i else ts.significant (i + 1) stop
  (ts.importClauses? i stop).map (⟨kind, ·⟩)

def importDecl (ts : Tokens) (start first stop : Nat) : Except ParseError (Node × Nat) :=
  match ts.statementEnd first stop false with
  | .error e => .error e
  | .ok next =>
    match ts.import? first next with
    | some i => .ok (.ofSource (.imports i) ⟨start, next⟩ none [], next)
    | none => ts.verbatim start first stop false

def lastDoc? (ts : Tokens) (i stop : Nat) : Option Text :=
  ((ts.extract i stop).toList.reverse.find? (·.kind == .docComment)).map Token.text

/-- Statements between braces, or a semicolon in their place; and the index behind. -/
def methodBody (ts : Tokens) (i stop : Nat) : Except ParseError (Option (List Text) × Nat) :=
  if ts.isPunct i '{' then
    match ts.matching .curly i stop with
    | .error e => .error e
    | .ok closing =>
      match ts.statements (i + 1) closing with
      | .error e => .error e
      | .ok body => .ok (some body, closing + 1)
  else if ts.isPunct i ';' then .ok (none, i + 1)
  else .error (ts.fault .missingMethodBody i)

theorem lt_of_methodBody {ts : Tokens} {i stop next : Nat} {body? : Option (List Text)}
    (h : ts.methodBody i stop = .ok (body?, next)) : i < next := by
  have := @matching_bounds ts .curly i stop
  unfold methodBody at h
  grind

/-- Whether the method whose keyword is at `function` returns a reference, and where its name is. -/
def methodName (ts : Tokens) (function stop : Nat) : Bool × Nat :=
  let i := ts.significant (function + 1) stop
  if ts.isPunct i '&' then (true, ts.significant (i + 1) stop) else (false, i)

/-- The type behind a colon at `i`, if there is one, and where the body starts. -/
def returnType (ts : Tokens) (i stop : Nat) : Option Text × Nat :=
  if ts.isPunct i ':' then
    let j := firstFrom (fun j => ts.isPunct j '{' || ts.isPunct j ';') (i + 1) stop
    (some (ts.between (i + 1) j).trim, j)
  else (none, i)

/-- `name(params): type` behind the keyword `function`, with a body or a semicolon. -/
def method (ts : Tokens) (start first function : Nat) (modifiers : List Text) (stop : Nat) :
    Except ParseError (Node × Nat) :=
  let name := ts.methodName function stop
  let opening := ts.significant (name.2 + 1) stop
  if !ts.isName name.2 then .error (ts.fault .missingMethodName name.2)
  else if !ts.isPunct opening '(' then .error (ts.fault .missingParameters opening)
  else match ts.matching .round opening stop with
    | .error e => .error e
    | .ok closing =>
      let type := ts.returnType (ts.significant (closing + 1) stop) stop
      match ts.methodBody type.2 stop with
      | .error e => .error e
      | .ok (body?, next) =>
        let decl : Method :=
          { visibility? := modifiers.findSome? Visibility.ofWord?
            modifiers := modifiers.filter fun m => (Visibility.ofWord? m).isNone
            byRef := name.1
            name := ts.text name.2
            params := (ts.between (opening + 1) closing).trim
            returnType? := type.1
            body? := body?
            doc? := ts.lastDoc? start first }
        .ok (.ofSource (.method decl) ⟨start, next⟩ none [], next)

theorem min_le_methodName (ts : Tokens) (function stop : Nat) :
    min function stop ≤ (ts.methodName function stop).2 := by
  have := ts.min_le_significant
  unfold methodName
  grind

theorem min_le_returnType (ts : Tokens) (i stop : Nat) : min i stop ≤ (ts.returnType i stop).2 := by
  have := fun p => min_le_firstFrom p (i + 1) stop
  unfold returnType
  grind

theorem lt_of_method {ts : Tokens} {start first function stop next i : Nat}
    {modifiers : List Text} {n : Node}
    (h : ts.method start first function modifiers stop = .ok (n, next))
    (hi : i ≤ function) (hs : i < stop) : i < next := by
  unfold method at h
  dsimp only at h
  split at h
  · cases h
  split at h
  · cases h
  split at h
  · cases h
  rename_i closing hc
  split at h
  · cases h
  rename_i hb
  have hc := matching_bounds hc
  have hb := lt_of_methodBody hb
  have := ts.min_le_methodName function stop
  have := ts.min_le_significant ((ts.methodName function stop).2 + 1) stop
  have := ts.min_le_significant (closing + 1) stop
  have := ts.min_le_returnType (ts.significant (closing + 1) stop) stop
  cases h
  omega

theorem le_of_skipAttributes {ts : Tokens} {i j stop : Nat} (h : ts.skipAttributes i stop = .ok j) :
    i ≤ j := by
  fun_induction skipAttributes ts i stop <;> grind [significant]

theorem le_of_modifiers (ts : Tokens) (words : List Text) (i stop : Nat) :
    i ≤ (ts.modifiers words i stop).2 := by
  fun_induction modifiers ts words i stop <;> grind [significant]

def member (ts : Tokens) (start first stop : Nat) : Except ParseError (Node × Nat) :=
  match ts.skipAttributes first stop with
  | .error e => .error e
  | .ok i =>
    let m := ts.modifiers memberModifiers i stop
    if ts.isKeyword m.2 "function" then ts.method start first m.2 m.1 stop
    else ts.verbatim start first stop (ts.isKeyword m.2 "use")

theorem lt_of_verbatim {ts : Tokens} {start first stop next : Nat} {block : Bool} {n : Node}
    (h : ts.verbatim start first stop block = .ok (n, next)) : first < next := by
  have := @statementEnd_bounds ts first stop block
  unfold verbatim at h
  grind

theorem lt_of_member {ts : Tokens} {start first stop next : Nat} {n : Node}
    (h : ts.member start first stop = .ok (n, next)) (hf : first < stop) : first < next := by
  unfold member at h
  split at h
  · cases h
  rename_i i hi
  dsimp only at h
  split at h
  · exact lt_of_method h (Nat.le_trans (le_of_skipAttributes hi) (le_of_modifiers ..)) hf
  · exact lt_of_verbatim h

/-- The node and what ends its last line. -/
def withTrailing (ts : Tokens) (stop : Nat) (r : Node × Nat) : Node × Nat :=
  let next := ts.trailing r.2 stop
  match r.1.origin with
  | .anchored a =>
    ({ r.1 with origin := .anchored { a with span := ⟨a.span.start, max a.span.stop next⟩ } }, next)
  | _ => (r.1, next)

theorem le_withTrailing (ts : Tokens) (stop : Nat) (r : Node × Nat) :
    r.2 ≤ (ts.withTrailing stop r).2 := by
  have := le_trailing ts r.2 stop
  unfold withTrailing
  grind

/-- The comments in a range without code, as one node. -/
def closingComments (ts : Tokens) (i stop : Nat) : List Node :=
  let start := ts.leading i stop
  let size := ((ts.extract start stop).toList.reverse.dropWhile (!·.kind.isComment)).length
  if size = 0 then []
  else [.ofSource (.verbatim (ts.between start (start + size))) ⟨start, start + size⟩ none []]

def members (ts : Tokens) (i stop : Nat) : Except ParseError (List Node) :=
  let first := ts.significant i stop
  if hs : first < stop then
    match h : ts.member (ts.leading i first) first stop with
    | .error e => .error e
    | .ok r =>
      have := lt_of_member h hs
      have := le_firstFrom_of_lt hs
      have := ts.le_withTrailing stop r
      match members ts (ts.withTrailing stop r).2 stop with
      | .error e => .error e
      | .ok rest => .ok ((ts.withTrailing stop r).1 :: rest)
  else .ok (ts.closingComments i stop)
termination_by stop - i
decreasing_by simp only [first, significant] at *; omega

/-- Names behind `extends` and behind `implements`, and the index of the brace behind them. -/
def classParents (ts : Tokens) (nameAt stop : Nat) (list? : Option Bool) (i : Nat) :
    Except ParseError (List Text × List Text × Nat) :=
  if ts.isPunct i '{' then .ok ([], [], i)
  else if _ : i < stop then
    let next := ts.significant (i + 1) stop
    have := le_firstFrom ts.isCode (show i + 1 ≤ stop by omega)
    if ts.isKeyword i "extends" then classParents ts nameAt stop (some false) next
    else if ts.isKeyword i "implements" then classParents ts nameAt stop (some true) next
    else if ts.isName i then
      match list? with
      | none => .error (ts.fault .unexpectedClassName i)
      | some isInterface =>
        match classParents ts nameAt stop list? next with
        | .error e => .error e
        | .ok (bases, interfaces, j) =>
          if isInterface then .ok (bases, ts.text i :: interfaces, j)
          else .ok (ts.text i :: bases, interfaces, j)
    else if ts.isPunct i ',' then classParents ts nameAt stop list? next
    else .error (ts.fault .unexpectedClassToken i)
  else .error (ts.fault .missingClassBody nameAt)
termination_by stop - i
decreasing_by all_goals (simp only [significant] at *; omega)

/-- What a class-like declaration starts with. -/
structure ClassStart where
  kind : ClassKind
  modifiers : List Text
  /-- Index of the keyword. -/
  keyword : Nat

def classStart? (ts : Tokens) (first stop : Nat) : Option ClassStart :=
  match ts.skipAttributes first stop with
  | .error _ => none
  | .ok i =>
    let m := ts.modifiers classModifiers i stop
    if ts.isName m.2 && ts.isName (ts.significant (m.2 + 1) stop) then
      (ClassKind.ofKeyword? (ts.text m.2)).map (⟨·, m.1, m.2⟩)
    else none

def classDecl (ts : Tokens) (start : Nat) (c : ClassStart) (stop : Nat) :
    Except ParseError (Node × Nat) :=
  let nameAt := ts.significant (c.keyword + 1) stop
  match ts.classParents nameAt stop none (ts.significant (nameAt + 1) stop) with
  | .error e => .error e
  | .ok (bases, interfaces, opening) =>
    match ts.matching .curly opening stop with
    | .error e => .error e
    | .ok closing =>
      match ts.members (opening + 1) closing with
      | .error e => .error e
      | .ok children =>
        let head : ClassHead := ⟨c.kind, c.modifiers, ts.text nameAt, bases, interfaces⟩
        let body : Span := ⟨opening + 1, closing⟩
        .ok (.ofSource (.classLike head) ⟨start, closing + 1⟩ (some body) children, closing + 1)

theorem le_of_classParents {ts : Tokens} {nameAt stop i j : Nat} {list? : Option Bool}
    {bases interfaces : List Text}
    (h : ts.classParents nameAt stop list? i = .ok (bases, interfaces, j)) : i ≤ j := by
  fun_induction classParents ts nameAt stop list? i generalizing bases interfaces <;>
    grind [significant]

theorem lt_of_classDecl {ts : Tokens} {start first stop next : Nat} {c : ClassStart} {n : Node}
    (h : ts.classDecl start c stop = .ok (n, next)) (hf : first ≤ c.keyword) (hs : first < stop) :
    first < next := by
  unfold classDecl at h
  dsimp only at h
  split at h
  · cases h
  rename_i hp
  split at h
  · cases h
  rename_i hc
  split at h
  · cases h
  have := le_of_classParents hp
  have := matching_bounds hc
  have := ts.min_le_significant (c.keyword + 1) stop
  have := ts.min_le_significant (ts.significant (c.keyword + 1) stop + 1) stop
  cases h
  omega

theorem le_of_classStart? {ts : Tokens} {first stop : Nat} {c : ClassStart}
    (h : ts.classStart? first stop = some c) : first ≤ c.keyword := by
  have := @le_of_skipAttributes ts first
  have := le_of_modifiers ts classModifiers
  unfold classStart? at h
  grind [Option.map_eq_some_iff]

theorem lt_of_importDecl {ts : Tokens} {start first stop next : Nat} {n : Node}
    (h : ts.importDecl start first stop = .ok (n, next)) : first < next := by
  have := @statementEnd_bounds ts first stop false
  have := @lt_of_verbatim ts start first stop
  unfold importDecl at h
  grind

def declaration (ts : Tokens) (start first stop : Nat) : Except ParseError (Node × Nat) :=
  if ts.isKeyword first "use" then ts.importDecl start first stop
  else match ts.classStart? first stop with
    | some c => ts.classDecl start c stop
    | none =>
      match ts.skipAttributes first stop with
      | .error e => .error e
      | .ok head => ts.verbatim start first stop (ts.isBlock head)

theorem lt_of_declaration {ts : Tokens} {start first stop next : Nat} {n : Node}
    (h : ts.declaration start first stop = .ok (n, next)) (hf : first < stop) : first < next := by
  have := @lt_of_importDecl ts start first stop
  have := @lt_of_classDecl ts start first stop
  have := @le_of_classStart? ts first stop
  have := @lt_of_verbatim ts start first stop
  unfold declaration at h
  grind

def isNamespace (ts : Tokens) (i stop : Nat) : Bool :=
  let next := ts.significant (i + 1) stop
  ts.isKeyword i "namespace" && next < stop && (ts.isName next || ts.isPunct next '{')

/-- The declarations of a namespace, and the index behind the last one. Without braces around it a
namespace ends where the next one starts. -/
def declarations (ts : Tokens) (braced : Bool) (i stop : Nat) :
    Except ParseError (List Node × Nat) :=
  let first := ts.significant i stop
  if hs : first < stop then
    if ts.isNamespace first stop then
      if braced then .error (ts.fault .nestedNamespace first) else .ok ([], i)
    else match h : ts.declaration (ts.leading i first) first stop with
      | .error e => .error e
      | .ok r =>
        have := lt_of_declaration h hs
        have := le_firstFrom_of_lt hs
        have := ts.le_withTrailing stop r
        match declarations ts braced (ts.withTrailing stop r).2 stop with
        | .error e => .error e
        | .ok rest => .ok ((ts.withTrailing stop r).1 :: rest.1, rest.2)
  else .ok ([], i)
termination_by stop - i
decreasing_by simp only [first, significant] at *; omega

theorem le_of_declarations {ts : Tokens} {braced : Bool} {i stop next : Nat} {ns : List Node}
    (h : ts.declarations braced i stop = .ok (ns, next)) : i ≤ next := by
  fun_induction declarations ts braced i stop generalizing ns <;> grind [significant]

/-- `name;` or `name {…}` behind the keyword `namespace`. -/
def namespaceDecl (ts : Tokens) (start keyword stop : Nat) : Except ParseError (Node × Nat) :=
  let i := ts.significant (keyword + 1) stop
  let name? := if ts.isName i then some (ts.text i) else none
  let i := if name?.isSome then ts.significant (i + 1) stop else i
  if name?.isSome && ts.isPunct i ';' then
    match ts.declarations false (i + 1) stop with
    | .error e => .error e
    | .ok (children, next) =>
      .ok (.ofSource (.scope name? false) ⟨start, next⟩ (some ⟨i + 1, next⟩) children, next)
  else if !ts.isPunct i '{' then .error (ts.fault .missingNamespaceBody i)
  else match ts.matching .curly i stop with
    | .error e => .error e
    | .ok closing =>
      match ts.declarations true (i + 1) closing with
      | .error e => .error e
      | .ok (children, _) =>
        let body : Span := ⟨i + 1, closing⟩
        .ok (.ofSource (.scope name? true) ⟨start, closing + 1⟩ (some body) children, closing + 1)

theorem lt_of_namespaceDecl {ts : Tokens} {start keyword stop next : Nat} {n : Node}
    (h : ts.namespaceDecl start keyword stop = .ok (n, next)) (hs : keyword < stop) :
    keyword < next := by
  have := ts.min_le_significant
  have := @matching_bounds ts .curly
  have := @le_of_declarations ts false
  unfold namespaceDecl at h
  grind

/-- A namespace, or any other declaration with what ends its last line. -/
def fileItem (ts : Tokens) (start first stop : Nat) : Except ParseError (Node × Nat) :=
  if ts.isNamespace first stop then ts.namespaceDecl start first stop
  else match ts.declaration start first stop with
    | .error e => .error e
    | .ok r => .ok (ts.withTrailing stop r)

theorem lt_of_fileItem {ts : Tokens} {start first stop : Nat} {r : Node × Nat}
    (h : ts.fileItem start first stop = .ok r) (hs : first < stop) : first < r.2 := by
  have := @lt_of_namespaceDecl ts start first stop
  have := @lt_of_declaration ts start first stop
  have := ts.le_withTrailing stop
  unfold fileItem at h
  grind

def fileItems (ts : Tokens) (i stop : Nat) : Except ParseError (List Node) :=
  let first := ts.significant i stop
  if hs : first < stop then
    match h : ts.fileItem (ts.leading i first) first stop with
    | .error e => .error e
    | .ok r =>
      have := lt_of_fileItem h hs
      have := le_firstFrom_of_lt hs
      match fileItems ts r.2 stop with
      | .error e => .error e
      | .ok rest => .ok (r.1 :: rest)
  else .ok []
termination_by stop - i
decreasing_by simp only [first, significant] at *; omega

/-- The code of a file: from behind its first open tag up to the close tag with nothing but text
behind it, if there is one. -/
def codeSpan? (ts : Tokens) : Option Span :=
  (ts.findIdx? (·.kind == .openTag)).map fun first =>
    let last := ts.size - 1 - (ts.toList.reverse.findIdx (·.kind == .openTag))
    ⟨first + 1, firstFrom (ts.kind? · == some .closeTag) (last + 1) ts.size⟩

def file (ts : Tokens) : Except ParseError Node :=
  match ts.codeSpan? with
  | none => .error (ts.fault .missingOpenTag 0)
  | some body =>
    match ts.fileItems body.start body.stop with
    | .error e => .error e
    | .ok children => .ok (.ofSource .file ⟨0, ts.size⟩ (some body) children)

end Tokens

def Source.parse (text : Text) : Except ParseError Source :=
  match lex text with
  | .error e => .error e
  | .ok tokens =>
    match Tokens.file tokens.toArray with
    | .error e => .error e
    | .ok root => .ok ⟨tokens.toArray, .ofRoot root⟩

/-- The statements of a fragment; an open tag in front of them is ignored. -/
def parseFragment (code : Text) : Except ParseError (List Text) :=
  let trimmed := code.trimStart
  let code := if Text.lower (trimmed.take 5) = "<?php" then trimmed.drop 5 else code
  match lexCode code with
  | .error e => .error e
  | .ok tokens => Tokens.statements tokens.toArray 0 tokens.length

end PhpGraft
