import PhpGraft.Fault
import PhpGraft.Token

/-!
Searching a range of tokens: the next code, the bracket that closes another, the end of a statement.
Every search ends inside its range or at its end.
-/
namespace PhpGraft

inductive Delimiter where
  | opening (bracket : Bracket)
  | closing (bracket : Bracket)
  | semicolon
  deriving DecidableEq, Repr

def Delimiter.ofChar? : Char → Option Delimiter
  | '(' => some (.opening .round)
  | '[' => some (.opening .square)
  | '{' => some (.opening .curly)
  | ')' => some (.closing .round)
  | ']' => some (.closing .square)
  | '}' => some (.closing .curly)
  | ';' => some .semicolon
  | _ => none

/-- A close tag ends a statement like a semicolon does. -/
def Token.delimiter? (t : Token) : Option Delimiter :=
  match t.kind, t.text with
  | .punct, [c] => Delimiter.ofChar? c
  | .closeTag, _ => some .semicolon
  | _, _ => none

/-- The first index from `i` on that satisfies `p`, or else `stop`. -/
def firstFrom (p : Nat → Bool) (i stop : Nat) : Nat :=
  if i < stop then
    if p i then i else firstFrom p (i + 1) stop
  else stop
termination_by stop - i

theorem firstFrom_le (p : Nat → Bool) (i stop : Nat) : firstFrom p i stop ≤ stop := by
  fun_induction firstFrom p i stop with
  | case1 => omega
  | case2 _ _ _ ih => exact ih
  | case3 => exact Nat.le_refl _

theorem le_firstFrom (p : Nat → Bool) {i stop : Nat} (h : i ≤ stop) : i ≤ firstFrom p i stop := by
  fun_induction firstFrom p i stop with
  | case1 => exact Nat.le_refl _
  | case2 _ hlt _ ih => have := ih hlt; omega
  | case3 => exact h

theorem min_le_firstFrom (p : Nat → Bool) (i stop : Nat) : min i stop ≤ firstFrom p i stop := by
  by_cases hi : i ≤ stop
  · have := le_firstFrom p hi; omega
  · unfold firstFrom; grind

theorem le_firstFrom_of_lt {p : Nat → Bool} {i stop : Nat} (h : firstFrom p i stop < stop) :
    i ≤ firstFrom p i stop := by
  by_cases hi : i ≤ stop
  · exact le_firstFrom p hi
  · unfold firstFrom at h; grind

namespace Tokens

def delimiter? (ts : Tokens) (i : Nat) : Option Delimiter := ts[i]?.bind Token.delimiter?

def fault (ts : Tokens) (f : Fault) (i : Nat) : ParseError := ⟨f, .after (ts.between 0 i)⟩

/-- The first code from `i` on. -/
def significant (ts : Tokens) (i stop : Nat) : Nat := firstFrom ts.isCode i stop

theorem min_le_significant (ts : Tokens) (i stop : Nat) : min i stop ≤ ts.significant i stop :=
  min_le_firstFrom ..

/-- The first comment from `i` on: comments belong to the node behind them. -/
def leading (ts : Tokens) (i stop : Nat) : Nat := firstFrom ts.isComment i stop

/-- Behind the line comment that ends the line of index `i`, or else `i` itself. -/
def trailing (ts : Tokens) (i stop : Nat) : Nat :=
  let j := if ts.kind? i == some .whitespace && !(ts.text i).contains '\n' then i + 1 else i
  if j < stop ∧ ts.kind? j = some .lineComment then j + 1 else i

theorem le_trailing (ts : Tokens) (i stop : Nat) : i ≤ ts.trailing i stop := by
  unfold trailing; grind

/-- The keywords that carry a block statement on behind its closing brace. -/
def continuations : List Text := ["else", "elseif", "catch", "finally"]

def continues (ts : Tokens) (i stop : Nat) : Bool :=
  let next := ts.significant i stop
  next < stop && ts.isOneOf next continuations

/-- The open brackets, innermost first, each with its index, once bracket `b` closed at `i`. -/
def close (ts : Tokens) (stack : List (Bracket × Nat)) (b : Bracket) (i : Nat) :
    Except ParseError (List (Bracket × Nat)) :=
  match stack with
  | [] => .error (ts.fault (.unexpected b) i)
  | (opened, _) :: stack =>
    if opened = b then .ok stack else .error (ts.fault (.mismatched opened b) i)

def statementEndFrom (ts : Tokens) (first stop : Nat) (block : Bool)
    (stack : List (Bracket × Nat)) (i : Nat) : Except ParseError Nat :=
  if i < stop then
    match ts.delimiter? i with
    | none => statementEndFrom ts first stop block stack (i + 1)
    | some (.opening b) => statementEndFrom ts first stop block ((b, i) :: stack) (i + 1)
    | some (.closing b) =>
      match ts.close stack b i with
      | .error e => .error e
      | .ok stack =>
        if b = .curly ∧ block ∧ stack.isEmpty ∧ !ts.continues (i + 1) stop then .ok (i + 1)
        else statementEndFrom ts first stop block stack (i + 1)
    | some .semicolon =>
      if stack.isEmpty then .ok (i + 1)
      else statementEndFrom ts first stop block stack (i + 1)
  else match stack with
    | (b, j) :: _ => .error (ts.fault (.unclosed b) j)
    | [] => .error (ts.fault .missingSemicolon first)
termination_by stop - i

/-- Behind the statement that starts at `first`: after its semicolon outside of all brackets or,
for a block statement, after the closing brace that no `else`, `catch` or the like carries on. -/
def statementEnd (ts : Tokens) (first stop : Nat) (block : Bool) : Except ParseError Nat :=
  ts.statementEndFrom first stop block [] first

theorem statementEndFrom_bounds {ts : Tokens} {first stop : Nat} {block : Bool}
    {stack : List (Bracket × Nat)} {i n : Nat}
    (h : ts.statementEndFrom first stop block stack i = .ok n) : i < n ∧ n ≤ stop := by
  fun_induction statementEndFrom ts first stop block stack i <;> grind

theorem statementEnd_bounds {ts : Tokens} {first stop : Nat} {block : Bool} {n : Nat}
    (h : ts.statementEnd first stop block = .ok n) : first < n ∧ n ≤ stop :=
  statementEndFrom_bounds h

def matchingFrom (ts : Tokens) (opened : Bracket) (first stop : Nat)
    (stack : List (Bracket × Nat)) (i : Nat) : Except ParseError Nat :=
  if i < stop then
    match ts.delimiter? i with
    | some (.opening b) => matchingFrom ts opened first stop ((b, i) :: stack) (i + 1)
    | some (.closing b) =>
      match ts.close stack b i with
      | .error e => .error e
      | .ok stack =>
        if stack.isEmpty then .ok i else matchingFrom ts opened first stop stack (i + 1)
    | _ => matchingFrom ts opened first stop stack (i + 1)
  else .error (ts.fault (.unclosed opened) first)
termination_by stop - i

/-- The bracket that closes the one at index `first`. -/
def matching (ts : Tokens) (opened : Bracket) (first stop : Nat) : Except ParseError Nat :=
  ts.matchingFrom opened first stop [] first

theorem matchingFrom_bounds {ts : Tokens} {opened : Bracket} {first stop : Nat}
    {stack : List (Bracket × Nat)} {i n : Nat}
    (h : ts.matchingFrom opened first stop stack i = .ok n) : i ≤ n ∧ n < stop := by
  fun_induction matchingFrom ts opened first stop stack i <;> grind

theorem matching_bounds {ts : Tokens} {opened : Bracket} {first stop n : Nat}
    (h : ts.matching opened first stop = .ok n) : first ≤ n ∧ n < stop :=
  matchingFrom_bounds h

end Tokens
end PhpGraft
