import PhpGraft.DocBlock
import PhpGraft.Skeleton

/-!
Edits as data.
-/
namespace PhpGraft

structure NewMethod where
  visibility : Visibility := .pub
  name : Text
  /-- Statements, without the braces around them. -/
  body : Text := []
  doc : DocBlock := {}
  deriving Repr

inductive Operation where
  | addMethod (method : NewMethod)
  | addImports (names : List Text)
  deriving Repr

/-- Operations on one file, which is made from `create?` first if it is missing. -/
structure Batch where
  path : Text
  create? : Option Skeleton
  operations : List Operation
  deriving Repr

end PhpGraft
