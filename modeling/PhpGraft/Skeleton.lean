import PhpGraft.Error
import PhpGraft.Layout

/-!
A new file that declares an empty class.
-/
namespace PhpGraft

structure Skeleton where
  /-- Empty for a class outside of namespaces. -/
  scope : Text
  name : Text
  deriving DecidableEq, Repr

namespace Skeleton

def tree (s : Skeleton) : Tree :=
  let node (decl : Decl) (children : List Node) : Node := ⟨0, .synthesized, decl, children⟩
  let declared := node (.classLike (.ofName s.name)) []
  let top := if s.scope.isEmpty then declared else node (.scope (some s.scope) false) [declared]
  .ofRoot (node .file [top])

/-- The text of the file. -/
def generate (s : Skeleton) (style : Style) : Except Error Text :=
  let scope := Name.normalize s.scope
  if !scope.isEmpty && !Name.isQualified scope then .error (.invalidName .scope scope)
  else if !Name.isIdentifier s.name then .error (.invalidName .classLike s.name)
  else .ok ((tree ⟨scope, s.name⟩).print style)

end Skeleton
end PhpGraft
