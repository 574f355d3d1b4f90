import TypeComments.Tree.Basic
import TypeComments.Text.Basic

/-! The services of the program that asks for a check. Types are never computed here: a type
checker tells the type of a node, and a language service tells what an editor would show at an
offset. -/

namespace TypeComments

structure TypeChecker where
  containsFile : (file : Text) → Bool
  typeText : NodeId → Option Text

/-- What an editor shows at a place, in parts. -/
structure QuickInfo where
  parts : List Text
  deriving DecidableEq, Repr

def QuickInfo.text (info : QuickInfo) : Text := info.parts.flatten

structure LanguageService where
  quickInfo : (file : Text) → (offset : Nat) → Option QuickInfo

/-- One file and all that is known about it. -/
structure FileContext where
  file : Text
  source : Text
  tree : SyntaxTree
  checker : TypeChecker
  service : LanguageService
  /-- Where the compiler reported something. -/
  diagnostics : List Span

namespace FileContext

/-- The type of a node; a node without a type has the empty text. -/
def typeText (ctx : FileContext) (n : NodeId) : Text := (ctx.checker.typeText n).getD []

def quickInfo? (ctx : FileContext) (n : NodeId) : Option Text :=
  (ctx.service.quickInfo ctx.file (ctx.tree.span n).start).map QuickInfo.text

end FileContext
end TypeComments
