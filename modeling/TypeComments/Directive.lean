import TypeComments.Text.Blank

/-! What a comment can ask for. The body of a comment is a directive when it is one of

    $ExpectType <type>
    $ExpectTypeSnapshot <name>
    $ExpectError
      ^? <type>

One space may stand before `$Expect…`, any number before `^?`. A keyword is followed by the end of
the body or by a space; the rest of the body, trimmed, is its argument, and a blank argument is a
missing one. -/

namespace TypeComments

inductive Directive
  | expectType (expected : Option Text)
  | expectTypeSnapshot (name : Option Text)
  | expectError
  /-- `indent` spaces, `^?`, and then `rest`. -/
  | caret (indent : Nat) (rest : Text)
  deriving DecidableEq, Repr

namespace Directive

/-- What follows a keyword: nothing, or a space and the argument. Any other text means that the
keyword was only the beginning of a longer word. -/
def argument? : Text → Option (Option Text)
  | [] => some none
  | ' ' :: tail => some (if Text.trim tail = [] then none else some (Text.trim tail))
  | _ => none

def keyword? (keyword : Text) (build : Option Text → Directive) (t : Text) : Option Directive :=
  ((Text.strip? keyword t).bind argument?).map build

def dropSpace : Text → Text
  | ' ' :: t => t
  | t => t

def marker : Text := "$Expect".toList

def expect? (body : Text) : Option Directive :=
  (Text.strip? marker (dropSpace body)).bind fun t =>
    (keyword? "TypeSnapshot".toList expectTypeSnapshot t).or <|
      (keyword? "Type".toList expectType t).or <|
        keyword? "Error".toList (fun _ => expectError) t

def caretMark : Text := "^?".toList

def caret? (body : Text) : Option Directive :=
  (Text.strip? caretMark (body.dropWhile (· = ' '))).map
    (caret (body.takeWhile (· = ' ')).length)

def ofBody? (body : Text) : Option Directive := (expect? body).or (caret? body)

/-- Could the text hold a directive at all? -/
def mayOccur (source : Text) : Bool := Text.holds marker source || Text.holds caretMark source

end Directive
end TypeComments
