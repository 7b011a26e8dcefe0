import Lox.Number.Notation
import Lox.Value.Basic

/-!
# The text of a value

What `print` writes for a value. A function and an instance are shown by a name only, so the text of
a value does not depend on the store.
-/

namespace Lox

namespace Value

/-- The text of a value. -/
def text : Value → String
  | .number x => numberText x
  | .string s => s
  | .nil => "nil"
  | .boolean true => "true"
  | .boolean false => "false"
  | .native _ => "<native fn>"
  | .function _ closure => "<fn " ++ closure.name ++ ">"
  | .class cls => cls.name
  | .instance object => object.cls.name ++ " instance"

end Value

end Lox
