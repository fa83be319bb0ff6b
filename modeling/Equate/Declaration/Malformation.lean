import Equate.Declaration.Strategy
import Equate.Diagnostic.Basic
import Equate.Node.Printer
/-!
# Malformed declarations

What can be wrong with the form of a declaration. All of these break the one rule
`malformedDeclaration`; they differ in message and hint.
-/

namespace Equate

inductive Malformation where
  | notAModule
  | emptyForm
  | unknownForm (form : Node)
  | expectedKeyword (head : Bytes)
  | missingValue (key : Bytes)
  | notABoolean (key : Bytes)
  | notAVector (key : Bytes)
  | missingClassName
  | missingEnumerationName
  | missingFunctionName
  | missingConstantName
  | missingMemberName (kind : Bytes)
  | missingType (kind member : Bytes)
  | invalidType (member : Bytes)
  | invalidEquality (member : Bytes)
  | invalidStrategy (fault : StrategyFault)
  | unknownSetter (value : Node)
  | invalidWrappedType
  | invalidBase
  | notAMember (form : Node)
  | notAFunction
  | notAConstant
  | duplicateMember (name : Bytes)
  | duplicateDeclaration (name : Bytes)

namespace Malformation

/-- The head of a form if it has one, else the form as text. -/
def formName (form : Node) : Bytes := if form.head.isEmpty then form.text else form.head

def message : Malformation → Bytes
  | .notAModule => "expected (module ...)"
  | .emptyForm => "empty declaration form"
  | .unknownForm form => utf8 "unknown declaration form '" ++ formName form ++ utf8 "'"
  | .expectedKeyword head => utf8 "expected keyword in (" ++ head ++ utf8 " ...)"
  | .missingValue key => utf8 "option :" ++ key ++ utf8 " has no value"
  | .notABoolean key => utf8 ":" ++ key ++ utf8 " expects true or false"
  | .notAVector key => utf8 ":" ++ key ++ utf8 " expects a vector"
  | .missingClassName => "class missing :name"
  | .missingEnumerationName => "enumeration missing :name"
  | .missingFunctionName => "fn missing :name"
  | .missingConstantName => "constant missing :name"
  | .missingMemberName kind => kind ++ utf8 " missing :name"
  | .missingType kind member => kind ++ utf8 " '" ++ member ++ utf8 "' missing :type"
  | .invalidType member => utf8 "invalid :type form on '" ++ member ++ utf8 "'"
  | .invalidEquality member => utf8 "invalid :equality on '" ++ member ++ utf8 "'"
  | .invalidStrategy fault => fault.message
  | .unknownSetter value => utf8 "unknown :setter '" ++ value.text ++ utf8 "'"
  | .invalidWrappedType => "invalid wrapped type in (wrapper ...)"
  | .invalidBase => "invalid :base form"
  | .notAMember _ => "member form must be (field ...), (property ...) or (method ...)"
  | .notAFunction => "function form must be (fn :name F ...)"
  | .notAConstant => "enumeration entry must be (constant :name C :args [...])"
  | .duplicateMember name => utf8 "duplicate member name '" ++ name ++ utf8 "'"
  | .duplicateDeclaration name => utf8 "duplicate declaration '" ++ name ++ utf8 "'"

/-- What a vector-valued option should look like. -/
def vectorHint (key : Bytes) : Bytes :=
  if key = utf8 "attrs" then "write :attrs [value-object]"
  else if key = utf8 "members" then "write :members [(field ...) ...]"
  else if key = utf8 "functions" then "write :functions [(fn :name F) ...]"
  else "write :constants [(constant :name C :args [1 \"C\"]) ...]"

def hint : Malformation → Bytes
  | .notAModule => "start the file with (module <declaration>*)"
  | .emptyForm | .notABoolean _ | .missingFunctionName | .missingConstantName | .notAFunction
  | .notAConstant => []
  | .unknownForm _ => "expected (class ...) or (enumeration ...)"
  | .expectedKeyword _ => "write options as :key value pairs"
  | .missingValue key => utf8 "supply a value after :" ++ key
  | .notAVector key => vectorHint key
  | .missingClassName => "expected (class :name T ...)"
  | .missingEnumerationName => "expected (enumeration :name E ...)"
  | .missingMemberName kind => utf8 "expected (" ++ kind ++ utf8 " :name x ...)"
  | .missingType _ _ => "add :type <type-form>"
  | .invalidType _ => "use a scalar, string, (seq T) or a type name"
  | .invalidEquality _ => "use one strategy form or a vector of them"
  | .invalidStrategy _ => "strategies: (include) (ignore) (sequence) (custom)"
  | .unknownSetter _ => "use none, init or set"
  | .invalidWrappedType => "write (wrapper <type>)"
  | .invalidBase => "use value-object, (wrapper <type>) or a base name"
  | .notAMember form => utf8 "found " ++ form.text
  | .duplicateMember _ => "member names must be unique within a declaration"
  | .duplicateDeclaration _ => "declaration names must be unique within a module"

end Malformation

/-- A malformation at its place. -/
structure Finding where
  fault : Malformation
  location : Location
  notes : List Note := []

/-- The diagnostic for a finding. -/
def Finding.diagnostic (rep : Reporter) (f : Finding) : Diagnostic :=
  rep.diagnose .malformedDeclaration f.fault.message f.fault.hint f.location f.notes

end Equate
