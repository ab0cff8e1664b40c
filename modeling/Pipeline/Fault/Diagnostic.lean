import Pipeline.Decl.Signature
import Pipeline.Fault.Evaluation
import Pipeline.Fault.Reading

/-!
# Diagnostics

A diagnostic is a fault in a document together with the place it stands at: the document and the
path of keys inside it.
-/

set_option autoImplicit false
set_option relaxedAutoImplicit false

namespace Pipeline

/-- A place in a document. -/
structure Location where
  document : String
  path : List String
deriving DecidableEq, Repr

namespace Location

/-- A whole document. -/
def ofDocument (document : String) : Location := ⟨document, []⟩

/-- The place one key deeper. -/
def child (l : Location) (key : String) : Location := ⟨l.document, l.path ++ [key]⟩

/-- The place of the item at a position. -/
def atIndex (l : Location) (i : Nat) : Location := l.child (Text.natText i)

/-- The text of a place. -/
def text (l : Location) : String :=
  if l.path.isEmpty then l.document else l.document ++ ": " ++ Text.join "." l.path

end Location

/-- What kinds of names must differ from one another. -/
inductive Namespace where
  | type
  | extension
  | module
  | impl
  | binding
  | method
deriving DecidableEq, Repr

/-- The word for a kind of names. -/
def Namespace.text : Namespace → String
  | type => "type"
  | extension => "extension"
  | module => "module"
  | impl => "impl"
  | binding => "binding"
  | method => "method"

/-- Why a declaration cannot stand. -/
inductive DeclFault where
  | unsupportedVersion (found supported : String)
  | misplacedSection (section_ kind : String)
  | misnamedComponent (name module : String)
  | globRenamed (written : String)
  | cannotParse (written : String) (error : ParseError)
  | notAType (name : String)
  | notATrait (name : String)
  | genericTwice
  | boundsOnParameters
  | shapes
  | variantTwice
  | inherentTarget
  | inherentSignature
  | extensionSignature
  | traitArguments (name : String) (expected given : Nat)
  | traitArgumentNeeded (parameter : String)
  | missingAssoc (assoc name : String)
  | unknownAssoc (name assoc : String)
  | notAMethod (method name : String)
  | signatureMismatch (declared : MethodSig)
  | missingMethod (method name : String)
  | notTransparent (target : Ty)
  | wraps (target inner : Ty)
  | sourceWithoutItem
  | sinkWithoutInput
  | transformWithoutTypes
  | privateField (field path : String)
  | notAPipeline (module : String)
  | moduleNotLoaded (module : String)
  | genericArguments (path : String) (expected given : Nat)
  | genericArgumentNeeded (path parameter : String)
  | noParameters (ty : Ty)
deriving Repr

namespace DeclFault

/-- The fault in words. -/
def text : DeclFault → String
  | unsupportedVersion found supported =>
    "unsupported document version '" ++ found ++ "', expected '" ++ supported ++ "'"
  | misplacedSection name kind => "section `" ++ name ++ "` is not allowed in a " ++ kind ++ " document"
  | misnamedComponent name module =>
    "component '" ++ name ++ "' must be named after its module '" ++ module ++ "'"
  | globRenamed written => "glob import `" ++ written ++ "` cannot be renamed"
  | cannotParse written error => "cannot parse `" ++ written ++ "`: " ++ error.message
  | notAType name => "'" ++ name ++ "' is not a type"
  | notATrait name => "'" ++ name ++ "' is not a trait"
  | genericTwice => "generic parameter declared twice"
  | boundsOnParameters => "bounds belong on impls, not on type parameters"
  | shapes => "a type has at most one of `fields`, `variants`, `inner` and `alias`"
  | variantTwice => "variant declared twice"
  | inherentTarget => "inherent impls need a named target type"
  | inherentSignature => "inherent methods need a full signature"
  | extensionSignature => "extension methods need a full signature"
  | traitArguments name expected given =>
    "'" ++ name ++ "' takes " ++ Text.natText expected ++ " arguments, " ++ Text.natText given ++
      " given"
  | traitArgumentNeeded parameter => "trait parameter '" ++ parameter ++ "' needs an argument"
  | missingAssoc assoc name => "missing associated type '" ++ assoc ++ "' of '" ++ name ++ "'"
  | unknownAssoc name assoc => "'" ++ name ++ "' has no associated type '" ++ assoc ++ "'"
  | notAMethod method name => "'" ++ method ++ "' is not a method of '" ++ name ++ "'"
  | signatureMismatch declared => "signature does not match '" ++ declared.text ++ "'"
  | missingMethod method name => "missing method '" ++ method ++ "' of '" ++ name ++ "'"
  | notTransparent target => "'" ++ target.text ++ "' is not a transparent type"
  | wraps target inner => "'" ++ target.text ++ "' wraps '" ++ inner.text ++ "'"
  | sourceWithoutItem => "a source needs `item` or `columns`"
  | sinkWithoutInput => "a sink needs an `input` type"
  | transformWithoutTypes => "a transform needs `input` and `output` types"
  | privateField field path => "field '" ++ field ++ "' of '" ++ path ++ "' is private"
  | notAPipeline module => "'" ++ module ++ "' is not a main document and declares no pipeline"
  | moduleNotLoaded module => "module '" ++ module ++ "' is not loaded"
  | genericArguments path expected given =>
    "'" ++ path ++ "' takes " ++ Text.natText expected ++ " generic arguments, found " ++
      Text.natText given
  | genericArgumentNeeded path parameter =>
    "'" ++ path ++ "' needs an explicit argument for '" ++ parameter ++ "'"
  | noParameters ty =>
    "'" ++ ty.text ++ "' has no parameters to bind; construct it with host code"

end DeclFault

/-- Why a written expression, field value or pipe cannot be used. -/
inductive ExprFault where
  | parse (error : ParseError)
  | evaluation (error : EvalError)
  | recordKeys
  | tagged
  | pipeStages
deriving Repr

namespace ExprFault

/-- The fault in words. -/
def text : ExprFault → String
  | parse error => error.message
  | evaluation error => error.message
  | recordKeys => "record field names must be strings"
  | tagged => "tagged values are not supported"
  | pipeStages => "a pipe needs at least two stages separated by '->'"

end ExprFault

/-- Why one stage of a pipe cannot feed the next. -/
inductive PipeFault where
  | noItems (producer : Ty)
  | rejected (consumer item : Ty)
  | mismatch (expected found : String)
deriving DecidableEq, Repr

namespace PipeFault

/-- The fault in words. -/
def text : PipeFault → String
  | noItems producer =>
    "'" ++ producer.text ++ "' produces no items: it is neither a source nor a transform"
  | rejected consumer item =>
    "'" ++ consumer.text ++ "' does not accept items of type '" ++ item.text ++ "'"
  | mismatch expected found => "expected '" ++ expected ++ "', found '" ++ found ++ "'"

end PipeFault

/-- A fault. -/
inductive ErrorKind where
  | duplicateDeclaration (name : String) (namespace_ : Namespace)
  | unknownImport (path : String)
  | notImplemented (ty traitRef : String)
  | noMethod (ty method : String)
  | ambiguous (subject : String) (candidates : List String) (requiresQualification : Bool)
  | missingRequiredParam (field : String)
  | unknownParam (field : String)
  | typeMismatch (expected found : String)
  | checkViolation (field predicate : String)
  | crossFieldCheckViolation (predicate : String)
  | unresolvedReference (name : String)
  | cyclicBinding (names : List String)
  | pipelineTypeError (producer consumer : String) (reason : PipeFault)
  | invalidDeclaration (reason : DeclFault)
  | invalidExpression (source : String) (reason : ExprFault)
  | aborted (reason : String)
  | io (reason : String)
  | parse (fault : ReadFault)
deriving Repr

namespace ErrorKind

/-- The fault in words. -/
def text : ErrorKind → String
  | duplicateDeclaration name ns => "duplicate " ++ ns.text ++ " declaration '" ++ name ++ "'"
  | unknownImport path => "unknown import '" ++ path ++ "'"
  | notImplemented ty traitRef => "'" ++ ty ++ "' does not implement '" ++ traitRef ++ "'"
  | noMethod ty method => "no method '" ++ method ++ "' on '" ++ ty ++ "'"
  | ambiguous subject candidates requiresQualification =>
    "ambiguous " ++ subject ++ ": candidates are " ++ Text.join ", " candidates ++
      (if requiresQualification then " (qualify the call)" else "")
  | missingRequiredParam field => "missing required parameter '" ++ field ++ "'"
  | unknownParam field => "unknown parameter '" ++ field ++ "'"
  | typeMismatch expected found =>
    "type mismatch: expected '" ++ expected ++ "', found '" ++ found ++ "'"
  | checkViolation field predicate => "check on '" ++ field ++ "' failed: " ++ predicate
  | crossFieldCheckViolation predicate => "check failed: " ++ predicate
  | unresolvedReference name => "unresolved reference '" ++ name ++ "'"
  | cyclicBinding names =>
    "cyclic binding: " ++ Text.join " -> " names ++ " -> " ++ names.head?.getD ""
  | pipelineTypeError producer consumer reason =>
    "'" ++ producer ++ "' cannot feed '" ++ consumer ++ "': " ++ reason.text
  | invalidDeclaration reason => "invalid declaration: " ++ reason.text
  | invalidExpression source reason => "invalid expression '" ++ source ++ "': " ++ reason.text
  | aborted reason => "aborted: " ++ reason
  | io reason => "cannot read document: " ++ reason
  | parse fault => "cannot parse document: " ++ fault.text

/-- An abort raised by declared code ends the processing of its document. -/
def isTerminal : ErrorKind → Bool
  | aborted _ => true
  | _ => false

end ErrorKind

/-- The fault that a failed evaluation of a written expression is. -/
def EvalError.toKind (source : String) : EvalError → ErrorKind
  | unknownName name => .unresolvedReference name
  | noMethod ty method => .noMethod ty method
  | ambiguousCall ty method candidates =>
    .ambiguous ("call to '" ++ method ++ "' on '" ++ ty ++ "'") candidates true
  | aborted reason => .aborted reason
  | other => .invalidExpression source (.evaluation other)

/-- A fault at its place. -/
structure Diagnostic where
  location : Location
  kind : ErrorKind
deriving Repr

/-- The text of a diagnostic. -/
def Diagnostic.text (d : Diagnostic) : String := d.location.text ++ ": " ++ d.kind.text

end Pipeline
