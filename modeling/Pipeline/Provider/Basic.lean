import Pipeline.Document.Reader
import Pipeline.File.Basic

/-!
# Providers of documents

A provider supplies documents by the paths of their modules.
-/

set_option autoImplicit false
set_option relaxedAutoImplicit false

namespace Pipeline

/-- Why a provider cannot supply what it is asked for. -/
inductive ProviderFault where
  | unreadable (path : String) (fault : FileFault)
  | malformed (origin : String) (fault : ReadFault)
  | outsideRoot (path : String)
deriving DecidableEq, Repr

namespace ProviderFault

/-- The fault in words. -/
def text : ProviderFault → String
  | unreadable path fault => "cannot read " ++ path ++ ": " ++ fault.text
  | malformed origin fault => "cannot parse " ++ origin ++ ": " ++ fault.text
  | outsideRoot path => path ++ " is outside the project root"

/-- What the fault is to those who asked. -/
def toKind : ProviderFault → ErrorKind
  | malformed _ fault => .parse fault
  | fault => .io fault.text

/-- The fault, reported under the name of what was asked for. -/
def toDiagnostic (name : String) (fault : ProviderFault) : Diagnostic :=
  ⟨Location.ofDocument name, fault.toKind⟩

end ProviderFault

/-- A supply of documents. -/
structure Provider where
  /-- The name under which faults that belong to no document are reported. -/
  name : String
  /-- The modules that can be asked for. -/
  modules : Except ProviderFault (List String)
  /-- The document of a module, if there is one for it. -/
  fetch : String → Option (Except ProviderFault Document)

namespace Provider

/-- Reads a text that was found for a module. -/
def readDocument (module origin text : String) : Except ProviderFault Document :=
  (Document.read module origin text).mapError fun fault => .malformed origin fault

end Provider
end Pipeline
