import Pipeline.Data.NameMap
import Pipeline.Provider.Basic

/-!
# Documents in memory
-/

set_option autoImplicit false
set_option relaxedAutoImplicit false

namespace Pipeline.Provider

/-- The provider of texts that are at hand under the paths of their modules. -/
def ofTexts (name : String) (texts : NameMap String) : Provider where
  name := name
  modules := .ok texts.names
  fetch module := (texts.get? module).map (readDocument module (name ++ ":" ++ module))

end Pipeline.Provider
