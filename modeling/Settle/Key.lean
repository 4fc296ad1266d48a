/-
  Settle.Key — the address of a module instance.
-/

import Settle.Value

namespace Settle

/-- A module and one of its instances. -/
structure Key where
  moduleId : String
  instanceId : String
  deriving DecidableEq, Inhabited, Repr

namespace Key

def text (k : Key) : String := k.moduleId ++ "::" ++ k.instanceId

/-- The order of module, then instance. -/
def le (a b : Key) : Bool :=
  if a.moduleId = b.moduleId then decide (a.instanceId ≤ b.instanceId) else decide (a.moduleId < b.moduleId)

def toValue (k : Key) : Value := .record [("module_id", .str k.moduleId), ("instance_id", .str k.instanceId)]

end Key

end Settle
