/-
  Settle.Policy.Layer — settings laid over each other in four layers.

  A setting is taken from the highest layer that sets it: the provider, the overrides
  of one module, the overrides of all modules, and last the builtin value, into which
  the module's own options are written. A resolved record names the highest of the
  three override layers that set any field of it.
-/

import Settle.Value

namespace Settle.Policy

/-- Where a resolved record comes from, lowest first. -/
inductive Layer where
  | builtin
  | engineDefault
  | engineModule
  | provider
  deriving DecidableEq, Repr

def Layer.name : Layer → String
  | .builtin => "builtin"
  | .engineDefault => "runtime_default"
  | .engineModule => "runtime_module"
  | .provider => "provider"

def Layer.toValue (l : Layer) : Value := .str l.name

/-- The override layers above the builtin one; a layer may be missing. -/
structure Layers (P : Type) where
  engineDefault : Option P
  engineModule : Option P
  provider : Option P

namespace Layers

/-- The layers that are there, lowest first. -/
def toList {P : Type} (l : Layers P) : List (Layer × P) :=
  [(Layer.engineDefault, l.engineDefault), (.engineModule, l.engineModule), (.provider, l.provider)].filterMap
    fun (s, p) => p.map fun p => (s, p)

def map {P Q : Type} (f : P → Q) (l : Layers P) : Layers Q :=
  ⟨l.engineDefault.map f, l.engineModule.map f, l.provider.map f⟩

end Layers

/-- A record and the layer it is reported to come from. -/
structure Resolved (T : Type) where
  value : T
  layer : Layer

/-- Lay the patches over the builtin value. `apply` writes the fields a patch sets and
`sets` tells whether it sets any. -/
def resolve {T P : Type} (builtin : T) (apply : P → T → T) (sets : P → Bool) (options : P)
    (layers : Layers P) : Resolved T :=
  layers.toList.foldl
    (fun r (layer, p) => ⟨apply p r.value, if sets p then layer else r.layer⟩)
    ⟨apply options builtin, .builtin⟩

end Settle.Policy
