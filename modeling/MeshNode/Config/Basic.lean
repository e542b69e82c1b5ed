import MeshNode.Binding

/-! # Configuration

The tunables of a node, with their defaults, and everything that can be wrong with them.
-/

namespace MeshNode

/-- The tunables of a node. -/
structure Config where
  /-- How many bindings can be registered. -/
  bindingCapacity : UInt64 := 30
  /-- How long a transaction is remembered, in milliseconds. -/
  dedupTimeout : UInt32 := 6000
  /-- The scene slots of each instance that supports scenes. -/
  sceneSlots : UInt64 := 16
  /-- The length of an interim step of a long numeric transition, in milliseconds. -/
  stepInterval : UInt32 := 1000
  /-- The time between two updates of a move, in milliseconds. -/
  moveInterval : UInt32 := 100
  maxBindDepth : UInt64 := 2
  /-- How many changes each instance remembers. -/
  historyLimit : UInt64 := 32
  deriving DecidableEq

inductive ConfigProblem where
  | bindingCapacity (capacity : UInt64)
  | zeroTransactionTimeout
  | zeroStepInterval
  | zeroMoveInterval
  | zeroBindDepth
  deriving DecidableEq

namespace ConfigProblem

def name : ConfigProblem → String
  | bindingCapacity _ => "BindingCapacity"
  | zeroTransactionTimeout => "ZeroTransactionTimeout"
  | zeroStepInterval => "ZeroStepInterval"
  | zeroMoveInterval => "ZeroMoveInterval"
  | zeroBindDepth => "ZeroBindDepth"

def message : ConfigProblem → String
  | bindingCapacity c =>
    "binding capacity " ++ toString c.toNat ++ " exceeds the maximum of " ++
      toString BindingTable.maxCapacity
  | zeroTransactionTimeout => "transaction timeout must be greater than zero"
  | zeroStepInterval => "step interval must be greater than zero"
  | zeroMoveInterval => "move interval must be greater than zero"
  | zeroBindDepth => "bind depth must be at least 1"

def describe : ConfigProblem → String
  | bindingCapacity c => "BindingCapacity(" ++ toString c.toNat ++ ")"
  | p => p.name

end ConfigProblem

inductive ConfigError where
  | parse
  | invalid (problems : List ConfigProblem)
  deriving DecidableEq

namespace ConfigError

def name : ConfigError → String
  | parse => "Parse"
  | invalid _ => "Invalid"

def message : ConfigError → String
  | parse => "configuration could not be parsed"
  | invalid ps =>
    "configuration is invalid: [" ++ String.intercalate ", " (ps.map ConfigProblem.describe) ++ "]"

end ConfigError

namespace Config

/-- Everything wrong with the configuration, in the order of its fields. -/
def problems (c : Config) : List ConfigProblem :=
  (if c.bindingCapacity.toNat ≤ BindingTable.maxCapacity then []
    else [.bindingCapacity c.bindingCapacity]) ++
  (if c.dedupTimeout = 0 then [.zeroTransactionTimeout] else []) ++
  (if c.stepInterval = 0 then [.zeroStepInterval] else []) ++
  (if c.moveInterval = 0 then [.zeroMoveInterval] else []) ++
  (if c.maxBindDepth = 0 then [.zeroBindDepth] else [])

def checked (c : Config) : Except ConfigError Config :=
  if c.problems = [] then .ok c else .error (.invalid c.problems)

end Config

end MeshNode
