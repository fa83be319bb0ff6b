import Equate.Node.Basic
/-!
# Equality strategies

How a member takes part in equality: with its value, not at all, as a sequence, or through
companion functions. A strategy is read from a list such as `(sequence :order 2 :deep false)`.
-/

namespace Equate

/-- A strategy. `order?` is the place in the evaluation order that was asked for. -/
inductive Strategy where
  | include (order? : Option Int)
  | ignore
  | sequence (order? : Option Int) (orderMatters deep : Bool)
  | custom (order? : Option Int)
  deriving DecidableEq, Repr

/-- Why a form is not a strategy. -/
inductive StrategyFault where
  | notAStrategy
  | malformedOptions (head : Bytes)
  | orderNotAnInteger
  | orderOutOfRange
  | orderMattersNotABoolean
  | deepNotABoolean
  | unknownOption (key head : Bytes)
  | optionOnIgnore
  | unknownStrategy (head : Bytes)
  deriving DecidableEq, Repr

def StrategyFault.message : StrategyFault → Bytes
  | .notAStrategy => "equality strategy must be a list form such as (include)"
  | .malformedOptions head => utf8 "malformed options in (" ++ head ++ utf8 " ...)"
  | .orderNotAnInteger => ":order expects an integer"
  | .orderOutOfRange => ":order out of range"
  | .orderMattersNotABoolean => ":order-matters expects true or false"
  | .deepNotABoolean => ":deep expects true or false"
  | .unknownOption key head => utf8 "unknown option :" ++ key ++ utf8 " for " ++ head
  | .optionOnIgnore => "(ignore) takes no options"
  | .unknownStrategy head => utf8 "unknown equality strategy '" ++ head ++ utf8 "'"

/-- The options collected so far. -/
structure StrategyOptions where
  order? : Option Int := none
  orderMatters : Bool := true
  deep : Bool := true
  deriving DecidableEq, Repr

namespace StrategyOptions

/-- Takes one `:key value` pair in; a later pair replaces an earlier one. -/
def set (o : StrategyOptions) (head key : Bytes) (value : Node) :
    Except StrategyFault StrategyOptions :=
  if key = utf8 "order" then
    match value with
    | .int _ i =>
      if -0x80000000 ≤ i.toInt ∧ i.toInt < 0x80000000 then .ok { o with order? := some i.toInt }
      else .error .orderOutOfRange
    | _ => .error .orderNotAnInteger
  else if head = utf8 "sequence" ∧ key = utf8 "order-matters" then
    match value.boolean? with
    | some b => .ok { o with orderMatters := b }
    | none => .error .orderMattersNotABoolean
  else if head = utf8 "sequence" ∧ key = utf8 "deep" then
    match value.boolean? with
    | some b => .ok { o with deep := b }
    | none => .error .deepNotABoolean
  else .error (.unknownOption key head)

/-- Takes `:key value` pairs in from left to right. -/
def read (head : Bytes) (o : StrategyOptions) : List Node → Except StrategyFault StrategyOptions
  | [] => .ok o
  | .keyword _ key :: value :: rest =>
    match o.set head key value with
    | .ok o => o.read head rest
    | .error e => .error e
  | _ => .error (.malformedOptions head)

end StrategyOptions

namespace Strategy

/-- The strategy that a head stands for. -/
def ofHead (head : Bytes) (o : StrategyOptions) : Except StrategyFault Strategy :=
  if head = utf8 "include" then .ok (.include o.order?)
  else if head = utf8 "ignore" then
    if o.order?.isSome then .error .optionOnIgnore else .ok .ignore
  else if head = utf8 "sequence" then .ok (.sequence o.order? o.orderMatters o.deep)
  else if head = utf8 "custom" then .ok (.custom o.order?)
  else .error (.unknownStrategy head)

/-- Reads a strategy form. -/
def ofNode (n : Node) : Except StrategyFault Strategy :=
  if n.head.isEmpty then .error .notAStrategy
  else
    match StrategyOptions.read n.head {} ((n.listItems?.getD []).drop 1) with
    | .ok o => ofHead n.head o
    | .error e => .error e

def name : Strategy → Bytes
  | .include _ => "include"
  | .ignore => "ignore"
  | .sequence _ _ _ => "sequence"
  | .custom _ => "custom"

def order? : Strategy → Option Int
  | .include o | .sequence o _ _ | .custom o => o
  | .ignore => none

/-- The place in the evaluation order; 0 if none was asked for. -/
def order (s : Strategy) : Int := s.order?.getD 0

def isIgnore : Strategy → Bool
  | .ignore => true
  | _ => false

def isCustom : Strategy → Bool
  | .custom _ => true
  | _ => false

def isSequence : Strategy → Bool
  | .sequence _ _ _ => true
  | _ => false

end Strategy

end Equate
