import Equate.Contract.Companion
import Equate.Declaration.Basic
import Equate.Sorting
/-!
# Equality contracts

A contract lists the members that take part in the equality of a type, each with its strategy, in
the order in which they are evaluated.
-/

namespace Equate

structure ContractEntry where
  member : Member
  strategy : Strategy
  deriving DecidableEq, Repr

structure Contract where
  typeName : Bytes
  ns : Bytes := []
  /-- Whether the type wraps a single value. -/
  wrapper : Bool := false
  entries : List ContractEntry := []
  deriving DecidableEq, Repr

def Contract.qualifiedName (c : Contract) : Bytes := Equate.qualifiedName c.ns c.typeName

/-- The evaluation order: by the order of the strategy, then by the place of the member. -/
def ContractEntry.le (a b : ContractEntry) : Bool :=
  a.strategy.order < b.strategy.order ||
    (a.strategy.order == b.strategy.order && a.member.position ≤ b.member.position)

/-- The elements grouped by a key. Keys ascend, and elements of one group keep their order. -/
def groupByKey {α : Type} (key : α → Int) (xs : List α) : List (Int × List α) :=
  (sortBy (· ≤ ·) (xs.map key)).eraseDups.map fun k => (k, xs.filter fun x => key x == k)

namespace Member

/-- The strategy by which a member takes part in equality. There is none for a member that is
static, cannot carry a strategy, does not carry exactly one, or is ignored. -/
def strategy? (m : Member) : Option Strategy :=
  match m.strategies with
  | [a] => if m.isStatic || !m.eligible || a.strategy.isIgnore then none else some a.strategy
  | _ => none

/-- Where the first strategy of a member stands, or else the member. -/
def strategyLocation (m : Member) : Location :=
  match m.strategies with
  | a :: _ => a.location
  | [] => m.location

end Member

end Equate
