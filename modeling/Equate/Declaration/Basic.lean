import Equate.Declaration.Strategy
import Equate.Declaration.TypeForm
/-!
# Declarations

What a module declares: classes with their members and functions, and enumerations with their
constants.
-/

namespace Equate

/-- A name behind its namespace, as the namespace is written. -/
def qualifiedName (ns name : Bytes) : Bytes := if ns.isEmpty then name else ns ++ utf8 "::" ++ name

/-- A strategy at its place. -/
structure PlacedStrategy where
  strategy : Strategy
  location : Location
  deriving DecidableEq, Repr

inductive MemberKind where
  | field
  | property
  | method
  deriving DecidableEq, Repr

namespace MemberKind

def name : MemberKind → Bytes
  | .field => "field"
  | .property => "property"
  | .method => "method"

def ofName? (name : Bytes) : Option MemberKind :=
  [field, property, method].find? fun k => k.name == name

end MemberKind

/-- How a property can be assigned. -/
inductive Setter where
  | none
  | init
  | set
  deriving DecidableEq, Repr

namespace Setter

def name : Setter → Bytes
  | .none => "none"
  | .init => "init"
  | .set => "set"

def ofName? (name : Bytes) : Option Setter := [.none, init, set].find? fun s => s.name == name

end Setter

structure Member where
  name : Bytes
  kind : MemberKind
  /-- A method may have no type, which counts as the empty name. -/
  type : TypeForm := .named []
  /-- The place among the members of the class. -/
  position : Nat := 0
  readonly : Bool := false
  setter : Setter := .none
  computed : Bool := false
  isStatic : Bool := false
  strategies : List PlacedStrategy := []
  location : Location := .unknown
  deriving DecidableEq, Repr

/-- Only fields and properties without accessor logic can carry a strategy. -/
def Member.eligible (m : Member) : Bool := m.kind != .method && !m.computed

/-- A function that a class declares. -/
structure CompanionFunction where
  name : Bytes
  isStatic : Bool := true
  location : Location := .unknown
  deriving DecidableEq, Repr

/-- What a class derives from, as far as equality is concerned. -/
inductive ClassBase where
  | other
  | valueObject
  | wrapper (wrapped : TypeForm)
  deriving DecidableEq, Repr

structure ClassDeclaration where
  name : Bytes
  ns : Bytes := []
  extensible : Bool := false
  /-- Where the class is marked as a value object, if it is. -/
  marker? : Option Location := none
  base : ClassBase := .other
  members : List Member := []
  functions : List CompanionFunction := []
  location : Location := .unknown
  deriving DecidableEq, Repr

def ClassDeclaration.qualifiedName (d : ClassDeclaration) : Bytes :=
  Equate.qualifiedName d.ns d.name

structure ConstantDeclaration where
  constant : Bytes
  /-- Value and name, if both arguments are literals. -/
  literal? : Option (Int64 × Bytes) := none
  /-- The place among the constants of the enumeration. -/
  position : Nat := 0
  location : Location := .unknown
  deriving DecidableEq, Repr

structure EnumDeclaration where
  name : Bytes
  ns : Bytes := []
  extensible : Bool := false
  constants : List ConstantDeclaration := []
  location : Location := .unknown
  deriving DecidableEq, Repr

def EnumDeclaration.qualifiedName (d : EnumDeclaration) : Bytes :=
  Equate.qualifiedName d.ns d.name

inductive Declaration where
  | classDeclaration (d : ClassDeclaration)
  | enumeration (d : EnumDeclaration)
  deriving DecidableEq, Repr

def Declaration.name : Declaration → Bytes
  | .classDeclaration d => d.name
  | .enumeration d => d.name

end Equate
