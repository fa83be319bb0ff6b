import Equate.Declaration.Malformation
import Equate.Declaration.Reader
/-!
# Relocation

What a declaration tells of places is changed by a map of places, and nothing else is: where its
parts stand, and where its findings and notes point to.
-/

namespace Equate

variable (place : Location → Location)

def Note.relocate (n : Note) : Note := { n with location := place n.location }

def Diagnostic.relocate (d : Diagnostic) : Diagnostic :=
  { d with location := place d.location, notes := d.notes.map (Note.relocate place) }

def PlacedStrategy.relocate (a : PlacedStrategy) : PlacedStrategy :=
  { a with location := place a.location }

def Member.relocate (m : Member) : Member :=
  { m with
    strategies := m.strategies.map (PlacedStrategy.relocate place)
    location := place m.location }

def CompanionFunction.relocate (f : CompanionFunction) : CompanionFunction :=
  { f with location := place f.location }

def ClassDeclaration.relocate (d : ClassDeclaration) : ClassDeclaration :=
  { d with
    marker? := d.marker?.map place
    members := d.members.map (Member.relocate place)
    functions := d.functions.map (CompanionFunction.relocate place)
    location := place d.location }

def ConstantDeclaration.relocate (c : ConstantDeclaration) : ConstantDeclaration :=
  { c with location := place c.location }

def EnumDeclaration.relocate (d : EnumDeclaration) : EnumDeclaration :=
  { d with
    constants := d.constants.map (ConstantDeclaration.relocate place)
    location := place d.location }

def Declaration.relocate : Declaration → Declaration
  | .classDeclaration d => .classDeclaration (d.relocate place)
  | .enumeration d => .enumeration (d.relocate place)

/-- The map that tells nothing of places. -/
def Location.forget (_ : Location) : Location := .unknown

/-! ## Names that were seen -/

/-- Whether the same names were seen, with their places moved. -/
def SeenRelocated (seen seen' : Std.TreeMap Bytes Location) : Prop :=
  ∀ name : Bytes, seen'[name]? = seen[name]?.map place

namespace SeenRelocated

variable {place}

theorem empty : SeenRelocated place ∅ ∅ := by
  intro name
  rw [Std.TreeMap.getElem?_emptyc, Option.map_none]

theorem insert {seen seen' : Std.TreeMap Bytes Location} (h : SeenRelocated place seen seen')
    (name : Bytes) (location : Location) :
    SeenRelocated place (seen.insert name location) (seen'.insert name (place location)) := by
  intro other
  rw [Std.TreeMap.getElem?_insert, Std.TreeMap.getElem?_insert, h]
  split <;> rfl

end SeenRelocated

/-! ## Relocation to where everything is -/

@[simp] theorem Note.relocate_id : Note.relocate id = id := rfl

@[simp] theorem PlacedStrategy.relocate_id : PlacedStrategy.relocate id = id := rfl

@[simp] theorem Member.relocate_id : Member.relocate id = id := by
  funext m
  simp [relocate]

@[simp] theorem CompanionFunction.relocate_id : CompanionFunction.relocate id = id := rfl

@[simp] theorem ClassDeclaration.relocate_id : ClassDeclaration.relocate id = id := by
  funext d
  simp [relocate]

@[simp] theorem ConstantDeclaration.relocate_id : ConstantDeclaration.relocate id = id := rfl

@[simp] theorem EnumDeclaration.relocate_id : EnumDeclaration.relocate id = id := by
  funext d
  simp [relocate]

end Equate
