import Equate.Proofs.Declaration.Sketch
import Equate.Proofs.Node.Outline
/-!
# Reading outlines

An outline is a sketch that keeps all places and no literals. So every reader of a declaration
commutes with taking the outline, up to the nodes that findings quote and up to literals.
-/

namespace Equate

/-- Outlines as sketches. -/
def Node.outlineSketch : Sketch where
  node := Node.outline
  mark := Mark.outline
  place := id
  float _ := ⟨0⟩
  items _ := []
  entries _ := []
  literal _ := none
  node_absent := rfl
  node_nil _ := rfl
  node_bool _ _ := rfl
  node_int _ _ := rfl
  node_float _ _ := rfl
  node_str _ _ := rfl
  node_keyword _ _ := rfl
  node_symbol _ _ := rfl
  node_list m xs := by rw [Node.outline, Node.outlines_eq_map]
  node_vector m xs := by rw [Node.outline, Node.outlines_eq_map]
  node_set _ _ := rfl
  node_map _ _ := rfl
  location_mark := Mark.location_outline
  place_unknown := rfl
  literal_none := rfl
  literal_node _ := rfl

/-! ## Findings -/

namespace Malformation

/-- The malformation with outlines in place of the nodes that are quoted. -/
def outline : Malformation → Malformation
  | .unknownForm form => .unknownForm form.outline
  | .unknownSetter value => .unknownSetter value.outline
  | .notAMember form => .notAMember form.outline
  | fault => fault

theorem fault_outlineSketch (fault : Malformation) :
    Node.outlineSketch.fault fault = fault.outline := by
  cases fault <;> rfl

end Malformation

def Finding.outline (f : Finding) : Finding := { f with fault := f.fault.outline }

theorem Finding.finding_outlineSketch : Node.outlineSketch.finding = outline := by
  funext f
  have hnotes : f.notes.map (Note.relocate Node.outlineSketch.place) = f.notes :=
    List.map_id f.notes
  rw [Sketch.finding, Malformation.fault_outlineSketch, hnotes]
  rfl

/-! ## Declarations -/

/-- The reading with outlines in its findings. -/
def PartialReading.outline {α : Type} (r : PartialReading α) : PartialReading α :=
  ⟨r.opening.map Finding.outline, r.body.map Finding.outline, r.declaration?⟩

theorem ClassDeclaration.read_outline (form : Node) : read form.outline = (read form).outline := by
  have hread := Node.outlineSketch.readClass_node form
  have hplace : relocate Node.outlineSketch.place = id := relocate_id
  rw [Sketch.reading, Finding.finding_outlineSketch, hplace, Option.map_id] at hread
  exact hread

def ConstantDeclaration.withoutLiteral (c : ConstantDeclaration) : ConstantDeclaration :=
  { c with literal? := none }

def EnumDeclaration.withoutLiterals (d : EnumDeclaration) : EnumDeclaration :=
  { d with constants := d.constants.map ConstantDeclaration.withoutLiteral }

theorem EnumDeclaration.read_outline (form : Node) :
    (read form.outline).opening = (read form).opening.map Finding.outline ∧
      (read form.outline).body = (read form).body.map Finding.outline ∧
      (read form.outline).declaration?.map withoutLiterals =
        (read form).declaration?.map withoutLiterals := by
  obtain ⟨hopening, hbody, hdeclaration⟩ := Node.outlineSketch.readEnumeration_node form
  rw [Finding.finding_outlineSketch] at hopening hbody
  refine ⟨hopening, hbody, hdeclaration.trans (congrArg (Option.map · _) ?_)⟩
  funext d
  have hplace : relocate Node.outlineSketch.place = id := relocate_id
  rw [hplace]
  rfl

end Equate
