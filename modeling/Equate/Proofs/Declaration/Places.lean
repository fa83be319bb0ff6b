import Equate.Proofs.Declaration.Sketch
import Equate.Proofs.Node.Unmarked
/-!
# Reading forms without their marks

A form without its marks is a sketch that tells no places and everything else, also what findings
quote. So it is read as what the form itself is read as, at no place (`Declaration.read_unmarked`).
-/

namespace Equate

/-- The literal of a constant does not depend on the marks of its arguments. -/
theorem readLiteral?_unmarked (arguments : Node) :
    readLiteral? arguments.unmarked = readLiteral? arguments := by
  have hitems (m : Mark) (xs : List Node) :
      readLiteral? (.list .blank (xs.map Node.unmarked)) = readLiteral? (.list m xs) := by
    rcases xs with _ | ⟨x, _ | ⟨y, _ | ⟨z, xs⟩⟩⟩
    · rfl
    · cases x <;> rfl
    · cases x <;> cases y <;> rfl
    · cases x <;> cases y <;> rfl
  cases arguments with
  | list m xs | vector m xs | set m xs =>
    rw [Node.unmarked, Node.unmarkedAll_eq_map]
    exact hitems m xs
  | _ => rfl

/-- Nodes without their marks as sketches. -/
def Node.unmarkedSketch : Sketch where
  node := unmarked
  mark _ := .blank
  place := Location.forget
  float := id
  items := List.map unmarked
  entries := List.map fun e => (e.1.unmarked, e.2.unmarked)
  literal := id
  node_absent := rfl
  node_nil _ := rfl
  node_bool _ _ := rfl
  node_int _ _ := rfl
  node_float _ _ := rfl
  node_str _ _ := rfl
  node_keyword _ _ := rfl
  node_symbol _ _ := rfl
  node_list m xs := by rw [unmarked, unmarkedAll_eq_map]
  node_vector m xs := by rw [unmarked, unmarkedAll_eq_map]
  node_set m xs := by rw [unmarked, unmarkedAll_eq_map]
  node_map m es := by rw [unmarked, unmarkedEntries_eq_map]
  location_mark _ := rfl
  place_unknown := rfl
  literal_none := rfl
  literal_node := readLiteral?_unmarked

namespace Node

@[simp] theorem location_unmarked (n : Node) : n.unmarked.location = .unknown :=
  unmarkedSketch.location_node n

@[simp] theorem head_unmarked (n : Node) : n.unmarked.head = n.head := unmarkedSketch.head_node n

theorem arguments_unmarked (n : Node) : n.unmarked.arguments = n.arguments.map unmarked :=
  unmarkedSketch.arguments_node n

end Node

/-! ## Findings -/

namespace Malformation

variable (fault : Malformation)

theorem message_unmarkedSketch : (Node.unmarkedSketch.fault fault).message = fault.message := by
  cases fault with
  | unknownForm form =>
    have hname : formName form.unmarked = formName form := by
      rw [formName, formName, Node.head_unmarked, Node.text_unmarked]
    exact congrArg (utf8 "unknown declaration form '" ++ · ++ utf8 "'") hname
  | unknownSetter value =>
    exact congrArg (utf8 "unknown :setter '" ++ · ++ utf8 "'") value.text_unmarked
  | _ => rfl

theorem hint_unmarkedSketch : (Node.unmarkedSketch.fault fault).hint = fault.hint := by
  cases fault with
  | notAMember form => exact congrArg (utf8 "found " ++ ·) form.text_unmarked
  | _ => rfl

end Malformation

theorem Finding.diagnostic_unmarkedSketch (rep : Reporter) (f : Finding) :
    (Node.unmarkedSketch.finding f).diagnostic rep =
      (f.diagnostic rep).relocate Location.forget := by
  simp only [Finding.diagnostic, Sketch.finding, Malformation.message_unmarkedSketch,
    Malformation.hint_unmarkedSketch]
  rfl

/-! ## Declarations -/

theorem ClassDeclaration.read_unmarked (form : Node) :
    read form.unmarked = Node.unmarkedSketch.reading (relocate Location.forget) (read form) :=
  Node.unmarkedSketch.readClass_node form

theorem EnumDeclaration.read_unmarked (form : Node) :
    read form.unmarked = Node.unmarkedSketch.reading (relocate Location.forget) (read form) := by
  obtain ⟨hopening, hbody, hdeclaration⟩ := Node.unmarkedSketch.readEnumeration_node form
  have hall : Node.unmarkedSketch.enumeration = id := by
    funext d
    have hconstant : Node.unmarkedSketch.constant = id := rfl
    rw [Sketch.enumeration, hconstant, List.map_id]
    rfl
  rw [hall, Option.map_id] at hdeclaration
  rw [Sketch.reading, ← hopening, ← hbody]
  exact congrArg (PartialReading.mk _ _) hdeclaration

/-- The reading at other places. -/
def Reading.relocate (place : Location → Location) (r : Reading) : Reading :=
  { r with
    diagnostics := r.diagnostics.map (Diagnostic.relocate place)
    declaration? := r.declaration?.map (Declaration.relocate place) }

theorem Reading.ofPartial_unmarkedSketch {α : Type} {q : α → Bytes} {wrap : α → Declaration}
    (relocate : α → α) (hq : ∀ d, q (relocate d) = q d)
    (hwrap : ∀ d, wrap (relocate d) = (wrap d).relocate Location.forget) (rep : Reporter)
    (r : PartialReading α) :
    ofPartial rep q wrap (Node.unmarkedSketch.reading relocate r) =
      (ofPartial rep q wrap r).relocate Location.forget := by
  have hfindings (rep : Reporter) (fs : List Finding) :
      (fs.map Node.unmarkedSketch.finding).map (Finding.diagnostic rep) =
        (fs.map (Finding.diagnostic rep)).map (Diagnostic.relocate Location.forget) := by
    rw [List.map_map, List.map_map]
    exact List.map_congr_left fun f _ => f.diagnostic_unmarkedSketch rep
  obtain ⟨opening, body, _ | d⟩ := r
  · simp only [ofPartial, Sketch.reading, Option.map_none, hfindings, Reading.relocate]
  · simp only [ofPartial, Sketch.reading, Option.map_some, hfindings, Reading.relocate, hq, hwrap,
      List.map_append]

/-- A form without its marks is read as what the form is read as, at no place. -/
theorem Declaration.read_unmarked (rep : Reporter) (form : Node) :
    read rep form.unmarked = (read rep form).relocate Location.forget := by
  unfold read
  rw [Node.head_unmarked]
  split
  · rw [ClassDeclaration.read_unmarked]
    refine Reading.ofPartial_unmarkedSketch _ ?_ ?_ rep _ <;> exact fun _ => rfl
  split
  · rw [EnumDeclaration.read_unmarked]
    refine Reading.ofPartial_unmarkedSketch _ ?_ ?_ rep _ <;> exact fun _ => rfl
  -- only what is there is quoted
  · have hunknown := Finding.diagnostic_unmarkedSketch rep ⟨.unknownForm form, form.location, []⟩
    cases form with
    | absent => rfl
    | _ => exact congrArg (fun d => Reading.mk rep.declaration [d] none) hunknown

/-- A module without its marks has the forms of the module, without their marks. -/
theorem moduleDeclarations_unmarked (rep : Reporter) (m : Node) :
    moduleDeclarations rep m.unmarked =
      ((moduleDeclarations rep m).1.map (Diagnostic.relocate Location.forget),
        (moduleDeclarations rep m).2.map Node.unmarked) := by
  unfold moduleDeclarations
  rw [Node.head_unmarked, Node.arguments_unmarked]
  split
  · rfl
  · rw [Node.location_unmarked]
    rfl

end Equate
