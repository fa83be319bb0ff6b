import Equate.Proofs.Declaration.Places
import Equate.Proofs.Node.RoundTrip
/-!
# The grammar of types

A type is written as a word, as `(ref N)` or as one of six heads in front of a type. A
`TypeExpression` is a derivation of this grammar, and `Node.Derives` says which nodes it derives. A
node that was read stands for a type exactly if it is derived, and the type has the heads of the
derivation (`TypeForm.ofNode?_of_isRead`). A type that is derived without `(ref N)` is written as
the node was, and read again from its text; so its text tells it from any other such type.
-/

namespace Equate

/-! ## Derivations -/

/-- How a type is written. -/
inductive TypeExpression where
  | word (name : Bytes)
  | ref (name : Bytes)
  | sequence (head : SequenceHead) (element : TypeExpression)

namespace TypeExpression

def isSequence : TypeExpression → Bool
  | .sequence _ _ => true
  | .word _ | .ref _ => false

/-- The heads that stand around each other, from the outside in. -/
def heads : TypeExpression → List SequenceHead
  | .sequence head element => head :: element.heads
  | .word _ | .ref _ => []

def depth : TypeExpression → Nat
  | .sequence _ element => element.depth + 1
  | .word _ | .ref _ => 0

/-- Whether no `(ref N)` occurs. -/
def isRefFree : TypeExpression → Bool
  | .word _ => true
  | .ref _ => false
  | .sequence _ element => element.isRefFree

/-- The type that is written so. -/
def type : TypeExpression → TypeForm
  | .word name => .ofSymbol name
  | .ref name => .named name
  | .sequence head element => .sequence head element.type

end TypeExpression

namespace TypeForm

/-- The heads of sequences in each other, from the outside in. -/
def heads : TypeForm → List SequenceHead
  | .sequence head element => head :: element.heads
  | .scalar _ | .text | .named _ => []

/-- How many sequences are in each other. -/
def depth : TypeForm → Nat
  | .sequence _ element => element.depth + 1
  | .scalar _ | .text | .named _ => 0

end TypeForm

namespace Node

/-- Whether a node can stand behind `ref`: a symbol, or a string that is not empty. -/
inductive IsTypeName : Node → Prop
  | symbol (m : Mark) (s : Bytes) : IsTypeName (.symbol m s)
  | str (m : Mark) {s : Bytes} (hs : s ≠ []) : IsTypeName (.str m s)

/-- Whether a node is written as the grammar derives it. -/
inductive Derives : Node → TypeExpression → Prop
  | word (m : Mark) (s : Bytes) : Derives (.symbol m s) (.word s)
  | ref (m k : Mark) {x : Node} (hx : x.IsTypeName) :
      Derives (.list m [.symbol k "ref", x]) (.ref x.name)
  | sequence (m k : Mark) (head : SequenceHead) {x : Node} {e : TypeExpression}
      (hx : Derives x e) : Derives (.list m [.symbol k head.name, x]) (.sequence head e)

end Node

/-! ## Names -/

theorem Scalar.name_of_ofName? {name : Bytes} {s : Scalar} (h : ofName? name = some s) :
    s.name = name := by
  have h : all.find? (fun s => s.name == name) = some s := h
  simpa using List.find?_some h

theorem SequenceHead.name_of_ofName? {name : Bytes} {head : SequenceHead}
    (h : ofName? name = some head) : head.name = name := by
  have h : all.find? (fun head => head.name == name) = some head := h
  simpa using List.find?_some h

theorem SequenceHead.ofName?_name (head : SequenceHead) : ofName? head.name = some head := by
  cases head <;> decide

theorem SequenceHead.name_ne_ref (head : SequenceHead) : head.name ≠ utf8 "ref" := by
  cases head <;> decide

theorem Node.isTypeName_of_name_ne_nil : ∀ {x : Node}, x.name ≠ [] → x.IsTypeName
  | .symbol m s, _ => .symbol m s
  | .str m _, h => .str m h
  | .absent, h | .nil _, h | .bool _ _, h | .int _ _, h | .float _ _, h | .keyword _ _, h
  | .list _ _, h | .vector _ _, h | .set _ _, h | .map _ _, h => absurd rfl h

/-- A symbol that was read is not empty. -/
theorem Node.IsTypeName.name_ne_nil {x : Node} (h : x.IsTypeName) (hlegible : x.Legible) :
    x.name ≠ [] := by
  cases h with
  | symbol m s =>
    obtain ⟨b, bs, rfl, -⟩ := IsSymbolName.starts hlegible
    exact List.cons_ne_nil b bs
  | str m hs => exact hs

namespace TypeForm

variable {v : Node} {e : TypeExpression}

/-- A word stands for a type that is written with it and is no sequence. -/
theorem ofSymbol_spec (name : Bytes) :
    (ofSymbol name).toText = name ∧ (ofSymbol name).isSequence = false ∧
      (ofSymbol name).heads = [] ∧ (ofSymbol name).depth = 0 := by
  unfold ofSymbol
  cases h : Scalar.ofName? name with
  | some s => exact ⟨Scalar.name_of_ofName? h, rfl, rfl, rfl⟩
  | none =>
    dsimp only
    split
    · rename_i hname
      exact ⟨hname.symm, rfl, rfl, rfl⟩
    · exact ⟨rfl, rfl, rfl, rfl⟩

/-! ## Reading -/

theorem ofNode?_of_derives (h : v.Derives e) (hlegible : v.Legible) : ofNode? v = some e.type := by
  induction h with
  | word m s =>
    obtain ⟨b, bs, rfl, -⟩ := IsSymbolName.starts hlegible
    rfl
  | @ref m k x hx =>
    have hname := hx.name_ne_nil (hlegible.of_mem_children (by simp [Node.children]))
    simp [ofNode?, hname, TypeExpression.type]
  | sequence m k head hx ih =>
    have hx := ih (hlegible.of_mem_children (by simp [Node.children]))
    simp [ofNode?, head.name_ne_ref, head.ofName?_name, hx, TypeExpression.type]

/-- The three ways in which a list stands for a type are tried in turn. -/
theorem exists_derives_of_ofNode? : ∀ {v : Node} {t : TypeForm}, ofNode? v = some t →
    ∃ e, v.Derives e ∧ e.type = t
  | .symbol m s, t, h => by
    rw [ofNode?] at h
    split at h
    · cases h
    · cases h
      exact ⟨.word s, .word m s, rfl⟩
  | .list m [.symbol k head, x], t, h => by
    rw [ofNode?] at h
    split at h
    · rename_i href
      split at h
      · cases h
      · rename_i hname
        cases h
        subst href
        exact ⟨.ref x.name, .ref m k (Node.isTypeName_of_name_ne_nil (by simpa using hname)), rfl⟩
    · split at h
      · rename_i known element hknown helement
        cases h
        obtain ⟨e, he, rfl⟩ := exists_derives_of_ofNode? helement
        obtain rfl := SequenceHead.name_of_ofName? hknown
        exact ⟨.sequence known e, .sequence m k known he, rfl⟩
      · cases h

theorem isSequence_type (e : TypeExpression) : e.type.isSequence = e.isSequence := by
  cases e with
  | word name => exact (ofSymbol_spec name).2.1
  | ref | sequence => rfl

theorem heads_type (e : TypeExpression) : e.type.heads = e.heads := by
  induction e with
  | word name => exact (ofSymbol_spec name).2.2.1
  | ref => rfl
  | sequence head e ih => rw [TypeExpression.type, heads, ih, TypeExpression.heads]

theorem depth_type (e : TypeExpression) : e.type.depth = e.depth := by
  induction e with
  | word name => exact (ofSymbol_spec name).2.2.2
  | ref => rfl
  | sequence head e ih => rw [TypeExpression.type, depth, ih, TypeExpression.depth]

/-! ## Printing -/

theorem toText_type_of_derives (h : v.Derives e) (hfree : e.isRefFree = true) :
    e.type.toText = v.text := by
  induction h with
  | word m s =>
    rw [Node.text, Node.write, List.append_nil]
    exact (ofSymbol_spec s).1
  | ref => cases hfree
  | @sequence m k head x e _ ih =>
    have hhead : (Node.symbol k head.name).text = head.name := by
      rw [Node.text, Node.write, List.append_nil]
    rw [Node.text_list]
    simp only [Node.spaced_cons, hhead, ← ih hfree, TypeExpression.type, toText]
    simp
    rfl

theorem isFloatFree_of_derives (h : v.Derives e) : v.isFloatFree = true := by
  induction h with
  | word => rfl
  | ref m k hx => cases hx <;> rfl
  | sequence m k head _ ih => simpa [Node.isFloatFree] using ih

/-- The text of a legible node without doubles is read as a node that stands for the same type. -/
theorem exists_read_ofNode? (hlegible : v.Legible) (hfree : v.isFloatFree = true) (origin : Nat) :
    ∃ w, Node.read v.text origin = .ok w ∧ ofNode? w = ofNode? v := by
  obtain ⟨w, hw, hsame⟩ := Node.exists_read_text hlegible hfree origin
  refine ⟨w, hw, ?_⟩
  rw [← Node.unmarkedSketch.type_node w, ← Node.unmarkedSketch.type_node v]
  exact congrArg ofNode? hsame

/-- Types that are derived without `(ref N)` and written the same are the same, as each of them is
read from its text. -/
theorem eq_of_toText_eq {v' : Node} {e' : TypeExpression} (h : v.Derives e) (h' : v'.Derives e')
    (hlegible : v.Legible) (hlegible' : v'.Legible) (hfree : e.isRefFree = true)
    (hfree' : e'.isRefFree = true) (htext : e'.type.toText = e.type.toText) :
    e'.type = e.type := by
  obtain ⟨w, hw, htype⟩ := exists_read_ofNode? hlegible (isFloatFree_of_derives h) 0
  obtain ⟨w', hw', htype'⟩ := exists_read_ofNode? hlegible' (isFloatFree_of_derives h') 0
  rw [← toText_type_of_derives h' hfree', htext, toText_type_of_derives h hfree, hw] at hw'
  cases hw'
  rw [ofNode?_of_derives h hlegible] at htype
  rw [htype, ofNode?_of_derives h' hlegible'] at htype'
  exact (Option.some.inj htype').symm

/-- A node that was read stands for a type exactly if the grammar derives it. The type is a sequence
if the node is one, of the same heads around each other. Unless `(ref N)` occurs, the type is
written as the node is and read again from that, and no other such type is written the same. -/
theorem ofNode?_of_isRead (h : v.IsRead) :
    ((ofNode? v).isSome = true ↔ ∃ e, v.Derives e) ∧
      ∀ e, v.Derives e → ∃ t, ofNode? v = some t ∧
        t.isSequence = e.isSequence ∧ t.heads = e.heads ∧ t.depth = e.depth ∧
        (e.isRefFree = true →
          t.toText = v.text ∧
          (∀ origin, ∃ w, Node.read t.toText origin = .ok w ∧ ofNode? w = some t) ∧
          ∀ v' e' t', v'.IsRead → v'.Derives e' → e'.isRefFree = true → ofNode? v' = some t' →
            t'.toText = t.toText → t' = t) := by
  have hlegible := h.legible
  constructor
  · constructor
    · intro hsome
      obtain ⟨t, ht⟩ := Option.isSome_iff_exists.1 hsome
      obtain ⟨e, he, -⟩ := exists_derives_of_ofNode? ht
      exact ⟨e, he⟩
    · rintro ⟨e, he⟩
      rw [ofNode?_of_derives he hlegible]
      rfl
  · intro e he
    have ht := ofNode?_of_derives he hlegible
    have htext (hfree : e.isRefFree = true) := toText_type_of_derives he hfree
    refine ⟨e.type, ht, isSequence_type e, heads_type e, depth_type e, fun hfree =>
      ⟨htext hfree, fun origin => ?_, fun v' e' t' hread' he' hfree' ht' hsame => ?_⟩⟩
    · rw [htext hfree, ← ht]
      exact exists_read_ofNode? hlegible (isFloatFree_of_derives he) origin
    · obtain rfl : e'.type = t' :=
        Option.some.inj ((ofNode?_of_derives he' hread'.legible).symm.trans ht')
      exact eq_of_toText_eq he he' hlegible hread'.legible hfree hfree' hsame

/-- Between the columns on the first line. -/
def onLine (first last : Nat) : Mark := ⟨0, some ⟨⟨1, first⟩, ⟨1, last⟩⟩⟩

/-- What is read inside of `[(seq (set string))]`. -/
def setsOfText : Node :=
  .list (onLine 2 19) [.symbol (onLine 3 5) "seq",
    .list (onLine 7 18) [.symbol (onLine 8 10) "set", .symbol (onLine 12 17) "string"]]

theorem ofNode?_of_isRead_setsOfText :
    setsOfText.IsRead ∧ ∃ e t, setsOfText.Derives e ∧ e.isRefFree = true ∧
      ofNode? setsOfText = some t ∧ t.heads = [.seq, .set] ∧
      t.toText = utf8 "(seq (set string))" ∧
      ∃ w, Node.read t.toText 1 = .ok w ∧ ofNode? w = some t := by
  have hread : Node.read (utf8 "[(seq (set string))]") =
      .ok (.vector (onLine 1 20) [setsOfText]) := rfl
  have hin : setsOfText.IsRead :=
    ⟨_, _, _, hread, .child (List.mem_singleton.2 rfl) (.self _)⟩
  have he : setsOfText.Derives (.sequence .seq (.sequence .set (.word "string"))) :=
    .sequence _ _ .seq (.sequence _ _ .set (.word _ _))
  obtain ⟨t, ht, -, hheads, -, hfree⟩ := (ofNode?_of_isRead hin).2 _ he
  obtain ⟨htext, hback, -⟩ := hfree rfl
  exact ⟨hin, _, t, he, rfl, ht, hheads, htext.trans rfl, hback 1⟩

end TypeForm

end Equate
