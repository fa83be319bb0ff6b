import Equate.Binary64.Text
import Equate.Node.Basic
/-!
# Printing trees

The text of a node. Marks leave no trace in it, and a node that is absent prints as nil. Inside a
string only quotes and backslashes are escaped. `Node.write` puts the text in front of what
follows it, so each byte is written once however deep the tree is; `Node.write_eq` says so, and
`Node.text_list` and its companions give the text of a collection by the texts of its elements.
-/

namespace Equate.Node

/-- The contents of a string between its quotes. -/
def escaped (s : Bytes) : Bytes :=
  s.flatMap fun b => if b = Ascii.quote ∨ b = Ascii.backslash then [Ascii.backslash, b] else [b]

mutual

/-- The text of a node, in front of `rest`. -/
def write : Node → Bytes → Bytes
  | .absent, rest | .nil _, rest => utf8 "nil" ++ rest
  | .bool _ b, rest => (if b then utf8 "true" else utf8 "false") ++ rest
  | .int _ i, rest => Bytes.ofInt i.toInt ++ rest
  | .float _ x, rest => x.text ++ rest
  | .str _ s, rest => Ascii.quote :: (escaped s ++ Ascii.quote :: rest)
  | .keyword _ k, rest => Ascii.colon :: (k ++ rest)
  | .symbol _ s, rest => s ++ rest
  | .list _ xs, rest => Ascii.leftParen :: writeAll xs (Ascii.rightParen :: rest)
  | .vector _ xs, rest => Ascii.leftBracket :: writeAll xs (Ascii.rightBracket :: rest)
  | .set _ xs, rest => Ascii.hash :: Ascii.leftBrace :: writeAll xs (Ascii.rightBrace :: rest)
  | .map _ es, rest => Ascii.leftBrace :: writeEntries es (Ascii.rightBrace :: rest)
termination_by structural x => x

/-- The texts of nodes with a space between neighbours, in front of `rest`. -/
def writeAll : List Node → Bytes → Bytes
  | [], rest => rest
  | x :: xs, rest => x.write (if xs.isEmpty then rest else Ascii.space :: writeAll xs rest)
termination_by structural x => x

/-- Keys and values in turn, with a space between neighbours, in front of `rest`. -/
def writeEntries : List (Node × Node) → Bytes → Bytes
  | [], rest => rest
  | (k, v) :: es, rest =>
    k.write (Ascii.space ::
      v.write (if es.isEmpty then rest else Ascii.space :: writeEntries es rest))
termination_by structural x => x

end

/-- The text of a node. -/
def text (n : Node) : Bytes := n.write []

/-- The texts of nodes with a space between neighbours. -/
def spaced (xs : List Node) : Bytes := Bytes.join [Ascii.space] (xs.map text)

/-! ## The text by the shape of the node -/

theorem spaced_cons (x : Node) (xs : List Node) :
    spaced (x :: xs) = x.text ++ if xs.isEmpty then [] else Ascii.space :: spaced xs := by
  cases xs <;> simp [spaced, Bytes.join, List.intercalate]

mutual

theorem write_eq : ∀ (n : Node) (rest : Bytes), n.write rest = n.text ++ rest
  | .absent, _ | .nil _, _ | .bool _ _, _ | .int _ _, _ | .float _ _, _ | .str _ _, _
  | .keyword _ _, _ | .symbol _ _, _ => by simp [text, write]
  | .list _ xs, rest | .vector _ xs, rest | .set _ xs, rest => by
    simp only [text, write]
    rw [writeAll_eq, writeAll_eq xs [_]]
    simp
  | .map _ es, rest => by
    simp only [text, write]
    rw [writeEntries_eq, writeEntries_eq es [_]]
    simp

theorem writeAll_eq : ∀ (xs : List Node) (rest : Bytes), writeAll xs rest = spaced xs ++ rest
  | [], _ => rfl
  | x :: xs, rest => by
    rw [writeAll, write_eq, writeAll_eq, spaced_cons]
    split <;> simp

theorem writeEntries_eq : ∀ (es : List (Node × Node)) (rest : Bytes),
    writeEntries es rest = spaced (es.flatMap fun e => [e.1, e.2]) ++ rest
  | [], _ => rfl
  | (k, v) :: es, rest => by
    rw [writeEntries, write_eq k, write_eq v, writeEntries_eq]
    cases es <;> simp [spaced_cons]

end

theorem text_list (m : Mark) (xs : List Node) :
    (Node.list m xs).text = Ascii.leftParen :: spaced xs ++ [Ascii.rightParen] := by
  simp [text, write, writeAll_eq]

theorem text_vector (m : Mark) (xs : List Node) :
    (Node.vector m xs).text = Ascii.leftBracket :: spaced xs ++ [Ascii.rightBracket] := by
  simp [text, write, writeAll_eq]

theorem text_set (m : Mark) (xs : List Node) :
    (Node.set m xs).text =
      Ascii.hash :: Ascii.leftBrace :: spaced xs ++ [Ascii.rightBrace] := by
  simp [text, write, writeAll_eq]

theorem text_map (m : Mark) (es : List (Node × Node)) :
    (Node.map m es).text =
      Ascii.leftBrace :: spaced (es.flatMap fun e => [e.1, e.2]) ++ [Ascii.rightBrace] := by
  simp [text, write, writeEntries_eq]

end Equate.Node
