import Equate.Proofs.Node.Grammar
/-!
# Reading what was printed

A legible node without doubles is a form again in its text: `Node.readsBack`. What follows the text
must delimit words, as spaces and closing brackets do, so that no word goes on there.
`Node.read_text` is the law for whole texts.
-/

namespace Equate

variable {origin : Nat}

/-- Whether the node is read back, but for its marks, from its text in front of a delimiter. -/
def ReadsBack (origin : Nat) (v : Node) : Prop :=
  ∀ rest, delimits rest = true → ∀ p,
    ∃ v', Form origin p v.text v' rest ∧ v'.unmarked = v.unmarked

/-! ## Collections -/

theorem delimits_closing (bracket : Bracket) (bs : Bytes) :
    delimits (bracket.closing :: bs) = true := by
  cases bracket <;> rfl

/-- The induction is on the items. Behind each of them a space or the closing bracket follows, and
both delimit it. -/
theorem forms_spaced {xs : List Node} (hreads : ∀ x ∈ xs, ReadsBack origin x) (bracket : Bracket)
    (rest : Bytes) (p : Position) :
    ∃ xs', Forms origin p (Node.spaced xs) xs' (bracket.closing :: rest) ∧
      xs'.map Node.unmarked = xs.map Node.unmarked := by
  induction xs generalizing p with
  | nil => exact ⟨[], .nil, rfl⟩
  | cons x xs ih =>
    have ih := ih fun y hy => hreads y (by simp [hy])
    cases xs with
    | nil =>
      have hspaced : Node.spaced [x] = x.text := by simp [Node.spaced_cons]
      obtain ⟨x', hx, heq⟩ := hreads x (by simp) _ (delimits_closing bracket rest) p
      rw [hspaced]
      exact ⟨[x'], .of_form hx, by simp [heq]⟩
    | cons y ys =>
      have hspaced : Node.spaced (x :: y :: ys) =
          x.text ++ ([Ascii.space] ++ Node.spaced (y :: ys)) := by
        simp [Node.spaced_cons x]
      obtain ⟨x', hx, heq⟩ := hreads x (by simp)
        ([Ascii.space] ++ Node.spaced (y :: ys) ++ bracket.closing :: rest) rfl p
      obtain ⟨xs', hxs, heqs⟩ := ih ((p.afterAll x.text).afterAll [Ascii.space])
      rw [hspaced]
      refine ⟨x' :: xs', hx.cons_forms (.separator (.blank rfl .nil) hxs), ?_⟩
      rw [List.map_cons, List.map_cons, heq, heqs]

theorem pairUp_flatMap (es : List (Node × Node)) :
    pairUp (es.flatMap fun e => [e.1, e.2]) = some es := by
  induction es with
  | nil => rfl
  | cons e es ih => simp only [List.flatMap_cons, List.cons_append, List.nil_append, pairUp, ih,
      Option.map_some]

theorem text_of_node? {bracket : Bracket} {mark : Mark} {xs : List Node} {v : Node}
    (h : bracket.node? mark xs = some v) :
    v.text = bracket.opening ++ (Node.spaced xs ++ [bracket.closing]) := by
  cases bracket with
  | list => cases h; exact Node.text_list mark xs
  | vector => cases h; exact Node.text_vector mark xs
  | set => cases h; exact Node.text_set mark xs
  | map =>
    obtain ⟨es, hes, rfl⟩ := Option.map_eq_some_iff.1 h
    rw [Node.text_map, flatMap_of_pairUp hes]
    rfl

theorem readsBack_of_node? {bracket : Bracket} {mark : Mark} {xs : List Node} {v : Node}
    (hv : bracket.node? mark xs = some v) (hreads : ∀ x ∈ xs, ReadsBack origin x) :
    ReadsBack origin v := by
  intro rest _ p
  obtain ⟨xs', hxs, heq⟩ := forms_spaced hreads bracket rest (p.afterAll bracket.opening)
  obtain ⟨v', hv', hsame⟩ := Bracket.exists_node?
    ⟨origin, some (.covering p (bracket.around (Node.spaced xs)))⟩ hv heq
  rw [text_of_node? hv]
  exact ⟨v', .collection hxs hv', hsame⟩

/-! ## Nodes -/

namespace Node

theorem readsBack_of_atom {v : Node} {s : Bytes} {make : Mark → Node}
    (h : ∀ rest, delimits rest = true → Atom s make rest) (htext : v.text = s)
    (hv : ∀ mark, (make mark).unmarked = v.unmarked) : ReadsBack origin v := by
  intro rest hrest p
  rw [htext]
  exact ⟨_, .atom (h rest hrest), hv _⟩

theorem readsBack_of_word {v : Node} {s : Bytes}
    (hstarts : ∃ b bs, s = b :: bs ∧ startsSymbol b = true)
    (hcontinues : ∀ b ∈ s, continuesSymbol b = true) (hnumeral : Numeral.starts s = false)
    (htext : v.text = s) (hv : ∀ mark, (wordNode mark s).unmarked = v.unmarked) :
    ReadsBack origin v :=
  readsBack_of_atom (fun _ => .word hstarts hcontinues hnumeral) htext hv

theorem atom_ofInt (i : Int64) {rest : Bytes} (hrest : delimits rest = true) :
    Atom (Bytes.ofInt i.toInt) (fun m => .int m i) rest := by
  rw [← Numeral.text_ofInt]
  exact .int (Numeral.wellFormed_ofInt _)
    ((delimits_iff.1 hrest).mono fun _ => Numeral.continuesSymbol_of_goesOn) rfl
    (Numeral.int64?_ofInt i)

theorem atom_string (s rest : Bytes) :
    Atom (Ascii.quote :: (escaped s ++ [Ascii.quote])) (fun m => .str m s) rest :=
  .str (by rw [stringBody_escaped, List.length_append, List.length_singleton])

theorem unmarked_wordNode {s : Bytes} (hs : IsSymbolName s) (mark : Mark) :
    (wordNode mark s).unmarked = .symbol .blank s := by
  obtain ⟨hnil, htrue, hfalse⟩ := hs.notReserved
  rw [wordNode, if_neg hnil, if_neg htrue, if_neg hfalse, unmarked]

/-- The induction is on the size of the node: what is in a collection is smaller than it. -/
theorem readsBack (v : Node) (hlegible : v.Legible) (hfree : v.isFloatFree = true) :
    ReadsBack origin v := by
  -- one argument for the four brackets: a map is read from its keys and values in turn
  have collection (bracket : Bracket) {m : Mark} {xs : List Node}
      (hnode : bracket.node? m xs = some v) : ReadsBack origin v := by
    obtain ⟨-, -, rfl⟩ := Bracket.of_node? hnode
    refine readsBack_of_node? hnode fun x hx => ?_
    have hsize := sizeOf_lt_of_mem_children hx
    exact readsBack x (hlegible.of_mem_children hx) (isFloatFree_of_mem_children hfree hx)
  cases v with
  | absent => exact hlegible.elim
  | nil m =>
    exact readsBack_of_word (s := utf8 "nil") ⟨_, _, rfl, by decide⟩ (by decide +kernel)
      (by decide) rfl fun _ => rfl
  | bool m b =>
    cases b
    · exact readsBack_of_word (s := utf8 "false") ⟨_, _, rfl, by decide⟩ (by decide +kernel)
        (by decide) rfl fun _ => rfl
    · exact readsBack_of_word (s := utf8 "true") ⟨_, _, rfl, by decide⟩ (by decide +kernel)
        (by decide) rfl fun _ => rfl
  | int m i =>
    exact readsBack_of_atom (fun _ => atom_ofInt i) (by rw [text, write, List.append_nil])
      fun _ => rfl
  | float => cases hfree
  | str m s => exact readsBack_of_atom (fun rest _ => atom_string s rest) rfl fun _ => rfl
  | keyword m k =>
    exact readsBack_of_atom (fun _ => .keyword hlegible) (by rw [text, write, List.append_nil])
      fun _ => rfl
  | symbol m s =>
    exact readsBack_of_word hlegible.starts hlegible.continues hlegible.notNumeral
      (by rw [text, write, List.append_nil]) (unmarked_wordNode hlegible)
  | list => exact collection .list rfl
  | vector => exact collection .vector rfl
  | set => exact collection .set rfl
  | map m es =>
    have hnode : Bracket.map.node? m (es.flatMap fun e => [e.1, e.2]) = some (map m es) := by
      rw [Bracket.node?, pairUp_flatMap, Option.map_some]
    exact collection .map hnode
termination_by sizeOf v

/-- The text of a legible node without doubles is read as a node of the same shape. -/
theorem exists_read_text {v : Node} (hlegible : v.Legible) (hfree : v.isFloatFree = true)
    (origin : Nat) : ∃ v', read v.text origin = .ok v' ∧ v'.unmarked = v.unmarked := by
  obtain ⟨v', hform, hsame⟩ := readsBack v hlegible hfree [] rfl .start
  exact ⟨v', read_of_form hform, hsame⟩

/-- A value without doubles that was read is read again from its text. It has the same shape, so it
is an equal value and has the same text. -/
theorem read_text {s : Bytes} {origin : Nat} {v : Node} (h : read s origin = .ok v)
    (hfree : v.isFloatFree = true) (origin' : Nat) :
    ∃ v', read v.text origin' = .ok v' ∧ v.equal v' = true ∧ v'.unmarked = v.unmarked ∧
      v'.text = v.text := by
  obtain ⟨v', hread, hsame⟩ := exists_read_text (legible_of_read h) hfree origin'
  refine ⟨v', hread, equal_of_unmarked_eq (hasNoNaN_of_isFloatFree hfree) hsame.symm, hsame, ?_⟩
  rw [← text_unmarked, hsame, text_unmarked]

/-- Words, numbers and collections that resemble each other, with and without blanks between. -/
def lookalikes : Bytes :=
  utf8 "[:5, ::a - +a a#b a:b \"q\\\"\\\\\\n\" -9223372036854775808 +9223372036854775807" ++
    utf8 "#\x7bnil\x7b\x7d\x7d ; -1\n() \x7btrue [x] \"\" ()\x7d]"

theorem read_text_lookalikes :
    ∃ v, read lookalikes = .ok v ∧ v.isFloatFree = true ∧
      ∃ v', read v.text 1 = .ok v' ∧ v.equal v' = true ∧ v'.unmarked = v.unmarked ∧
        v'.text = v.text := by
  have hread : (read lookalikes).toOption.any isFloatFree = true := by decide +kernel
  cases h : read lookalikes with
  | error e =>
    rw [h] at hread
    cases hread
  | ok v =>
    rw [h] at hread
    exact ⟨v, rfl, hread, read_text h hread 1⟩

end Node

end Equate
