import Equate.Proofs.Node.Legible
/-!
# Forms in front of a text

`Forms` is the grammar of the reader: the bytes that are separators, atoms and collections in front
of a text, the place of the first one and the nodes they are read as. It knows nothing of fuel and
cursors. `Node.read_eq_ok_iff` says that the reader reads exactly what the grammar allows.

Forms stay forms at any other place and in front of any other text in which no atom goes on
(`Forms.transfer`). A node at any depth has bytes of its own, which other forms may take the place
of (`Forms.focus`).
-/

namespace Equate

variable {origin origin' : Nat} {p p' : Position} {g s s' t t' : Bytes} {v : Node}
  {vs vs' : List Node}

/-! ## Grammar -/

/-- The bytes of a collection with the bytes `inner` between its brackets. -/
def Bracket.around (bracket : Bracket) (inner : Bytes) : Bytes :=
  bracket.opening ++ (inner ++ [bracket.closing])

/-- Whether the bytes `s`, the first of them at `p`, are forms and separators in front of `t`, and
the forms are read as the nodes `vs`. -/
inductive Forms (origin : Nat) : Position → Bytes → List Node → Bytes → Prop
  | nil {p : Position} {t : Bytes} : Forms origin p [] [] t
  | separator {p : Position} {g s t : Bytes} {vs : List Node} (hg : Separator g)
      (h : Forms origin (p.afterAll g) s vs t) : Forms origin p (g ++ s) vs t
  | atom {p : Position} {a s t : Bytes} {make : Mark → Node} {vs : List Node}
      (ha : Atom a make (s ++ t)) (h : Forms origin (p.afterAll a) s vs t) :
      Forms origin p (a ++ s) (make ⟨origin, some (.covering p a)⟩ :: vs) t
  | collection {p : Position} {bracket : Bracket} {inner s t : Bytes} {items vs : List Node}
      {v : Node}
      (hinner : Forms origin (p.afterAll bracket.opening) inner items (bracket.closing :: (s ++ t)))
      (hv : bracket.node? ⟨origin, some (.covering p (bracket.around inner))⟩ items = some v)
      (h : Forms origin (p.afterAll (bracket.around inner)) s vs t) :
      Forms origin p (bracket.around inner ++ s) (v :: vs) t

/-- Whether the bytes `s` are one form without separators around it. -/
inductive Form (origin : Nat) (p : Position) : Bytes → Node → Bytes → Prop
  | atom {a t : Bytes} {make : Mark → Node} (ha : Atom a make t) :
      Form origin p a (make ⟨origin, some (.covering p a)⟩) t
  | collection {bracket : Bracket} {inner t : Bytes} {items : List Node} {v : Node}
      (hinner : Forms origin (p.afterAll bracket.opening) inner items (bracket.closing :: t))
      (hv : bracket.node? ⟨origin, some (.covering p (bracket.around inner))⟩ items = some v) :
      Form origin p (bracket.around inner) v t

theorem Form.cons_forms (h : Form origin p s v (s' ++ t))
    (hs : Forms origin (p.afterAll s) s' vs t) : Forms origin p (s ++ s') (v :: vs) t := by
  cases h with
  | atom ha => exact .atom ha hs
  | collection hinner hv => exact .collection hinner hv hs

namespace Forms

theorem of_separator (hg : Separator g) : Forms origin p g [] t := by
  have h : Forms origin p (g ++ []) [] t := .separator hg .nil
  rwa [List.append_nil] at h

theorem of_form (h : Form origin p s v t) : Forms origin p s [v] t := by
  rw [← List.nil_append t] at h
  have hforms := h.cons_forms nil
  rwa [List.append_nil] at hforms

theorem append (h : Forms origin p s vs (s' ++ t)) (h' : Forms origin (p.afterAll s) s' vs' t) :
    Forms origin p (s ++ s') (vs ++ vs') t := by
  generalize hrest : s' ++ t = rest at h
  induction h with
  | nil => exact h'
  | separator hg _ ih =>
    rw [Position.afterAll_append] at h'
    rw [List.append_assoc]
    exact .separator hg (ih h' hrest)
  | atom ha _ ih =>
    subst hrest
    rw [Position.afterAll_append] at h'
    rw [List.append_assoc]
    exact .atom (by rwa [List.append_assoc]) (ih h' rfl)
  | collection hinner hv _ _ ih =>
    subst hrest
    rw [Position.afterAll_append] at h'
    rw [List.append_assoc]
    exact .collection (by rwa [List.append_assoc]) hv (ih h' rfl)

theorem separator_of_nil (h : Forms origin p s [] t) : Separator s := by
  generalize hvs : ([] : List Node) = vs at h
  induction h with
  | nil => exact .nil
  | separator hg _ ih => exact hg.append (ih hvs)
  | atom | collection => cases hvs

/-- The first node is a form, and what stands in front of it is a separator. -/
theorem exists_of_cons (h : Forms origin p s (v :: vs) t) :
    ∃ g a s', s = g ++ (a ++ s') ∧ Separator g ∧ Form origin (p.afterAll g) a v (s' ++ t) ∧
      Forms origin (p.afterAll (g ++ a)) s' vs t := by
  generalize hvs : v :: vs = ws at h
  induction h with
  | nil => cases hvs
  | @separator p g s t ws hg _ ih =>
    obtain ⟨g', a, s', rfl, hg', hform, hrest⟩ := ih hvs
    rw [← Position.afterAll_append] at hform hrest
    exact ⟨g ++ g', a, s', by rw [List.append_assoc], hg.append hg', hform,
      by rwa [List.append_assoc]⟩
  | atom ha h =>
    cases hvs
    exact ⟨[], _, _, rfl, .nil, .atom ha, h⟩
  | collection hinner hv h =>
    cases hvs
    exact ⟨[], _, _, rfl, .nil, .collection hinner hv, h⟩

end Forms

/-! ## Bytes and marks -/

theorem startsForm_opening (bracket : Bracket) (s : Bytes) :
    ∃ b bs, bracket.opening ++ s = b :: bs ∧ startsForm b = true := by
  cases bracket <;> exact ⟨_, _, rfl, by decide⟩

theorem Bracket.length_opening_pos (bracket : Bracket) : 0 < bracket.opening.length := by
  cases bracket <;> decide

theorem Bracket.around_ne_nil (bracket : Bracket) (inner : Bytes) : bracket.around inner ≠ [] := by
  cases bracket <;> exact List.cons_ne_nil _ _

namespace Form

theorem exists_startsForm (h : Form origin p s v t) :
    ∃ b bs, s = b :: bs ∧ startsForm b = true := by
  cases h with
  | atom ha => exact ha.exists_startsForm
  | collection => exact startsForm_opening _ _

theorem ne_nil (h : Form origin p s v t) : s ≠ [] := by
  obtain ⟨b, bs, rfl, -⟩ := h.exists_startsForm
  exact List.cons_ne_nil b bs

/-- The mark of a form covers its bytes. -/
theorem mark? (h : Form origin p s v t) : v.mark? = some ⟨origin, some (.covering p s)⟩ := by
  cases h with
  | atom ha => exact (ha.isLeaf_make _).mark?
  | collection _ hv => exact (Bracket.of_node? hv).1

theorem span? (h : Form origin p s v t) : v.span? = some (.covering p s) := by
  rw [Node.span?, h.mark?]
  rfl

/-- The form of a collection is its children in its brackets. -/
theorem exists_inner {bracket : Bracket} (h : Form origin p s v t)
    (hv : v.bracket? = some bracket) :
    ∃ inner, s = bracket.around inner ∧
      Forms origin (p.afterAll bracket.opening) inner v.children (bracket.closing :: t) ∧
      bracket.node? ⟨origin, some (.covering p (bracket.around inner))⟩ v.children = some v := by
  cases h with
  | atom ha =>
    rw [(ha.isLeaf_make _).bracket?] at hv
    cases hv
  | @collection bracket' inner _ items _ hinner hnode =>
    obtain ⟨-, hbracket, rfl⟩ := Bracket.of_node? hnode
    cases hv.symm.trans hbracket
    exact ⟨inner, rfl, hinner, hnode⟩

end Form

/-! ## What the grammar allows is read -/

theorem bracket?_opening (bracket : Bracket) (s : Bytes) :
    bracket? (bracket.opening ++ s) = .ok (some bracket) := by
  cases bracket <;> rfl

theorem startsForm_ne_closing {b : UInt8} (h : startsForm b = true) (bracket : Bracket) :
    b ≠ bracket.closing := by
  rintro rfl
  cases bracket <;> cases h

theorem opensSeparator_of_startsForm {b : UInt8} (h : startsForm b = true) :
    opensSeparator b = false := by
  simp only [startsForm, Bool.and_eq_true, Bool.not_eq_true', bne_iff_ne] at h
  simp [opensSeparator, h.1.1.1.1, h.1.1.1.2]

theorem skipSeparators_of_startsForm {b : UInt8} (h : startsForm b = true) (bs : Bytes)
    (p : Position) : (Cursor.mk (b :: bs) p).skipSeparators = ⟨b :: bs, p⟩ :=
  Cursor.skipSeparators_of_opensSeparator (opensSeparator_of_startsForm h) bs p

theorem readForm_separator (hg : Separator g) (t : Bytes) (p : Position) (fuel : Nat) :
    readForm origin (fuel + 1) ⟨g ++ t, p⟩ = readForm origin (fuel + 1) ⟨t, p.afterAll g⟩ := by
  rw [readForm, readForm, Cursor.skipSeparators_append hg]

theorem readItems_separator (hg : Separator g) (closing : UInt8) (t : Bytes) (p : Position)
    (fuel : Nat) :
    readItems origin (fuel + 1) closing ⟨g ++ t, p⟩ =
      readItems origin (fuel + 1) closing ⟨t, p.afterAll g⟩ := by
  rw [readItems, readItems, Cursor.skipSeparators_append hg]

theorem readItems_closing (bracket : Bracket) (t : Bytes) (p : Position) (fuel : Nat) :
    readItems origin (fuel + 1) bracket.closing ⟨bracket.closing :: t, p⟩ =
      .ok ([], ⟨bracket.closing :: t, p⟩) := by
  have hskip : (Cursor.mk (bracket.closing :: t) p).skipSeparators = ⟨bracket.closing :: t, p⟩ := by
    cases bracket <;> rfl
  rw [readItems, hskip]
  simp

/-- Where no separator and no closing byte is, an item is read, and then the items behind it are. -/
theorem readItems_eq_bind {closing b : UInt8} (hb : opensSeparator b = false)
    (hclosing : b ≠ closing) (bs : Bytes) (p : Position) (fuel : Nat) :
    readItems origin (fuel + 1) closing ⟨b :: bs, p⟩ =
      (readForm origin fuel ⟨b :: bs, p⟩).bind fun x =>
        (readItems origin fuel closing x.2).map (Prod.map (x.1 :: ·) id) := by
  have hhead : ((b :: bs).isEmpty || (b :: bs).head? == some closing) = false := by
    simp [hclosing]
  rw [readItems, Cursor.skipSeparators_of_opensSeparator hb]
  simp only [hhead, Bool.false_eq_true, if_false]
  cases readForm origin fuel ⟨b :: bs, p⟩ with
  | error e => rfl
  | ok x =>
    simp only [Except.bind]
    cases readItems origin fuel closing x.2 <;> rfl

theorem readItems_startsForm {bracket : Bracket} {b : UInt8} (hb : startsForm b = true) (bs : Bytes)
    (p : Position) (fuel : Nat) :
    readItems origin (fuel + 1) bracket.closing ⟨b :: bs, p⟩ =
      (readForm origin fuel ⟨b :: bs, p⟩).bind fun x =>
        (readItems origin fuel bracket.closing x.2).map (Prod.map (x.1 :: ·) id) :=
  readItems_eq_bind (opensSeparator_of_startsForm hb) (startsForm_ne_closing hb bracket) bs p fuel

/-- An item that is read and the items behind it are the items from there on. -/
theorem readItems_cons {bracket : Bracket} (hs : ∃ b bs, s = b :: bs ∧ startsForm b = true)
    {fuel : Nat} {between behind : Cursor}
    (hv : readForm origin fuel ⟨s ++ t, p⟩ = .ok (v, between))
    (hvs : readItems origin fuel bracket.closing between = .ok (vs, behind)) :
    readItems origin (fuel + 1) bracket.closing ⟨s ++ t, p⟩ = .ok (v :: vs, behind) := by
  obtain ⟨b, bs, rfl, hb⟩ := hs
  rw [List.cons_append] at hv ⊢
  rw [readItems_startsForm hb, hv, Except.bind, hvs]
  rfl

/-- A form that opens no bracket is read as an atom. -/
theorem readForm_eq_readAtom {b : UInt8} {bs : Bytes} (hb : opensSeparator b = false)
    (hbracket : bracket? (b :: bs) = .ok none) (p : Position) (fuel : Nat) :
    readForm origin (fuel + 1) ⟨b :: bs, p⟩ = readAtom origin ⟨b :: bs, p⟩ := by
  rw [readForm, Cursor.skipSeparators_of_opensSeparator hb]
  simp only [hbracket]

theorem readForm_of_startsAtom {b : UInt8} (hb : startsAtom b = true) (bs : Bytes) (p : Position)
    (fuel : Nat) : readForm origin (fuel + 1) ⟨b :: bs, p⟩ = readAtom origin ⟨b :: bs, p⟩ :=
  readForm_eq_readAtom (opensSeparator_of_startsForm (startsForm_of_startsAtom hb))
    (bracket?_of_startsAtom hb bs) p fuel

theorem readForm_atom {make : Mark → Node} (h : Atom s make t) (p : Position) (fuel : Nat) :
    readForm origin (fuel + 1) ⟨s ++ t, p⟩ =
      .ok (make ⟨origin, some (.covering p s)⟩, ⟨t, p.afterAll s⟩) := by
  rw [← readAtom_of_atom h]
  obtain ⟨b, bs, rfl, hb⟩ := h.exists_startsAtom
  rw [List.cons_append, readForm_of_startsAtom hb]

theorem Span.covering_around (p : Position) (bracket : Bracket) (inner : Bytes) :
    Span.covering p (bracket.around inner) = ⟨p, (p.afterAll bracket.opening).afterAll inner⟩ := by
  rw [Span.covering, Bracket.around, ← List.append_assoc, List.dropLast_concat,
    Position.afterAll_append]

/-- Behind an opening bracket the items of the collection are read, and then it is closed. -/
theorem readForm_opening (bracket : Bracket) (s : Bytes) (p : Position) (fuel : Nat) :
    readForm origin (fuel + 1) ⟨bracket.opening ++ s, p⟩ =
      (readItems origin fuel bracket.closing ⟨s, p.afterAll bracket.opening⟩).bind fun x =>
        closeCollection origin ⟨bracket.opening ++ s, p⟩ bracket x.1 x.2 := by
  have hskip : (Cursor.mk (bracket.opening ++ s) p).skipSeparators = ⟨bracket.opening ++ s, p⟩ := by
    obtain ⟨b, bs, heq, hb⟩ := startsForm_opening bracket s
    rw [heq, skipSeparators_of_startsForm hb]
  rw [readForm, hskip]
  simp only [bracket?_opening, Cursor.skip_append]
  cases readItems origin fuel bracket.closing ⟨s, p.afterAll bracket.opening⟩ <;> rfl

theorem readForm_collection {bracket : Bracket} {inner t : Bytes} {fuel : Nat} {items : List Node}
    (hinner : readItems origin fuel bracket.closing
        ⟨inner ++ bracket.closing :: t, p.afterAll bracket.opening⟩ =
      .ok (items, ⟨bracket.closing :: t, (p.afterAll bracket.opening).afterAll inner⟩))
    (hv : bracket.node? ⟨origin, some (.covering p (bracket.around inner))⟩ items = some v) :
    readForm origin (fuel + 1) ⟨bracket.around inner ++ t, p⟩ =
      .ok (v, ⟨t, p.afterAll (bracket.around inner)⟩) := by
  have hsplit : bracket.around inner ++ t = bracket.opening ++ (inner ++ bracket.closing :: t) := by
    simp [Bracket.around]
  rw [Span.covering_around] at hv
  rw [hsplit, readForm_opening, hinner, Except.bind]
  simp only [closeCollection, List.isEmpty_cons, hv, Bool.false_eq_true, if_false]
  simp [Cursor.skip, Bracket.around]

/-- A form takes one unit of fuel and an item another. Both take a byte, and so do the brackets. -/
theorem readItems_of_forms {bracket : Bracket} (h : Forms origin p s vs (bracket.closing :: t))
    (fuel : Nat) (hfuel : 2 * s.length < fuel) :
    readItems origin fuel bracket.closing ⟨s ++ bracket.closing :: t, p⟩ =
      .ok (vs, ⟨bracket.closing :: t, p.afterAll s⟩) := by
  generalize hrest : bracket.closing :: t = rest at h
  induction h generalizing bracket t fuel with
  | nil =>
    obtain ⟨fuel, rfl⟩ : ∃ n, fuel = n + 1 := ⟨fuel - 1, by omega⟩
    subst hrest
    exact readItems_closing bracket t _ fuel
  | separator hg _ ih =>
    rw [List.length_append] at hfuel
    obtain ⟨fuel, rfl⟩ : ∃ n, fuel = n + 1 := ⟨fuel - 1, by omega⟩
    rw [List.append_assoc, readItems_separator hg, ih _ (by omega) hrest, Position.afterAll_append]
  | @atom p a _ _ _ _ ha _ ih =>
    have hpos : 0 < a.length := List.length_pos_iff.2 ha.ne_nil
    rw [List.length_append] at hfuel
    obtain ⟨fuel, rfl⟩ : ∃ n, fuel = n + 2 := ⟨fuel - 2, by omega⟩
    subst hrest
    rw [List.append_assoc, Position.afterAll_append]
    exact readItems_cons ha.exists_startsForm (readForm_atom ha p fuel) (ih _ (by omega) rfl)
  | @collection p bracket' inner s _ _ _ _ _ hv _ ihinner ih =>
    have hlength : inner.length + 2 ≤ (bracket'.around inner).length := by
      cases bracket' <;> simp [Bracket.around, Bracket.opening]
    rw [List.length_append] at hfuel
    obtain ⟨fuel, rfl⟩ : ∃ n, fuel = n + 2 := ⟨fuel - 2, by omega⟩
    subst hrest
    rw [List.append_assoc, Position.afterAll_append]
    exact readItems_cons (startsForm_opening bracket' _)
      (readForm_collection (ihinner fuel (by omega) rfl) hv) (ih _ (by omega) rfl)

theorem readForm_of_form (h : Form origin p s v t) (fuel : Nat) (hfuel : 2 * s.length ≤ fuel) :
    readForm origin fuel ⟨s ++ t, p⟩ = .ok (v, ⟨t, p.afterAll s⟩) := by
  have hpos : 0 < s.length := List.length_pos_iff.2 h.ne_nil
  obtain ⟨fuel, rfl⟩ : ∃ n, fuel = n + 1 := ⟨fuel - 1, by omega⟩
  cases h with
  | atom ha => exact readForm_atom ha p fuel
  | @collection bracket inner _ _ _ hinner hv =>
    simp only [Bracket.around, List.length_append, List.length_singleton] at hfuel
    exact readForm_collection (readItems_of_forms hinner fuel (by omega)) hv

/-! ## What is read is allowed by the grammar -/

theorem rest_of_bracket? {bracket : Bracket} (h : bracket? s = .ok (some bracket)) :
    ∃ bs, s = bracket.opening ++ bs := by
  cases s with
  | nil => cases h
  | cons b bs =>
    rw [bracket?] at h
    split at h
    · cases h
      exact ⟨bs, by simp_all [Bracket.opening]⟩
    split at h
    · cases h
      exact ⟨bs, by simp_all [Bracket.opening]⟩
    split at h
    · cases h
      exact ⟨bs, by simp_all [Bracket.opening]⟩
    split at h
    · split at h
      · rename_i hbrace
        cases h
        obtain ⟨bs, rfl⟩ := List.head?_eq_some_iff.1 hbrace
        exact ⟨bs, by simp_all [Bracket.opening]⟩
      · cases h
    · cases h

/-- Whether a form is next at the cursor `c`, and `c'` is behind it. -/
def FormAt (origin : Nat) (c : Cursor) (v : Node) (c' : Cursor) : Prop :=
  ∃ g s, Separator g ∧ c.Passes (g ++ s) c' ∧ Form origin (c.position.afterAll g) s v c'.rest

/-- Whether the nodes `vs` are what stands between two cursors, apart from separators. -/
def FormsUpTo (origin : Nat) (c : Cursor) (vs : List Node) (c' : Cursor) : Prop :=
  ∃ s, c.Passes s c' ∧ Forms origin c.position s vs c'.rest

theorem FormsUpTo.of_separator {c c' : Cursor} (hg : Separator g) (hpasses : c.Passes g c') :
    FormsUpTo origin c [] c' :=
  ⟨g, hpasses, .of_separator hg⟩

namespace FormAt

/-- A form that is read takes at least one byte. -/
theorem exists_passes {c c' : Cursor} (h : FormAt origin c v c') : ∃ s, s ≠ [] ∧ c.Passes s c' := by
  obtain ⟨g, s, -, hpasses, hform⟩ := h
  exact ⟨g ++ s, by simp [hform.ne_nil], hpasses⟩

theorem length_lt {c c' : Cursor} (h : FormAt origin c v c') :
    c'.rest.length < c.rest.length := by
  obtain ⟨s, hs, hpasses⟩ := h.exists_passes
  have hpos := List.length_pos_iff.2 hs
  rw [hpasses.length]
  omega

theorem rest_ne_nil {c c' : Cursor} (h : FormAt origin c v c') : c.rest ≠ [] :=
  List.ne_nil_of_length_pos (Nat.zero_lt_of_lt h.length_lt)

/-- A form behind a separator, and the forms behind it. -/
theorem cons {c c₁ c₂ c₃ : Cursor} (h : FormAt origin c₁ v c₂) (hg : Separator g)
    (hpasses : c.Passes g c₁) (hvs : FormsUpTo origin c₂ vs c₃) :
    FormsUpTo origin c (v :: vs) c₃ := by
  obtain ⟨g', a, hg', ha, hform⟩ := h
  obtain ⟨s, hs, hforms⟩ := hvs
  rw [hs.rest] at hform
  rw [ha.position, Position.afterAll_append] at hforms
  have hbehind := Forms.separator hg' (hform.cons_forms hforms)
  rw [hpasses.position, ← List.append_assoc] at hbehind
  exact ⟨_, hpasses.trans (ha.trans hs), .separator hg hbehind⟩

end FormAt

/-- Whether forms are next at the cursor `c`, and the bracket that closes at `c'` is behind them. -/
def FormsAt (origin : Nat) (c : Cursor) (bracket : Bracket) (vs : List Node) (c' : Cursor) : Prop :=
  ∃ s t, c.Passes s c' ∧ c'.rest = bracket.closing :: t ∧ Forms origin c.position s vs c'.rest

theorem formAt_of_closeCollection {c behind c' : Cursor} {bracket : Bracket} {bs : Bytes}
    (hopening : c.rest = bracket.opening ++ bs)
    (hitems : behind.rest ≠ [] →
      FormsAt origin (c.skip bracket.opening.length) bracket vs behind)
    (h : closeCollection origin c bracket vs behind = .ok (v, c')) :
    ∃ s, c.Passes s c' ∧ Form origin c.position s v c'.rest := by
  rw [closeCollection] at h
  split at h
  · cases h
  rename_i hend
  split at h
  · rename_i node hnode
    cases h
    obtain ⟨inner, t, hinner, hclosing, hforms⟩ := hitems (by simpa using hend)
    have hopen : c.Passes bracket.opening (c.skip bracket.opening.length) := .skip hopening
    have hclose : behind.Passes [bracket.closing] (behind.skip 1) := .skip hclosing
    have hrest : (behind.skip 1).rest = t := by
      simp [Cursor.skip, hclosing]
    rw [hclosing, ← hrest, hopen.position] at hforms
    refine ⟨bracket.around inner, hopen.trans (hinner.trans hclose), .collection hforms ?_⟩
    rw [Span.covering_around, ← hopen.position, ← hinner.position]
    exact hnode
  · cases h

/-- The induction is on the fuel. -/
theorem formAt_of_readForm (fuel : Nat) :
    (∀ {c v c'}, readForm origin fuel c = .ok (v, c') → FormAt origin c v c') ∧
      ∀ {bracket c vs c'}, readItems origin fuel (Bracket.closing bracket) c = .ok (vs, c') →
        c'.rest ≠ [] → FormsAt origin c bracket vs c' := by
  induction fuel with
  | zero =>
    constructor
    · intro c v c' h
      rw [readForm.eq_def] at h
      cases h
    · intro bracket c vs c' h
      rw [readItems.eq_def] at h
      cases h
  | succ fuel ih =>
    obtain ⟨ihForm, ihItems⟩ := ih
    constructor
    · intro c v c' h
      have hform : ∃ s, c.skipSeparators.Passes s c' ∧
          Form origin c.skipSeparators.position s v c'.rest := by
        rcases readForm_cases h with hatom | ⟨bracket, items, behind, hbracket, hitems, hclose⟩
        · obtain ⟨s, make, ha, hpasses, rfl⟩ := atomAt_of_readAtom hatom
          exact ⟨s, hpasses, .atom ha⟩
        · obtain ⟨bs, hopening⟩ := rest_of_bracket? hbracket
          exact formAt_of_closeCollection hopening (ihItems hitems) hclose
      obtain ⟨s, hpasses, hform⟩ := hform
      have hne : c.skipSeparators.rest ≠ [] := by
        rw [hpasses.rest]
        simp [hform.ne_nil]
      obtain ⟨g, hg, hskip⟩ := Cursor.separator_of_skipSeparators hne
      exact ⟨g, s, hg, hskip.trans hpasses, hskip.position ▸ hform⟩
    · intro bracket c vs c' h hend
      rcases readItems_cases h with ⟨rfl, rfl, hclosing⟩ | ⟨x, xs, between, hx, hxs, rfl⟩
      · obtain ⟨t, hclosing⟩ := hclosing.resolve_left hend
        obtain ⟨g, hg, hskip⟩ := Cursor.separator_of_skipSeparators hend
        exact ⟨g, t, hskip, hclosing, .of_separator hg⟩
      · have hform := ihForm hx
        obtain ⟨s, t, hpasses, hclosing, hforms⟩ := ihItems hxs hend
        obtain ⟨g, hg, hskip⟩ := Cursor.separator_of_skipSeparators hform.rest_ne_nil
        obtain ⟨s', hs', hforms'⟩ := hform.cons hg hskip ⟨s, hpasses, hforms⟩
        exact ⟨s', t, hs', hclosing, hforms'⟩

/-- A text is read exactly if it is one form with separators around it, and perhaps a comment at its
end that no newline ends. -/
theorem Node.read_eq_ok_iff {text : Bytes} :
    Node.read text origin = .ok v ↔
      ∃ s t, text = s ++ t ∧ Forms origin .start s [v] t ∧ EndsText t := by
  constructor
  · intro h
    obtain ⟨c, hform, hend⟩ := readForm_of_read h
    obtain ⟨g, s, hg, hpasses, hform⟩ := (formAt_of_readForm _).1 hform
    obtain ⟨g', t, hrest, hg', ht⟩ := Cursor.skipSeparators_rest_eq_nil_iff.1 hend
    have htext : text = g ++ s ++ c.rest := hpasses.rest
    rw [hrest] at hform htext
    refine ⟨g ++ (s ++ g'), t, by simp [htext], .separator hg ?_, ht⟩
    exact hform.cons_forms (.of_separator hg')
  · rintro ⟨s, t, rfl, h, ht⟩
    obtain ⟨g, a, s', rfl, hg, hform, hrest⟩ := h.exists_of_cons
    have htext : g ++ (a ++ s') ++ t = g ++ (a ++ (s' ++ t)) := by simp
    have hend : (Cursor.mk (s' ++ t) ((Position.start.afterAll g).afterAll a)).skipSeparators.rest =
        [] := Cursor.skipSeparators_rest_eq_nil_iff.2 ⟨s', t, rfl, hrest.separator_of_nil, ht⟩
    rw [Node.read, Cursor.start, htext, readForm_separator hg, readForm_of_form hform]
    · simp [hend]
    · simp only [List.length_append]
      omega

theorem Node.read_of_form (h : Form origin .start s v []) : Node.read s origin = .ok v :=
  Node.read_eq_ok_iff.2 ⟨s, [], (List.append_nil s).symm, .of_form h, .inl rfl⟩

/-! ## Forms elsewhere -/

theorem map_unmarked_pairUp (xs : List Node) :
    pairUp (xs.map Node.unmarked) =
      (pairUp xs).map fun es => es.map fun e => (e.1.unmarked, e.2.unmarked) := by
  fun_induction pairUp xs with
  | case1 => rfl
  | case2 => rfl
  | case3 k v rest ih =>
    rw [List.map_cons, List.map_cons, pairUp, ih]
    cases pairUp rest <;> rfl

theorem map_unmarked_node? (bracket : Bracket) (mark : Mark) (xs : List Node) :
    (bracket.node? mark xs).map Node.unmarked = bracket.node? .blank (xs.map Node.unmarked) := by
  cases bracket with
  | list | vector | set => simp [Bracket.node?, Node.unmarked]
  | map =>
    rw [Bracket.node?, Bracket.node?, map_unmarked_pairUp]
    cases pairUp xs <;> simp [Node.unmarked]

/-- Nodes that are alike without their marks make collections that are. -/
theorem Bracket.exists_node? {bracket : Bracket} {mark : Mark} (mark' : Mark)
    {xs xs' : List Node} (h : bracket.node? mark xs = some v)
    (hxs : xs'.map Node.unmarked = xs.map Node.unmarked) :
    ∃ v', bracket.node? mark' xs' = some v' ∧ v'.unmarked = v.unmarked := by
  have hunmarked := map_unmarked_node? bracket mark' xs'
  rw [hxs, ← map_unmarked_node? bracket mark, h] at hunmarked
  exact Option.map_eq_some_iff.1 hunmarked

/-- Forms are forms at any place and in front of any text in which no atom goes on. -/
theorem Forms.transfer (h : Forms origin p s vs t) (ht : EndsAlike t t') (origin' : Nat)
    (p' : Position) :
    ∃ vs', Forms origin' p' s vs' t' ∧ vs'.map Node.unmarked = vs.map Node.unmarked := by
  induction h generalizing p' t' with
  | nil => exact ⟨[], .nil, rfl⟩
  | separator hg _ ih =>
    obtain ⟨vs', hvs, hsame⟩ := ih ht (p'.afterAll _)
    exact ⟨vs', .separator hg hvs, hsame⟩
  | @atom p a s t make vs ha _ ih =>
    obtain ⟨vs', hvs, hsame⟩ := ih ht (p'.afterAll a)
    refine ⟨_, .atom (ha.before (ht.append s)) hvs, ?_⟩
    rw [List.map_cons, List.map_cons, hsame, ha.unmarked_make]
  | @collection p bracket inner s t items vs v _ hv _ ihinner ih =>
    obtain ⟨items', hinner, hitems⟩ := ihinner (.cons bracket.closing (s ++ t) (s ++ t'))
      (p'.afterAll bracket.opening)
    obtain ⟨v', hv', hsame⟩ := Bracket.exists_node?
      ⟨origin', some (.covering p' (bracket.around inner))⟩ hv hitems
    obtain ⟨vs', hvs, hsames⟩ := ih ht (p'.afterAll (bracket.around inner))
    refine ⟨v' :: vs', .collection hinner hv' hvs, ?_⟩
    rw [List.map_cons, List.map_cons, hsame, hsames]

theorem Form.transfer (h : Form origin p s v t) (ht : EndsAlike t t') (origin' : Nat)
    (p' : Position) : ∃ v', Form origin' p' s v' t' ∧ v'.unmarked = v.unmarked := by
  cases h with
  | atom ha => exact ⟨_, .atom (ha.before ht), ha.unmarked_make _ _⟩
  | @collection bracket inner _ _ _ hinner hv =>
    obtain ⟨items', hinner', hitems⟩ := hinner.transfer (.cons bracket.closing t t') origin'
      (p'.afterAll bracket.opening)
    obtain ⟨v', hv', hsame⟩ := Bracket.exists_node?
      ⟨origin', some (.covering p' (bracket.around inner))⟩ hv hitems
    exact ⟨v', .collection hinner' hv', hsame⟩

end Equate
