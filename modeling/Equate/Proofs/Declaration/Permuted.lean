import Equate.Proofs.Declaration.Findings
/-!
# Options in another order

A form whose options come in another order (`Node.Permuted`) has the same values for a key, up to
what the values themselves may differ in. No key is repeated, so there is at most one value for it
(`Node.Permuted.values_cases`), and whatever is asked of a form by its keys has the same answer. The
options of a strategy are set one after the other, and that can be done in any order
(`Strategy.ofNode_of_permuted`).
-/

namespace Equate

/-! ## Options as they are written -/

/-- An option as it is written: a key and the value behind it. -/
structure WrittenOption where
  mark : Mark := .blank
  key : Bytes
  value : Node

namespace WrittenOption

def nodes (o : WrittenOption) : List Node := [.keyword o.mark o.key, o.value]

def clause (o : WrittenOption) : Clause := (o.key, o.value)

/-- Whether options have the same key, and values that are related. -/
structure Alike (R : Bytes → Node → Node → Prop) (o o' : WrittenOption) : Prop where
  key : o.key = o'.key
  value : R o.key o.value o'.value

theorem readClauses_flatMap_nodes (head : Bytes) (os : List WrittenOption) :
    readClauses head (os.flatMap nodes) = (os.map clause, []) := by
  induction os with
  | nil => rfl
  | cons o os ih =>
    show readClauses head (.keyword o.mark o.key :: o.value :: os.flatMap nodes) = _
    simp only [readClauses, Node.keyword?, ih]
    rfl

theorem values_map_clause (key : Bytes) (os : List WrittenOption) :
    Clause.values key (os.map clause) = (os.filter fun o => o.key == key).map value := by
  rw [Clause.values, List.filter_map, List.map_map]
  rfl

/-- Where no key is repeated, one option at most has the key. -/
theorem length_filter_le_one {os : List WrittenOption} (h : (os.map key).Nodup) (k : Bytes) :
    (os.filter fun o => o.key == k).length ≤ 1 := by
  have hcount := List.nodup_iff_count_le_one.1 h k
  rwa [List.count, List.countP_map, List.countP_eq_length_filter] at hcount

end WrittenOption

open WrittenOption

/-- A list with a head and options behind it. -/
def Node.form (m : Mark) (head : Node) (os : List WrittenOption) : Node :=
  .list m (head :: os.flatMap nodes)

/-- Whether a form without repeated keys has the options of another one in another order, with
values that are related. -/
inductive Node.Permuted (R : Bytes → Node → Node → Prop) : Node → Node → Prop where
  | intro {m : Mark} {head : Node} {os mid os' : List WrittenOption}
      (hkeys : (os.map WrittenOption.key).Nodup) (horder : os.Perm mid)
      (hvalues : List.Forall₂ (Alike R) mid os') :
      Permuted R (form m head os) (form m head os')

namespace Node

theorem clauses_form (m : Mark) (head : Node) (os : List WrittenOption) :
    (form m head os).clauses = os.map clause :=
  congrArg Prod.fst (readClauses_flatMap_nodes (form m head os).head os)

theorem stop_form (m : Mark) (head : Node) (os : List WrittenOption) :
    (form m head os).stop = [] :=
  congrArg Prod.snd (readClauses_flatMap_nodes (form m head os).head os)

namespace Permuted

variable {R : Bytes → Node → Node → Prop} {f g : Node} {key : Bytes}

/-- Options in reverse order are options in another order. -/
theorem reverse {m : Mark} {head : Node} {os os' : List WrittenOption}
    (hkeys : (os.map WrittenOption.key).Nodup) (hvalues : List.Forall₂ (Alike R) os os') :
    (form m head os).Permuted R (form m head os'.reverse) :=
  .intro hkeys os.reverse_perm.symm (List.forall₂_reverse_iff.2 hvalues)

theorem head_eq (h : f.Permuted R g) : g.head = f.head := by
  cases h with
  | @intro m head =>
    unfold form
    cases head <;> rfl

theorem location_eq (h : f.Permuted R g) : g.location = f.location := by
  cases h
  rfl

theorem stop_eq_nil (h : f.Permuted R g) : f.stop = [] ∧ g.stop = [] := by
  cases h
  exact ⟨stop_form _ _ _, stop_form _ _ _⟩

/-- There is at most one value for a key, and as many in the other form. -/
theorem values_cases (h : f.Permuted R g) (key : Bytes) :
    (Clause.values key f.clauses = [] ∧ Clause.values key g.clauses = []) ∨
      ∃ v w, Clause.values key f.clauses = [v] ∧ Clause.values key g.clauses = [w] ∧ R key v w := by
  cases h with
  | @intro m head os mid os' hkeys horder hvalues =>
    rw [clauses_form, clauses_form, values_map_clause, values_map_clause]
    have hle := length_filter_le_one hkeys key
    have hperm := horder.filter fun o => o.key == key
    have hrel : List.Forall₂ (Alike R) (mid.filter fun o => o.key == key)
        (os'.filter fun o => o.key == key) :=
      List.rel_filter (fun o o' halike => by simp only [halike.key]) hvalues
    cases hos : os.filter fun o => o.key == key with
    | nil =>
      rw [hos, List.nil_perm] at hperm
      rw [hperm, List.forall₂_nil_left_iff] at hrel
      rw [hrel]
      exact .inl ⟨rfl, rfl⟩
    | cons o rest =>
      obtain rfl : rest = [] := by
        rw [hos, List.length_cons] at hle
        exact List.length_eq_zero_iff.1 (by omega)
      rw [hos, List.singleton_perm] at hperm
      rw [← hperm, List.forall₂_cons_left_iff] at hrel
      obtain ⟨o', rest, halike, hrest, hos'⟩ := hrel
      rw [List.forall₂_nil_left_iff.1 hrest] at hos'
      have hkey : o.key = key := by
        have hmem : o ∈ os.filter fun o => o.key == key := hos ▸ List.mem_cons_self
        simpa using (List.mem_filter.1 hmem).2
      rw [hos']
      exact .inr ⟨o.value, o'.value, rfl, rfl, hkey ▸ halike.value⟩

/-- Values that stay as they are can be looked up in either form. -/
theorem values_eq (h : f.Permuted R g) (hkept : ∀ v w, R key v w → v = w) :
    Clause.values key g.clauses = Clause.values key f.clauses := by
  rcases h.values_cases key with ⟨hf, hg⟩ | ⟨v, w, hf, hg, hR⟩
  · rw [hf, hg]
  · rw [hf, hg, hkept v w hR]

theorem value?_eq (h : f.Permuted R g) (hkept : ∀ v w, R key v w → v = w) :
    Clause.value? key g.clauses = Clause.value? key f.clauses := by
  unfold Clause.value?
  rw [h.values_eq hkept]

/-- The values that count for a key are related, or are the same if they can be absent. -/
theorem value?_cases (h : f.Permuted R g) (key : Bytes)
    (hpresent : ∀ v w, R key v w → v = w ∨ v ≠ .absent ∧ w ≠ .absent) :
    Clause.value? key g.clauses = Clause.value? key f.clauses ∨
      ∃ v w, Clause.value? key f.clauses = some v ∧ Clause.value? key g.clauses = some w ∧
        R key v w := by
  have hpresent' {cs : List Clause} {v : Node} (hcs : Clause.values key cs = [v])
      (hv : v ≠ .absent) : Clause.value? key cs = some v := by
    unfold Clause.value?
    rw [hcs, List.getLast?_singleton]
    cases v with
    | absent => exact absurd rfl hv
    | _ => rfl
  rcases h.values_cases key with ⟨hf, hg⟩ | ⟨v, w, hf, hg, hR⟩
  · left
    rw [Clause.value?, Clause.value?, hf, hg]
  · rcases hpresent v w hR with rfl | ⟨hv, hw⟩
    · left
      rw [Clause.value?, Clause.value?, hf, hg]
    · exact .inr ⟨v, w, hpresent' hf hv, hpresent' hg hw, hR⟩

theorem nameFor_eq (h : f.Permuted R g) (hkept : ∀ v w, R key v w → v = w) :
    g.nameFor key = f.nameFor key := by
  unfold nameFor Clause.name
  rw [h.value?_eq hkept]

theorem boolean_eq (h : f.Permuted R g) (hkept : ∀ v w, R key v w → v = w) (default : Bool) :
    Clause.boolean key default g.clauses = Clause.boolean key default f.clauses := by
  unfold Clause.boolean
  rw [h.values_eq hkept]

/-- What finds nothing in the options of a form finds nothing in the options in another order. -/
theorem filterMap_clauses_eq_nil (h : f.Permuted R g) {find? : Clause → Option Finding}
    (hfind : ∀ key v w, R key v w → find? (key, v) = none → find? (key, w) = none)
    (hnil : f.clauses.filterMap find? = []) : g.clauses.filterMap find? = [] := by
  cases h with
  | @intro m head os mid os' hkeys horder hvalues =>
    simp only [clauses_form, List.filterMap_eq_nil_iff, List.forall_mem_map] at hnil ⊢
    have hmid : ∀ o ∈ mid, find? o.clause = none := fun o ho => hnil o (horder.mem_iff.2 ho)
    clear horder
    induction hvalues with
    | nil => exact List.forall_mem_nil _
    | @cons o o' mid os' halike _ ih =>
      obtain ⟨ho, hmid⟩ := List.forall_mem_cons.1 hmid
      have ho' := hfind o.key o.value o'.value halike.value ho
      rw [halike.key] at ho'
      exact List.forall_mem_cons.2 ⟨ho', ih hmid⟩

end Permuted

/-! ## Options with values as they are -/

/-- Values that stay as they are. -/
def Kept (_ : Bytes) (v w : Node) : Prop := v = w

namespace Permuted

variable {f g : Node}

theorem perm_clauses (h : f.Permuted Kept g) : f.clauses.Perm g.clauses := by
  cases h with
  | @intro m head os mid os' hkeys horder hvalues =>
    rw [clauses_form, clauses_form]
    have hclauses : mid.map clause = os'.map clause := by
      rw [← List.forall₂_eq_eq_eq, List.forall₂_map_left_iff, List.forall₂_map_right_iff]
      exact hvalues.imp fun o o' halike => Prod.ext halike.key halike.value
    exact hclauses ▸ horder.map clause

theorem nodup_keys {R : Bytes → Node → Node → Prop} (h : f.Permuted R g) :
    (f.clauses.map Prod.fst).Nodup := by
  cases h with
  | intro hkeys =>
    rw [clauses_form, List.map_map]
    exact hkeys

end Permuted

end Node

/-! ## Strategies -/

namespace StrategyOptions

variable {head : Bytes} {o o' : StrategyOptions}

/-- What an option sets. -/
inductive Sets (head : Bytes) (o : StrategyOptions) : Clause → StrategyOptions → Prop where
  | order {m : Mark} {i : Int64} (hrange : -0x80000000 ≤ i.toInt ∧ i.toInt < 0x80000000) :
      Sets head o (utf8 "order", .int m i) { o with order? := some i.toInt }
  | orderMatters {v : Node} {b : Bool} (hhead : head = utf8 "sequence") (hv : v.boolean? = some b) :
      Sets head o (utf8 "order-matters", v) { o with orderMatters := b }
  | deep {v : Node} {b : Bool} (hhead : head = utf8 "sequence") (hv : v.boolean? = some b) :
      Sets head o (utf8 "deep", v) { o with deep := b }

theorem set_eq_ok_iff {c : Clause} : o.set head c.1 c.2 = .ok o' ↔ Sets head o c o' := by
  obtain ⟨key, v⟩ := c
  constructor
  · intro h
    unfold set at h
    split at h
    · rename_i hkey
      subst hkey
      cases v with
      | int m i =>
        dsimp only at h
        split at h
        · rename_i hrange
          cases h
          exact .order hrange
        · cases h
      | _ => cases h
    split at h
    · rename_i hkey
      obtain ⟨hhead, rfl⟩ := hkey
      split at h
      · rename_i hv
        cases h
        exact .orderMatters hhead hv
      · cases h
    split at h
    · rename_i hkey
      obtain ⟨hhead, rfl⟩ := hkey
      split at h
      · rename_i hv
        cases h
        exact .deep hhead hv
      · cases h
    · cases h
  · intro h
    cases h with
    | order hrange => exact if_pos hrange
    | orderMatters hhead hv =>
      subst hhead
      simp only [set, hv]
      rfl
    | deep hhead hv =>
      subst hhead
      simp only [set, hv]
      rfl

/-- Options with different keys can be set in either order. -/
theorem Sets.swap {c c' : Clause} {o'' : StrategyOptions} (h : Sets head o c o')
    (h' : Sets head o' c' o'') (hkeys : c.1 ≠ c'.1) :
    ∃ p, Sets head o c' p ∧ Sets head p c o'' := by
  cases h with
  | order hrange =>
    cases h' with
    | order => exact absurd rfl hkeys
    | orderMatters hhead hv => exact ⟨_, .orderMatters hhead hv, .order hrange⟩
    | deep hhead hv => exact ⟨_, .deep hhead hv, .order hrange⟩
  | orderMatters hhead hv =>
    cases h' with
    | order hrange => exact ⟨_, .order hrange, .orderMatters hhead hv⟩
    | orderMatters => exact absurd rfl hkeys
    | deep hhead' hv' => exact ⟨_, .deep hhead' hv', .orderMatters hhead hv⟩
  | deep hhead hv =>
    cases h' with
    | order hrange => exact ⟨_, .order hrange, .deep hhead hv⟩
    | orderMatters hhead' hv' => exact ⟨_, .orderMatters hhead' hv', .deep hhead hv⟩
    | deep => exact absurd rfl hkeys

/-- What options set, one after the other. -/
inductive SetsAll (head : Bytes) : StrategyOptions → List Clause → StrategyOptions → Prop where
  | nil {o : StrategyOptions} : SetsAll head o [] o
  | cons {o p q : StrategyOptions} {c : Clause} {cs : List Clause} (h : Sets head o c p)
      (hrest : SetsAll head p cs q) : SetsAll head o (c :: cs) q

theorem SetsAll.perm {cs cs' : List Clause} (hperm : cs.Perm cs')
    (hkeys : (cs.map Prod.fst).Nodup) (h : SetsAll head o cs o') : SetsAll head o cs' o' := by
  induction hperm generalizing o with
  | nil => exact h
  | cons c _ ih =>
    obtain ⟨-, hkeys⟩ := List.nodup_cons.1 hkeys
    cases h with
    | cons h hrest => exact .cons h (ih hkeys hrest)
  | swap c c' cs =>
    cases h with
    | cons h hrest =>
      cases hrest with
      | cons h' hrest =>
        have hne : c'.1 ≠ c.1 := fun heq => (List.nodup_cons.1 hkeys).1 (by simp [heq])
        obtain ⟨p, hp, hq⟩ := h.swap h' hne
        exact .cons hp (.cons hq hrest)
  | trans hperm _ ih ih' =>
    exact ih' ((hperm.map Prod.fst).nodup_iff.1 hkeys) (ih hkeys h)

theorem read_eq_ok_iff {os : List WrittenOption} :
    read head o (os.flatMap WrittenOption.nodes) = .ok o' ↔
      SetsAll head o (os.map WrittenOption.clause) o' := by
  induction os generalizing o with
  | nil =>
    constructor
    · intro h
      cases h
      exact .nil
    · intro h
      cases h
      rfl
  | cons w os ih =>
    show read head o (.keyword w.mark w.key :: w.value :: os.flatMap WrittenOption.nodes) = _ ↔ _
    rw [read]
    constructor
    · intro h
      split at h
      · rename_i p hset
        exact .cons (set_eq_ok_iff.1 hset) (ih.1 h)
      · cases h
    · intro h
      cases h with
      | cons h hrest =>
        have hset := set_eq_ok_iff.2 h
        simp only [WrittenOption.clause] at hset
        rw [hset]
        exact ih.2 hrest

end StrategyOptions

open Node

variable {f g : Node}

theorem Strategy.ofNode_form_eq_ok_iff {m : Mark} {head : Node} {os : List WrittenOption}
    {s : Strategy} : ofNode (form m head os) = .ok s ↔
      (form m head os).head ≠ [] ∧ ∃ o,
        StrategyOptions.SetsAll (form m head os).head {} (form m head os).clauses o ∧
          ofHead (form m head os).head o = .ok s := by
  rw [clauses_form]
  simp only [← StrategyOptions.read_eq_ok_iff]
  constructor
  · intro h
    unfold ofNode at h
    split at h
    · cases h
    · rename_i hhead
      split at h
      · rename_i o hread
        exact ⟨fun hnil => hhead (List.isEmpty_iff.2 hnil), o, hread, h⟩
      · cases h
  · rintro ⟨hhead, o, hread, hs⟩
    unfold ofNode
    have hread : StrategyOptions.read (form m head os).head {}
        (((form m head os).listItems?.getD []).drop 1) = .ok o := hread
    rw [if_neg fun hnil => hhead (List.isEmpty_iff.1 hnil), hread]
    exact hs

theorem Strategy.ofNode_of_permuted (h : f.Permuted Kept g) {s : Strategy}
    (hf : ofNode f = .ok s) : ofNode g = .ok s := by
  have hhead := h.head_eq
  have hperm := h.perm_clauses
  have hkeys := h.nodup_keys
  cases h with
  | intro =>
    rw [ofNode_form_eq_ok_iff] at hf ⊢
    obtain ⟨hnamed, o, hsets, hs⟩ := hf
    rw [hhead]
    exact ⟨hnamed, o, hsets.perm hperm hkeys, hs⟩

end Equate
