import Mathlib.Data.List.Induction
import Mathlib.Data.List.Sort
import Equate.Contract.Basic
/-!
# Groups by key

The keys of `groupByKey` ascend, each stands once, and each is the key of some element. Where the
elements are in the order of their keys, the groups one after the other are the elements again.

Maps that are filled element by element hold the same: `LeadsToFirst` says it of a map that keeps
the first element for each key, and `HoldsGroups` of one that keeps all of them.
-/

namespace Equate

variable {α : Type}

theorem eraseDups_sublist [BEq α] (xs : List α) : xs.eraseDups.Sublist xs := by
  match xs with
  | [] => simp
  | x :: xs =>
    rw [List.eraseDups_cons]
    exact ((eraseDups_sublist _).trans List.filter_sublist).cons_cons x
termination_by xs.length
decreasing_by exact Nat.lt_succ_of_le (List.length_filter_le _ _)

theorem nodup_eraseDups [BEq α] [LawfulBEq α] (xs : List α) : xs.eraseDups.Nodup := by
  match xs with
  | [] => simp
  | x :: xs =>
    rw [List.eraseDups_cons, List.nodup_cons]
    exact ⟨by simp [List.mem_eraseDups], nodup_eraseDups _⟩
termination_by xs.length
decreasing_by exact Nat.lt_succ_of_le (List.length_filter_le _ _)

theorem groupByKey_eq (key : α → Int) (xs : List α) :
    ∃ ks : List Int, ks.Pairwise (· < ·) ∧ (∀ k, k ∈ ks ↔ ∃ x ∈ xs, key x = k) ∧
      groupByKey key xs = ks.map fun k => (k, xs.filter fun x => key x == k) := by
  refine ⟨(sortBy (· ≤ ·) (xs.map key)).eraseDups, ?_, fun k => ?_, rfl⟩
  · have hsorted : (sortBy (· ≤ ·) (xs.map key)).Pairwise fun a b => decide (a ≤ b) = true :=
      pairwise_sortBy (fun a b c hab hbc => by simp only [decide_eq_true_eq] at hab hbc ⊢; omega)
        (fun a b => by simp only [decide_eq_true_eq]; omega) _
    refine ((hsorted.sublist (eraseDups_sublist _)).and (nodup_eraseDups _)).imp ?_
    intro a b ⟨hle, hne⟩
    have hle : a ≤ b := of_decide_eq_true hle
    omega
  · rw [List.mem_eraseDups, mem_sortBy, List.mem_map]

/-- In a list in the order of its keys, those of the least key stand in front. -/
theorem filter_key_append {key : α → Int} {xs : List α}
    (hsorted : xs.Pairwise fun a b => key a ≤ key b) {k : Int} (hk : ∀ x ∈ xs, k ≤ key x) :
    (xs.filter fun x => key x == k) ++ (xs.filter fun x => key x != k) = xs := by
  induction xs with
  | nil => rfl
  | cons x xs ih =>
    obtain ⟨hx, hsorted⟩ := List.pairwise_cons.1 hsorted
    have hrest := ih hsorted fun y hy => hk y (List.mem_cons_of_mem _ hy)
    by_cases heq : key x = k
    · rw [List.filter_cons_of_pos (by simp [heq]), List.filter_cons_of_neg (by simp [heq]),
        List.cons_append, hrest]
    · -- a greater key stands in front of greater keys only
      have hgreater : ∀ y ∈ xs, key y ≠ k := by
        intro y hy
        have hle := hx y hy
        have hleast := hk x List.mem_cons_self
        omega
      rw [List.filter_cons_of_neg (by simp [heq]), List.filter_cons_of_pos (by simp [heq]),
        List.filter_eq_nil_iff.2 fun y hy => by simp [hgreater y hy],
        List.filter_eq_self.2 fun y hy => by simp [hgreater y hy]]
      rfl

theorem flatMap_filter_key {key : α → Int} {ks : List Int} (hks : ks.Pairwise (· < ·))
    {xs : List α} (hsorted : xs.Pairwise fun a b => key a ≤ key b) (hmem : ∀ x ∈ xs, key x ∈ ks) :
    (ks.flatMap fun k => xs.filter fun x => key x == k) = xs := by
  induction ks generalizing xs with
  | nil =>
    cases xs with
    | nil => rfl
    | cons x xs => cases hmem x List.mem_cons_self
  | cons k ks ih =>
    obtain ⟨hk, hks⟩ := List.pairwise_cons.1 hks
    have hleast : ∀ x ∈ xs, k ≤ key x := by
      intro x hx
      rcases List.mem_cons.1 (hmem x hx) with heq | hlater
      · omega
      · exact Int.le_of_lt (hk _ hlater)
    have hlater : (xs.filter fun x => key x != k).Pairwise fun a b => key a ≤ key b :=
      hsorted.sublist List.filter_sublist
    have hrest := ih hks hlater fun x hx => by
      obtain ⟨hx, hne⟩ := List.mem_filter.1 hx
      exact (List.mem_cons.1 (hmem x hx)).resolve_left (bne_iff_ne.1 hne)
    have hfilter : ∀ k' ∈ ks, (xs.filter fun x => key x == k') =
        (xs.filter fun x => key x != k).filter fun x => key x == k' := by
      intro k' hk'
      have hlt := hk k' hk'
      rw [List.filter_filter]
      apply List.filter_congr
      intro x _
      by_cases heq : key x = k'
      · have hne : key x ≠ k := by omega
        simp [heq, heq ▸ hne]
      · simp [heq]
    rw [List.flatMap_cons, List.flatMap_def, List.map_congr_left hfilter, ← List.flatMap_def,
      hrest]
    exact filter_key_append hsorted hleast

/-- The groups of a list in the order of its keys make it up. -/
theorem flatMap_groupByKey {key : α → Int} {xs : List α}
    (hsorted : xs.Pairwise fun a b => key a ≤ key b) :
    (groupByKey key xs).flatMap Prod.snd = xs := by
  obtain ⟨ks, hks, hmem, heq⟩ := groupByKey_eq key xs
  rw [heq, List.flatMap_map]
  apply flatMap_filter_key hks hsorted
  intro x hx
  exact (hmem _).2 ⟨x, hx, rfl⟩

/-! ## Maps -/

section First

variable {κ β : Type} [Ord κ] [Std.TransOrd κ] [BEq κ]

/-- Whether the map leads from each key to what `val` tells of the first element with it. -/
def LeadsToFirst (key : α → κ) (val : α → β) (xs : List α) (m : Std.TreeMap κ β) : Prop :=
  ∀ k, m[k]? = (xs.find? fun x => key x == k).map val

namespace LeadsToFirst

variable {key : α → κ} {val : α → β} {xs : List α} {m : Std.TreeMap κ β}

theorem empty : LeadsToFirst key val [] ({} : Std.TreeMap κ β) := fun _ => by simp

variable [Std.LawfulEqOrd κ] [LawfulBEq κ]

/-- A key that is there keeps what it leads to. -/
theorem insertIfNew (h : LeadsToFirst key val xs m) (x : α) :
    LeadsToFirst key val (xs ++ [x]) (m.insertIfNew (key x) (val x)) := by
  intro k
  rw [Std.TreeMap.getElem?_insertIfNew, List.find?_append, List.find?_singleton, Option.map_or,
    ← h k]
  by_cases hkey : key x = k
  · subst hkey
    cases hold : m[key x]? with
    | none =>
      have hnew : key x ∉ m := by rw [← Std.TreeMap.isSome_getElem?_iff_mem, hold]; simp
      simp [hnew]
    | some y =>
      have hthere : key x ∈ m := by rw [← Std.TreeMap.isSome_getElem?_iff_mem, hold]; rfl
      simp [hthere]
  · have hcompare : compare (key x) k ≠ .eq := fun heq => hkey (Std.LawfulEqOrd.eq_of_compare heq)
    rw [if_neg fun hnew => hcompare hnew.1, if_neg (by simpa using hkey), Option.map_none,
      Option.or_none]

theorem foldl (key : α → κ) (val : α → β) (xs : List α) :
    LeadsToFirst key val xs (xs.foldl (fun m x => m.insertIfNew (key x) (val x)) {}) := by
  induction xs using List.reverseRecOn with
  | nil => exact empty
  | append_singleton xs x ih =>
    rw [List.foldl_append]
    exact ih.insertIfNew x

end LeadsToFirst

end First

section Groups

variable {xs : List (Int × α)} {m : Std.TreeMap Int (List α)}

/-- Whether the map leads from each key to the elements given with it, of which there are some. -/
def HoldsGroups (xs : List (Int × α)) (m : Std.TreeMap Int (List α)) : Prop :=
  ∀ k group, m[k]? = some group ↔ group ≠ [] ∧ group = (xs.filter (·.1 == k)).map Prod.snd

namespace HoldsGroups

theorem empty : HoldsGroups [] ({} : Std.TreeMap Int (List α)) := by
  intro k group
  simp

theorem getD_eq (h : HoldsGroups xs m) (k : Int) :
    m.getD k [] = (xs.filter (·.1 == k)).map Prod.snd := by
  rw [Std.TreeMap.getD_eq_getD_getElem?]
  by_cases hnil : (xs.filter (·.1 == k)).map Prod.snd = []
  · cases hgroup : m[k]? with
    | none => exact hnil.symm
    | some group => exact ((h k group).1 hgroup).2
  · rw [(h k _).2 ⟨hnil, rfl⟩]
    rfl

/-- An element goes behind the others with its key. -/
theorem insert (h : HoldsGroups xs m) (k : Int) (x : α) :
    HoldsGroups (xs ++ [(k, x)]) (m.insert k (m.getD k [] ++ [x])) := by
  intro k' group
  rw [Std.TreeMap.getElem?_insert, List.filter_append, List.map_append]
  by_cases hk : k = k'
  · subst hk
    rw [if_pos (by simp), h.getD_eq]
    simp only [Option.some.injEq, List.filter_cons, beq_self_eq_true]
    constructor
    · rintro rfl
      exact ⟨by simp, rfl⟩
    · rintro ⟨-, rfl⟩
      rfl
  · rw [if_neg (by simpa using hk), h]
    simp [hk]

/-- The map lists the groups in the order of their keys. -/
theorem toList_eq (h : HoldsGroups xs m) :
    m.toList = (groupByKey Prod.fst xs).map fun group => (group.1, group.2.map Prod.snd) := by
  obtain ⟨ks, hks, hmem, heq⟩ := groupByKey_eq Prod.fst xs
  let before (a b : Int × List α) : Prop := a.1 < b.1
  have hirrefl : Std.Irrefl before := ⟨fun a => Int.lt_irrefl a.1⟩
  have hantisymm : Std.Antisymm before := ⟨fun a b hab hba => absurd hba (Int.lt_asymm hab)⟩
  rw [heq, List.map_map]
  refine List.Pairwise.eq_of_mem_iff (r := before) ?_ ?_ ?_
  · exact Std.TreeMap.ordered_keys_toList.imp fun hlt => compare_lt_iff_lt.1 hlt
  · exact List.pairwise_map.2 hks
  · rintro ⟨k, group⟩
    have hgroup : (xs.filter (·.1 == k)).map Prod.snd ≠ [] ↔ k ∈ ks := by
      rw [hmem]
      simp
    rw [Std.TreeMap.mem_toList_iff_getElem?_eq_some, h, List.mem_map]
    constructor
    · rintro ⟨hne, rfl⟩
      exact ⟨k, hgroup.1 hne, rfl⟩
    · rintro ⟨k', hk, heq⟩
      cases heq
      exact ⟨hgroup.2 hk, rfl⟩

end HoldsGroups

end Groups

end Equate
