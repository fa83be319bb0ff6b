import Mathlib.Data.List.Induction
import Mathlib.Data.List.Pairwise
import Equate.Sequence.Classes
/-!
# Classes partition a sequence

What a comparison must keep to for its classes to be classes of equal elements is `Consistent`:
reflexivity is not asked for, so an element that differs from itself, such as NaN, makes a class
of its own. `Partition` says what the classes of a sequence are: representatives are taken from
the sequence and differ from each other, every element is in a class, and the size of a class is
the number of elements that equal its representative. `partition_classes` is by induction on the
sequence, one element at its end at a time.
-/

namespace Equate

variable {α : Type}

/-- Equality is symmetric and transitive, and equal elements have equal hashes. -/
structure Comparison.Consistent (cmp : Comparison α) : Prop where
  symm {x y : α} (h : cmp.equal x y = true) : cmp.equal y x = true
  trans {x y z : α} (hxy : cmp.equal x y = true) (hyz : cmp.equal y z = true) :
    cmp.equal x z = true
  hash_eq {x y : α} (h : cmp.equal x y = true) : cmp.hash x = cmp.hash y

/-- Besides every element equals itself. -/
structure Comparison.Lawful (cmp : Comparison α) : Prop extends cmp.Consistent where
  refl (x : α) : cmp.equal x x = true

theorem Comparison.Consistent.comm {cmp : Comparison α} (hc : cmp.Consistent) (x y : α) :
    cmp.equal x y = cmp.equal y x :=
  Bool.eq_iff_iff.2 ⟨hc.symm, hc.symm⟩

namespace Sequence

/-! ## One element more -/

/-- An element goes to the first class that admits it, or behind all classes. -/
theorem addToClass_cases (cmp : Comparison α) (x : α) (h : UInt64) (cs : List (EqualityClass α)) :
    (∃ front c back, cs = front ++ c :: back ∧ c.admits cmp x h = true ∧
      addToClass cmp x h cs = front ++ c.grow :: back) ∨
    (∀ c ∈ cs, c.admits cmp x h = false) ∧ addToClass cmp x h cs = cs ++ [⟨x, h, 1⟩] := by
  induction cs with
  | nil => exact .inr ⟨by simp, rfl⟩
  | cons c cs ih =>
    by_cases hc : c.admits cmp x h = true
    · exact .inl ⟨[], c, cs, rfl, hc, by simp [addToClass, hc]⟩
    · rcases ih with ⟨front, d, back, rfl, hd, heq⟩ | ⟨hnone, heq⟩
      · exact .inl ⟨c :: front, d, back, rfl, hd, by simp [addToClass, hc, heq]⟩
      · refine .inr ⟨?_, by simp [addToClass, hc, heq]⟩
        simpa [hc] using hnone

/-- What the classes of a sequence are. -/
structure Partition (cmp : Comparison α) (xs : List α) (cs : List (EqualityClass α)) : Prop where
  mem (c : EqualityClass α) (hc : c ∈ cs) : c.representative ∈ xs
  hash (c : EqualityClass α) (hc : c ∈ cs) : c.hash = cmp.hash c.representative
  apart : cs.Pairwise fun c d => cmp.equal c.representative d.representative = false
  cover (x : α) (hx : x ∈ xs) :
    ∃ c ∈ cs, c.representative = x ∨ cmp.equal c.representative x = true
  count (c : EqualityClass α) (hc : c ∈ cs)
    (hself : cmp.equal c.representative c.representative = true) :
    c.count = xs.countP (cmp.equal c.representative)

variable {cmp : Comparison α}

theorem admits_iff (hc : cmp.Consistent) {c : EqualityClass α}
    (hhash : c.hash = cmp.hash c.representative) (x : α) :
    c.admits cmp x (cmp.hash x) = true ↔ cmp.equal c.representative x = true := by
  rw [EqualityClass.admits, Bool.and_eq_true, beq_iff_eq, hhash]
  exact ⟨And.right, fun h => ⟨hc.hash_eq h, h⟩⟩

/-- Two classes with a common element are one class. -/
theorem Partition.eq_of_equal (hc : cmp.Consistent) {xs : List α} {cs : List (EqualityClass α)}
    (hp : Partition cmp xs cs) {c d : EqualityClass α} (hcm : c ∈ cs) (hdm : d ∈ cs) {x : α}
    (hcx : cmp.equal c.representative x = true) (hdx : cmp.equal d.representative x = true) :
    c = d := by
  have : Std.Symm fun c d : EqualityClass α =>
      cmp.equal c.representative d.representative = false :=
    ⟨fun c d h => by rw [hc.comm, h]⟩
  by_contra hne
  have hcd : cmp.equal c.representative d.representative = true := hc.trans hcx (hc.symm hdx)
  rw [hp.apart.forall hcm hdm hne] at hcd
  cases hcd

/-- An element that equals the representative of a class equals that of no other. -/
theorem Partition.equal_eq_false (hc : cmp.Consistent) {xs : List α}
    {front back : List (EqualityClass α)} {c : EqualityClass α}
    (hp : Partition cmp xs (front ++ c :: back)) {x : α}
    (hcx : cmp.equal c.representative x = true) :
    ∀ d ∈ front ++ back, cmp.equal d.representative x = false := by
  obtain ⟨-, hback, hcross⟩ := List.pairwise_append.1 hp.apart
  intro d hd
  by_contra hdx
  have hdc := hc.trans (Bool.not_eq_false _ ▸ hdx) (hc.symm hcx)
  rcases List.mem_append.1 hd with hd | hd
  · rw [hcross d hd c (by simp)] at hdc
    cases hdc
  · rw [hc.comm, (List.pairwise_cons.1 hback).1 d hd] at hdc
    cases hdc

/-- An element at the end that equals the representative of a class makes that class grow. -/
theorem Partition.grow (hc : cmp.Consistent) {xs : List α} {front back : List (EqualityClass α)}
    {c : EqualityClass α} (hp : Partition cmp xs (front ++ c :: back)) {x : α}
    (hcx : cmp.equal c.representative x = true) :
    Partition cmp (xs ++ [x]) (front ++ c.grow :: back) := by
  obtain ⟨hfront, hback, hcross⟩ := List.pairwise_append.1 hp.apart
  have hother := hp.equal_eq_false hc hcx
  have hmem : ∀ d ∈ front ++ c.grow :: back, d = c.grow ∨
      d ∈ front ++ back ∧ d ∈ front ++ c :: back := by
    intro d hd
    simp only [List.mem_append, List.mem_cons] at hd ⊢
    rcases hd with hd | hd | hd
    · exact .inr ⟨.inl hd, .inl hd⟩
    · exact .inl hd
    · exact .inr ⟨.inr hd, .inr (.inr hd)⟩
  constructor
  · intro d hd
    rcases hmem d hd with rfl | ⟨-, hd⟩
    · exact List.mem_append_left [x] (hp.mem c (by simp))
    · exact List.mem_append_left [x] (hp.mem d hd)
  · intro d hd
    rcases hmem d hd with rfl | ⟨-, hd⟩
    · exact hp.hash c (by simp)
    · exact hp.hash d hd
  · refine List.pairwise_append.2 ⟨hfront, ?_, ?_⟩
    · exact List.pairwise_cons.2 (List.pairwise_cons.1 hback)
    · intro d hd e he
      rcases List.mem_cons.1 he with rfl | he
      · exact hcross d hd c (by simp)
      · exact hcross d hd e (by simp [he])
  · intro y hy
    rcases List.mem_append.1 hy with hy | hy
    · obtain ⟨d, hd, hdy⟩ := hp.cover y hy
      rcases List.mem_append.1 hd with hd | hd
      · exact ⟨d, by simp [hd], hdy⟩
      · rcases List.mem_cons.1 hd with rfl | hd
        · exact ⟨d.grow, by simp, hdy⟩
        · exact ⟨d, by simp [hd], hdy⟩
    · rw [List.mem_singleton.1 hy]
      exact ⟨c.grow, by simp, .inr hcx⟩
  · intro d hd hself
    rw [List.countP_append]
    rcases hmem d hd with rfl | ⟨hd, hd'⟩
    · have hcount := hp.count c (by simp) hself
      simp [EqualityClass.grow, hcount, hcx]
    · simp [hp.count d hd' hself, hother d hd]

/-- An element at the end that equals no representative makes a class of its own. -/
theorem Partition.add (hc : cmp.Consistent) {xs : List α} {cs : List (EqualityClass α)}
    (hp : Partition cmp xs cs) {x : α}
    (hnew : ∀ c ∈ cs, cmp.equal c.representative x = false) :
    Partition cmp (xs ++ [x]) (cs ++ [⟨x, cmp.hash x, 1⟩]) := by
  constructor
  · intro d hd
    rcases List.mem_append.1 hd with hd | hd
    · exact List.mem_append_left [x] (hp.mem d hd)
    · rw [List.mem_singleton.1 hd]
      simp
  · intro d hd
    rcases List.mem_append.1 hd with hd | hd
    · exact hp.hash d hd
    · rw [List.mem_singleton.1 hd]
  · refine List.pairwise_append.2 ⟨hp.apart, List.pairwise_singleton _ _, ?_⟩
    intro c hcm d hd
    rw [List.mem_singleton.1 hd]
    exact hnew c hcm
  · intro y hy
    rcases List.mem_append.1 hy with hy | hy
    · obtain ⟨d, hd, hdy⟩ := hp.cover y hy
      exact ⟨d, List.mem_append_left _ hd, hdy⟩
    · rw [List.mem_singleton.1 hy]
      exact ⟨⟨x, cmp.hash x, 1⟩, by simp, .inl rfl⟩
  · intro d hd hself
    rw [List.countP_append]
    rcases List.mem_append.1 hd with hd | hd
    · simp [hp.count d hd hself, hnew d hd]
    · rw [List.mem_singleton.1 hd] at hself ⊢
      -- an earlier element that equals `x` would lie in a class that `x` goes to as well
      have hzero : xs.countP (cmp.equal x) = 0 := by
        rw [List.countP_eq_zero]
        intro y hy hxy
        obtain ⟨c, hcm, hcy⟩ := hp.cover y hy
        have hcx : cmp.equal c.representative x = true := by
          rcases hcy with hcy | hcy
          · rw [hcy]
            exact hc.symm hxy
          · exact hc.trans hcy (hc.symm hxy)
        rw [hnew c hcm] at hcx
        cases hcx
      have hself : cmp.equal x x = true := hself
      simp [hzero, hself]

theorem partition_addToClass (hc : cmp.Consistent) {xs : List α} {cs : List (EqualityClass α)}
    (hp : Partition cmp xs cs) (x : α) :
    Partition cmp (xs ++ [x]) (addToClass cmp x (cmp.hash x) cs) := by
  rcases addToClass_cases cmp x (cmp.hash x) cs with ⟨front, c, back, rfl, hadm, heq⟩ | ⟨hnone, heq⟩
  · rw [heq]
    exact hp.grow hc ((admits_iff hc (hp.hash c (by simp)) x).1 hadm)
  · rw [heq]
    refine hp.add hc fun c hcm => ?_
    rw [Bool.eq_false_iff, ne_eq, ← admits_iff hc (hp.hash c hcm), hnone c hcm]
    exact Bool.false_ne_true

theorem classes_append_singleton (cmp : Comparison α) (xs : List α) (x : α) :
    classes cmp (xs ++ [x]) = addToClass cmp x (cmp.hash x) (classes cmp xs) := by
  rw [classes, List.foldl_append]
  rfl

theorem partition_classes (hc : cmp.Consistent) (xs : List α) :
    Partition cmp xs (classes cmp xs) := by
  induction xs using List.reverseRecOn with
  | nil => constructor <;> simp [classes]
  | append_singleton xs x ih =>
    rw [classes_append_singleton]
    exact partition_addToClass hc ih x

end Sequence

end Equate
