import Mathlib.Algebra.GroupWithZero.Nat
import Equate.Proofs.Sequence.Equality
/-!
# Classes through any index

An index by hash yields the classes with a hash in an order of its own, and the first of them that
admits an element takes it. `GroupsInto` allows every such order, a new one for each element. At
most one of the classes with the right hash admits an element, so the order decides nothing
(`groupsInto_iff`), and the classes are what `groupsInto_partition` says: one for each element that
is the first of its kind, in the order in which these occur.
-/

namespace Equate.Sequence

variable {α : Type} {cmp : Comparison α}

/-! ## Groupings -/

/-- The places of the classes with hash `h`. -/
def placesWith (cs : List (EqualityClass α)) (h : UInt64) : List Nat :=
  (List.range cs.length).filter fun i => cs[i]?.any fun c => c.hash == h

/-- Adds an element to the first class at one of the places whose representative equals it, or opens
a class for it behind the others. -/
def addAmong (cmp : Comparison α) (x : α) (places : List Nat) (cs : List (EqualityClass α)) :
    List (EqualityClass α) :=
  match places.find? fun i => cs[i]?.any fun c => cmp.equal c.representative x with
  | some i => cs.modify i EqualityClass.grow
  | none => cs ++ [⟨x, cmp.hash x, 1⟩]

/-- The classes that a sequence can come to if the places of the classes with a hash are tried in
any order. -/
inductive GroupsInto (cmp : Comparison α) : List α → List (EqualityClass α) → Prop
  | nil : GroupsInto cmp [] []
  | add {xs : List α} {cs : List (EqualityClass α)} {places : List Nat} (x : α)
      (h : GroupsInto cmp xs cs) (hplaces : places.Perm (placesWith cs (cmp.hash x))) :
      GroupsInto cmp (xs ++ [x]) (addAmong cmp x places cs)

theorem toList_add_eq (cmp : Comparison α) (t : ClassTable α) (x : α) :
    (t.add cmp x).classes.toList =
      addAmong cmp x (t.places (cmp.hash x)) t.classes.toList := by
  have hplace : t.place? cmp x (cmp.hash x) = (t.places (cmp.hash x)).find? fun i =>
      t.classes.toList[i]?.any fun c => cmp.equal c.representative x := by
    simp only [ClassTable.place?, Array.getElem?_toList]
  rw [ClassTable.add, addAmong, ← hplace]
  cases t.place? cmp x (cmp.hash x) <;> simp

/-- A table tries the places in ascending order. -/
theorem groupsInto_ofList (cmp : Comparison α) (xs : List α) :
    GroupsInto cmp xs (ClassTable.ofList cmp xs).classes.toList := by
  induction xs using List.reverseRecOn with
  | nil => exact .nil
  | append_singleton xs x ih =>
    have hplaces : (ClassTable.ofList cmp xs).places (cmp.hash x) =
        placesWith (ClassTable.ofList cmp xs).classes.toList (cmp.hash x) := by
      rw [ClassTable.indexed_ofList, placesWith, Array.length_toList]
      simp only [Array.getElem?_toList]
    have hstep : ClassTable.ofList cmp (xs ++ [x]) = (ClassTable.ofList cmp xs).add cmp x :=
      List.foldl_append
    rw [hstep, toList_add_eq]
    exact .add x ih (.of_eq hplaces)

/-! ## The order decides nothing -/

theorem find?_eq_of_perm {β : Type} {p : β → Bool} {l l' : List β} (h : l.Perm l')
    (hunique : ∀ a ∈ l', ∀ b ∈ l', p a = true → p b = true → a = b) : l.find? p = l'.find? p := by
  cases ha : l.find? p with
  | none =>
    rw [List.find?_eq_none] at ha
    exact (List.find?_eq_none.2 fun a hal => ha a (h.symm.subset hal)).symm
  | some a =>
    have hal : a ∈ l' := h.subset (List.mem_of_find?_eq_some ha)
    have hpa : p a = true := List.find?_some ha
    obtain ⟨b, hb⟩ := Option.isSome_iff_exists.1 (List.find?_isSome.2 ⟨a, hal, hpa⟩)
    rw [hb, hunique a hal b (List.mem_of_find?_eq_some hb) hpa (List.find?_some hb)]

/-- An element equals the representative of one class at most. -/
theorem Partition.place_unique (hc : cmp.Consistent) {xs : List α} {cs : List (EqualityClass α)}
    (hp : Partition cmp xs cs) {x : α} {i j : Nat}
    (hi : (cs[i]?.any fun c => cmp.equal c.representative x) = true)
    (hj : (cs[j]?.any fun c => cmp.equal c.representative x) = true) : i = j := by
  obtain ⟨c, hci, hcx⟩ := (Option.any_eq_true _ _).1 hi
  obtain ⟨d, hdj, hdx⟩ := (Option.any_eq_true _ _).1 hj
  have apart {i j : Nat} {c d : EqualityClass α} (hci : cs[i]? = some c) (hdj : cs[j]? = some d)
      (hij : i < j) : cmp.equal c.representative d.representative = false := by
    obtain ⟨hi, rfl⟩ := List.getElem?_eq_some_iff.1 hci
    obtain ⟨hj, rfl⟩ := List.getElem?_eq_some_iff.1 hdj
    exact List.pairwise_iff_getElem.1 hp.apart i j hi hj hij
  rcases Nat.lt_trichotomy i j with hij | hij | hij
  · have hcd := hc.trans hcx (hc.symm hdx)
    rw [apart hci hdj hij] at hcd
    cases hcd
  · exact hij
  · have hdc := hc.trans hdx (hc.symm hcx)
    rw [apart hdj hci hij] at hdc
    cases hdc

/-- Whatever order the places with its hash are tried in, an element goes where `addToClass` puts
it. -/
theorem addAmong_eq (hc : cmp.Consistent) {xs : List α} {cs : List (EqualityClass α)}
    (hp : Partition cmp xs cs) (x : α) {places : List Nat}
    (hplaces : places.Perm (placesWith cs (cmp.hash x))) :
    addAmong cmp x places cs = addToClass cmp x (cmp.hash x) cs := by
  have hfind : (placesWith cs (cmp.hash x)).find?
      (fun i => cs[i]?.any fun c => cmp.equal c.representative x) =
        cs.findIdx? (EqualityClass.admits cmp x (cmp.hash x)) := by
    rw [placesWith, List.find?_filter, ← ClassTable.find?_range]
    congr 1
    funext i
    cases cs[i]? with
    | none => rfl
    | some c =>
      simp only [Option.any_some, Bool.decide_and, Bool.decide_eq_true, EqualityClass.admits]
  have hplace :=
    (find?_eq_of_perm hplaces fun i _ j _ hi hj => hp.place_unique hc hi hj).trans hfind
  cases hindex : cs.findIdx? (EqualityClass.admits cmp x (cmp.hash x)) <;>
    simp only [addAmong, addToClass_eq, hplace, hindex]

theorem GroupsInto.eq_classes (hc : cmp.Consistent) {xs : List α} {cs : List (EqualityClass α)}
    (h : GroupsInto cmp xs cs) : cs = classes cmp xs := by
  induction h with
  | nil => rfl
  | add x _ hplaces ih =>
    subst ih
    rw [addAmong_eq hc (partition_classes hc _) x hplaces, classes_append_singleton]

theorem groupsInto_iff (hc : cmp.Consistent) {xs : List α} {cs : List (EqualityClass α)} :
    GroupsInto cmp xs cs ↔ cs = classes cmp xs := by
  refine ⟨GroupsInto.eq_classes hc, ?_⟩
  rintro rfl
  rw [← ClassTable.toList_ofList]
  exact groupsInto_ofList cmp xs

/-! ## First occurrences -/

/-- Whether there is an element at place `i` and none in front of it equals it. -/
def isFirst (cmp : Comparison α) (xs : List α) (i : Nat) : Bool :=
  xs[i]?.any fun x => (xs.take i).all fun y => !cmp.equal y x

/-- The elements that none in front of them equals, in order. -/
def firstOccurrences (cmp : Comparison α) (xs : List α) : List α :=
  ((List.range xs.length).filter (isFirst cmp xs)).filterMap fun i => xs[i]?

theorem firstOccurrences_append_singleton (cmp : Comparison α) (xs : List α) (x : α) :
    firstOccurrences cmp (xs ++ [x]) =
      firstOccurrences cmp xs ++ if xs.any (cmp.equal · x) then [] else [x] := by
  have hfilter : (List.range xs.length).filter (isFirst cmp (xs ++ [x])) =
      (List.range xs.length).filter (isFirst cmp xs) := by
    refine List.filter_congr fun i hi => ?_
    have hi := List.mem_range.1 hi
    rw [isFirst, isFirst, List.getElem?_append_left hi, List.take_append_of_le_length hi.le]
  have hold : ((List.range xs.length).filter (isFirst cmp xs)).filterMap
      (fun i => (xs ++ [x])[i]?) = firstOccurrences cmp xs := by
    refine List.filterMap_congr fun i hi => ?_
    exact List.getElem?_append_left (List.mem_range.1 (List.mem_of_mem_filter hi))
  have hlast : isFirst cmp (xs ++ [x]) xs.length = !xs.any (cmp.equal · x) := by
    simp [isFirst, List.all_eq_not_any_not]
  rw [firstOccurrences, List.length_append, List.length_singleton, List.range_succ,
    List.filter_append, List.filterMap_append, hfilter, hold]
  congr 1
  cases h : xs.any (cmp.equal · x) <;> simp [hlast, h]

theorem map_representative_classes (hc : cmp.Consistent) (xs : List α) :
    (classes cmp xs).map EqualityClass.representative = firstOccurrences cmp xs := by
  induction xs using List.reverseRecOn with
  | nil => rfl
  | append_singleton xs x ih =>
    have hp := partition_classes hc xs
    rw [firstOccurrences_append_singleton, ← ih, classes_append_singleton]
    rcases addToClass_cases cmp x (cmp.hash x) (classes cmp xs) with
      ⟨front, c, back, hcs, hadmits, heq⟩ | ⟨hnone, heq⟩
    · have hc' : c ∈ classes cmp xs := by simp [hcs]
      have hany : xs.any (cmp.equal · x) = true :=
        List.any_eq_true.2 ⟨c.representative, hp.mem c hc',
          (admits_iff hc (hp.hash c hc') x).1 hadmits⟩
      rw [heq, hany, hcs]
      simp [EqualityClass.grow]
    · have hany : xs.any (cmp.equal · x) = false := by
        rw [List.any_eq_false]
        intro y hy hyx
        obtain ⟨c, hcm, hcy⟩ := hp.cover y hy
        have hcx : cmp.equal c.representative x = true := by
          rcases hcy with rfl | hcy
          · exact hyx
          · exact hc.trans hcy hyx
        rw [← admits_iff hc (hp.hash c hcm), hnone c hcm] at hcx
        cases hcx
      rw [heq, hany]
      simp

/-! ## Sizes -/

theorem sum_count_addToClass (cmp : Comparison α) (x : α) (h : UInt64)
    (cs : List (EqualityClass α)) :
    ((addToClass cmp x h cs).map EqualityClass.count).sum =
      (cs.map EqualityClass.count).sum + 1 := by
  rcases addToClass_cases cmp x h cs with ⟨front, c, back, rfl, -, heq⟩ | ⟨-, heq⟩
  · rw [heq]
    simp [EqualityClass.grow]
    omega
  · rw [heq]
    simp

theorem sum_count_classes (cmp : Comparison α) (xs : List α) :
    ((classes cmp xs).map EqualityClass.count).sum = xs.length := by
  induction xs using List.reverseRecOn with
  | nil => rfl
  | append_singleton xs x ih =>
    rw [classes_append_singleton, sum_count_addToClass, ih, List.length_append,
      List.length_singleton]

/-- In a lawful comparison every element is in one class and no other. -/
theorem countP_representative_eq_one (hc : cmp.Lawful) {xs : List α}
    {cs : List (EqualityClass α)} (hp : Partition cmp xs cs) {x : α} (hx : x ∈ xs) :
    cs.countP (fun c => cmp.equal c.representative x) = 1 := by
  obtain ⟨c, hcm, hcx⟩ := hp.cover x hx
  have hcx : cmp.equal c.representative x = true := by
    rcases hcx with rfl | hcx
    · exact hc.refl _
    · exact hcx
  obtain ⟨front, back, rfl⟩ := List.append_of_mem hcm
  have hother := hp.equal_eq_false hc.toConsistent hcx
  have hfront : front.countP (fun d => cmp.equal d.representative x) = 0 :=
    List.countP_eq_zero.2 fun d hd => by simp [hother d (List.mem_append_left _ hd)]
  have hback : back.countP (fun d => cmp.equal d.representative x) = 0 :=
    List.countP_eq_zero.2 fun d hd => by simp [hother d (List.mem_append_right _ hd)]
  rw [List.countP_append, List.countP_cons, hfront, hback, if_pos hcx]

/-- The classes of a sequence under an equivalence and a hash that agrees with it, whatever order an
index yields candidates in. -/
theorem groupsInto_partition (hc : cmp.Lawful) (xs : List α) :
    GroupsInto cmp xs (ClassTable.ofList cmp xs).classes.toList ∧
      ∀ cs, GroupsInto cmp xs cs →
        cs = (ClassTable.ofList cmp xs).classes.toList ∧
        cs.map EqualityClass.representative = firstOccurrences cmp xs ∧
        (cs.Pairwise fun c d => cmp.equal c.representative d.representative = false) ∧
        (∀ x ∈ xs, cs.countP (fun c => cmp.equal c.representative x) = 1) ∧
        (∀ c ∈ cs, c.count = xs.countP (cmp.equal c.representative) ∧
          c.hash = cmp.hash c.representative) ∧
        (cs.map EqualityClass.count).sum = xs.length := by
  refine ⟨groupsInto_ofList cmp xs, fun cs h => ?_⟩
  obtain rfl := h.eq_classes hc.toConsistent
  have hp := partition_classes hc.toConsistent xs
  refine ⟨(ClassTable.toList_ofList cmp xs).symm, map_representative_classes hc.toConsistent xs,
    hp.apart, fun x hx => countP_representative_eq_one hc hp hx, fun c hcm => ?_,
    sum_count_classes cmp xs⟩
  exact ⟨hp.count c hcm (hc.refl _), hp.hash c hcm⟩

/-- Four words of one parity, tried in descending order, and one of the other. -/
theorem groupsInto_partition_remainders :
    remainders.Lawful ∧
      GroupsInto remainders [0, 2, 4, 6, 1] [⟨0, 0, 2⟩, ⟨2, 0, 1⟩, ⟨4, 0, 1⟩, ⟨1, 1, 1⟩] ∧
      (ClassTable.ofList remainders [0, 2, 4, 6, 1]).classes.toList =
        [⟨0, 0, 2⟩, ⟨2, 0, 1⟩, ⟨4, 0, 1⟩, ⟨1, 1, 1⟩] ∧
      firstOccurrences remainders [0, 2, 4, 6, 1] = [0, 2, 4, 1] := by
  have h₁ : GroupsInto remainders [0] [⟨0, 0, 1⟩] := .add 0 .nil (by decide : [].Perm _)
  have h₂ : GroupsInto remainders [0, 2] [⟨0, 0, 1⟩, ⟨2, 0, 1⟩] :=
    .add 2 h₁ (by decide : [0].Perm _)
  have h₃ : GroupsInto remainders [0, 2, 4] [⟨0, 0, 1⟩, ⟨2, 0, 1⟩, ⟨4, 0, 1⟩] :=
    .add 4 h₂ (by decide : [1, 0].Perm _)
  have h₄ : GroupsInto remainders [0, 2, 4, 6] [⟨0, 0, 2⟩, ⟨2, 0, 1⟩, ⟨4, 0, 1⟩] :=
    .add 6 h₃ (by decide : [2, 1, 0].Perm _)
  have h : GroupsInto remainders [0, 2, 4, 6, 1]
      [⟨0, 0, 2⟩, ⟨2, 0, 1⟩, ⟨4, 0, 1⟩, ⟨1, 1, 1⟩] := .add 1 h₄ (by decide : [].Perm _)
  obtain ⟨htable, hfirst, -⟩ :=
    (groupsInto_partition remainders_lawful [0, 2, 4, 6, 1]).2 _ h
  exact ⟨remainders_lawful, h, htable.symm, hfirst.symm⟩

end Equate.Sequence
