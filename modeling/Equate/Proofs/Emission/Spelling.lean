import Mathlib.Data.List.Basic
import Equate.Emission.Layout
/-!
# The spelling of namespaces

Code spells a namespace with two colons where it is written with a dot. As long as no colon is
written, a spelled name has one reading (`Emission.eq_of_spelledNamespace_append`). Code is split at
the colons again by `components`.
-/

namespace Equate

namespace Emission

/-- What stands for a byte of a namespace. -/
def spelledByte (b : UInt8) : Bytes := if b = Ascii.dot then utf8 "::" else [b]

theorem spelledNamespace_cons (b : UInt8) (ns : Bytes) :
    spelledNamespace (b :: ns) = spelledByte b ++ spelledNamespace ns := rfl

theorem spelledNamespace_of_no_dot {ns : Bytes} (h : Ascii.dot ∉ ns) :
    spelledNamespace ns = ns := by
  induction ns with
  | nil => rfl
  | cons b ns ih =>
    rw [List.mem_cons, not_or] at h
    rw [spelledNamespace_cons, spelledByte, if_neg (Ne.symm h.1), ih h.2]
    rfl

/-- Two colons stand for a dot only, so the first byte is told by its spelling. -/
theorem spelledByte_append_inj {x y : UInt8} (hx : x ≠ Ascii.colon) (hy : y ≠ Ascii.colon)
    {s t : Bytes} (h : spelledByte x ++ s = spelledByte y ++ t) : x = y ∧ s = t := by
  have hcolons : utf8 "::" = [Ascii.colon, Ascii.colon] := by decide
  unfold spelledByte at h
  rw [hcolons] at h
  by_cases hxdot : x = Ascii.dot
  · by_cases hydot : y = Ascii.dot
    · rw [if_pos hxdot, if_pos hydot] at h
      exact ⟨hxdot.trans hydot.symm, List.append_cancel_left h⟩
    · rw [if_pos hxdot, if_neg hydot] at h
      exact absurd (List.cons.inj h).1.symm hy
  · by_cases hydot : y = Ascii.dot
    · rw [if_neg hxdot, if_pos hydot] at h
      exact absurd (List.cons.inj h).1 hx
    · rw [if_neg hxdot, if_neg hydot] at h
      exact List.cons.inj h

/-- The last pair of colons tells the namespace from the name. -/
theorem eq_of_spelledNamespace_append {xs ys m n : Bytes} (hxs : Ascii.colon ∉ xs)
    (hys : Ascii.colon ∉ ys) (hm : Ascii.colon ∉ m) (hn : Ascii.colon ∉ n)
    (h : spelledNamespace xs ++ (utf8 "::" ++ m) = spelledNamespace ys ++ (utf8 "::" ++ n)) :
    xs = ys ∧ m = n := by
  have hcolon : Ascii.colon ∈ utf8 "::" := by decide
  induction xs generalizing ys with
  | nil =>
    cases ys with
    | nil => exact ⟨rfl, List.append_cancel_left h⟩
    | cons y ys =>
      -- the colons in front of `m` would spell `y`, and `m` would hold those in front of `n`
      rw [List.mem_cons, not_or] at hys
      rw [spelledNamespace_cons, List.append_assoc] at h
      have hfirst : spelledByte Ascii.dot ++ m =
          spelledByte y ++ (spelledNamespace ys ++ (utf8 "::" ++ n)) := h
      have hrest := (spelledByte_append_inj (by decide) (Ne.symm hys.1) hfirst).2
      simp [hrest, hcolon] at hm
  | cons x xs ih =>
    rw [List.mem_cons, not_or] at hxs
    rw [spelledNamespace_cons, List.append_assoc] at h
    cases ys with
    | nil =>
      have hfirst : spelledByte x ++ (spelledNamespace xs ++ (utf8 "::" ++ m)) =
          spelledByte Ascii.dot ++ n := h
      have hrest := (spelledByte_append_inj (Ne.symm hxs.1) (by decide) hfirst).2
      simp [← hrest, hcolon] at hn
    | cons y ys =>
      rw [List.mem_cons, not_or] at hys
      rw [spelledNamespace_cons, List.append_assoc] at h
      obtain ⟨rfl, hrest⟩ := spelledByte_append_inj (Ne.symm hxs.1) (Ne.symm hys.1) h
      obtain ⟨rfl, rfl⟩ := ih hxs.2 hys.2 hrest
      exact ⟨rfl, rfl⟩

theorem spelledNamespace_append (s t : Bytes) :
    spelledNamespace (s ++ t) = spelledNamespace s ++ spelledNamespace t :=
  List.flatMap_append

/-! ## Components -/

/-- What stands between pairs of colons. -/
def components : Bytes → List Bytes
  | [] => [[]]
  | [b] => [[b]]
  | b :: c :: s =>
    if b = Ascii.colon ∧ c = Ascii.colon then [] :: components s
    else (components (c :: s)).modifyHead (b :: ·)

theorem components_cons {b : UInt8} (hb : b ≠ Ascii.colon) (s : Bytes) :
    components (b :: s) = (components s).modifyHead (b :: ·) := by
  cases s with
  | nil => rfl
  | cons c s => rw [components, if_neg fun h => hb h.1]

theorem components_of_colon_notMem {n : Bytes} (hn : Ascii.colon ∉ n) : components n = [n] := by
  induction n with
  | nil => rfl
  | cons b n ih =>
    rw [List.mem_cons, not_or] at hn
    rw [components_cons (Ne.symm hn.1), ih hn.2, List.modifyHead_cons]

/-- The first pair of colons ends the first component. -/
theorem components_append {n : Bytes} (hn : Ascii.colon ∉ n) (s : Bytes) :
    components (n ++ (utf8 "::" ++ s)) = n :: components s := by
  have hcolons : utf8 "::" ++ s = Ascii.colon :: Ascii.colon :: s := rfl
  induction n with
  | nil => rw [hcolons, List.nil_append, components, if_pos ⟨rfl, rfl⟩]
  | cons b n ih =>
    rw [List.mem_cons, not_or] at hn
    rw [List.cons_append, components_cons (Ne.symm hn.1), ih hn.2, List.modifyHead_cons]

theorem subset_of_mem_components {n s : Bytes} (hn : n ∈ components s) : n ⊆ s := by
  fun_induction components s generalizing n with
  | case1 | case2 =>
    rw [List.mem_singleton.1 hn]
    exact List.Subset.refl _
  | case3 b c s h ih =>
    rcases List.mem_cons.1 hn with rfl | hn
    · exact List.nil_subset _
    · exact List.subset_cons_of_subset _ (List.subset_cons_of_subset _ (ih hn))
  | case4 b c s h ih =>
    cases hrest : components (c :: s) with
    | nil =>
      rw [hrest] at hn
      cases hn
    | cons m ms =>
      rw [hrest, List.modifyHead_cons, List.mem_cons] at hn
      rcases hn with rfl | hn
      · exact List.cons_subset_cons _ (ih (hrest ▸ List.mem_cons_self))
      · exact List.subset_cons_of_subset _ (ih (hrest ▸ List.mem_cons_of_mem _ hn))

end Emission

end Equate
