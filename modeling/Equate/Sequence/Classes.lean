import Std.Data.TreeMap
/-!
# Classes of equal elements

The elements of a sequence fall into classes of equal ones. `classes` gathers them one element at
a time, comparing it with all classes found before. A `ClassTable` does the same with an index by
hash, so that an element meets only representatives with its own hash; `toList_ofList` says that
it holds the very same classes, and `hasMatch_eq` that it finds the same match for a class.
-/

namespace Equate

/-- How elements are compared and hashed. -/
structure Comparison (α : Type) where
  equal : α → α → Bool
  hash : α → UInt64

/-- Elements equal to one another: the first of them, its hash, and how many there are. -/
structure EqualityClass (α : Type) where
  representative : α
  hash : UInt64
  count : Nat
  deriving DecidableEq, Repr

namespace EqualityClass

variable {α : Type}

/-- Whether an element with hash `h` belongs to a class. -/
def admits (cmp : Comparison α) (x : α) (h : UInt64) (c : EqualityClass α) : Bool :=
  c.hash == h && cmp.equal c.representative x

/-- The class with one element more. -/
def grow (c : EqualityClass α) : EqualityClass α := { c with count := c.count + 1 }

end EqualityClass

namespace Sequence

variable {α : Type}

/-- Adds an element with hash `h` to the first class that admits it, or opens a class for it behind
the others. -/
def addToClass (cmp : Comparison α) (x : α) (h : UInt64) :
    List (EqualityClass α) → List (EqualityClass α)
  | [] => [⟨x, h, 1⟩]
  | c :: cs => if c.admits cmp x h then c.grow :: cs else c :: addToClass cmp x h cs

/-- The classes of a sequence, in the order in which they first occur. -/
def classes (cmp : Comparison α) (xs : List α) : List (EqualityClass α) :=
  xs.foldl (fun cs x => addToClass cmp x (cmp.hash x) cs) []

/-- Whether the first class of `others` that admits the representative of `c` has the size of
`c`. -/
def hasMatch (cmp : Comparison α) (others : List (EqualityClass α)) (c : EqualityClass α) : Bool :=
  match others.find? (EqualityClass.admits cmp c.representative c.hash) with
  | some o => o.count == c.count
  | none => false

theorem addToClass_eq (cmp : Comparison α) (x : α) (h : UInt64) (cs : List (EqualityClass α)) :
    addToClass cmp x h cs =
      match cs.findIdx? (EqualityClass.admits cmp x h) with
      | some i => cs.modify i EqualityClass.grow
      | none => cs ++ [⟨x, h, 1⟩] := by
  induction cs with
  | nil => rfl
  | cons c cs ih =>
    rw [addToClass, List.findIdx?_cons]
    split
    · simp
    · rw [ih]
      cases cs.findIdx? (EqualityClass.admits cmp x h) <;> simp

end Sequence

/-! ## Tables -/

/-- Classes, and for each hash the places of the classes that have it. -/
structure ClassTable (α : Type) where
  classes : Array (EqualityClass α) := #[]
  index : Std.TreeMap UInt64 (List Nat) := {}

namespace ClassTable

variable {α : Type}

/-- The places of the classes with a hash, in ascending order. -/
def places (t : ClassTable α) (h : UInt64) : List Nat := t.index.getD h []

/-- The place of the first class that admits an element with hash `h`. -/
def place? (cmp : Comparison α) (t : ClassTable α) (x : α) (h : UInt64) : Option Nat :=
  (t.places h).find? fun i => t.classes[i]?.any fun c => cmp.equal c.representative x

/-- Adds an element to its class, or opens a class for it behind the others. -/
def add (cmp : Comparison α) (t : ClassTable α) (x : α) : ClassTable α :=
  let h := cmp.hash x
  match t.place? cmp x h with
  | some i => { t with classes := t.classes.modify i EqualityClass.grow }
  | none =>
    let places := t.places h ++ [t.classes.size]
    { classes := t.classes.push ⟨x, h, 1⟩, index := t.index.insert h places }

/-- The table of a sequence. -/
def ofList (cmp : Comparison α) (xs : List α) : ClassTable α := xs.foldl (add cmp) {}

/-- Whether the class of the table that admits the representative of `c` has the size of `c`. -/
def hasMatch (cmp : Comparison α) (t : ClassTable α) (c : EqualityClass α) : Bool :=
  match t.place? cmp c.representative c.hash with
  | some i => t.classes[i]?.any fun o => o.count == c.count
  | none => false

/-! ## What a table holds -/

/-- The index lists exactly the places of the classes with each hash. -/
def Indexed (t : ClassTable α) : Prop :=
  ∀ h, t.places h =
    (List.range t.classes.size).filter fun i => t.classes[i]?.any fun c => c.hash == h

theorem find?_range {p : α → Bool} (xs : List α) :
    (List.range xs.length).find? (fun i => xs[i]?.any p) = xs.findIdx? p := by
  induction xs with
  | nil => rfl
  | cons x xs ih =>
    rw [List.length_cons, List.range_succ_eq_map, List.find?_cons, List.findIdx?_cons]
    cases hp : p x
    · simp only [List.getElem?_cons_zero, Option.any_some, hp, List.find?_map, ← ih]
      rfl
    · simp [hp]

theorem place?_eq {t : ClassTable α} (ht : t.Indexed) (cmp : Comparison α) (x : α) (h : UInt64) :
    t.place? cmp x h = t.classes.toList.findIdx? (EqualityClass.admits cmp x h) := by
  rw [place?, ht h, List.find?_filter, ← find?_range]
  congr 1
  funext i
  cases hi : t.classes[i]? <;> simp [hi, EqualityClass.admits]
  rfl

theorem toList_add {t : ClassTable α} (ht : t.Indexed) (cmp : Comparison α) (x : α) :
    (t.add cmp x).classes.toList =
      Sequence.addToClass cmp x (cmp.hash x) t.classes.toList := by
  rw [Sequence.addToClass_eq, ← place?_eq ht, add]
  split <;> simp [*]

theorem indexed_add {t : ClassTable α} (ht : t.Indexed) (cmp : Comparison α) (x : α) :
    (t.add cmp x).Indexed := by
  intro h
  rw [add]
  split
  · refine (ht h).trans ?_
    simp only [Array.size_modify, Array.getElem?_modify]
    congr 1
    funext i
    split
    · cases t.classes[i]? <;> rfl
    · rfl
  · simp only [places, Std.TreeMap.getD_insert, Std.LawfulEqCmp.compare_eq_iff_eq,
      Array.size_push, List.range_succ, List.filter_append]
    have old : ((List.range t.classes.size).filter fun i =>
        (t.classes.push ⟨x, cmp.hash x, 1⟩)[i]?.any fun c => c.hash == h) = t.places h := by
      rw [ht h]
      refine List.filter_congr fun i hi => ?_
      rw [Array.getElem?_push, if_neg (Nat.ne_of_lt (List.mem_range.1 hi))]
    rw [old]
    split
    · simp [places, *]
    · simp [places, *]

theorem indexed_foldl (cmp : Comparison α) (xs : List α) {t : ClassTable α} (ht : t.Indexed) :
    (xs.foldl (add cmp) t).Indexed := by
  induction xs generalizing t with
  | nil => exact ht
  | cons x xs ih => exact ih (indexed_add ht cmp x)

theorem toList_foldl (cmp : Comparison α) (xs : List α) {t : ClassTable α} (ht : t.Indexed) :
    (xs.foldl (add cmp) t).classes.toList =
      xs.foldl (fun cs x => Sequence.addToClass cmp x (cmp.hash x) cs) t.classes.toList := by
  induction xs generalizing t with
  | nil => rfl
  | cons x xs ih => rw [List.foldl_cons, List.foldl_cons, ih (indexed_add ht cmp x), toList_add ht]

theorem indexed_empty : Indexed (α := α) {} := fun _ => by simp [places]

theorem indexed_ofList (cmp : Comparison α) (xs : List α) : (ofList cmp xs).Indexed :=
  indexed_foldl cmp xs indexed_empty

theorem toList_ofList (cmp : Comparison α) (xs : List α) :
    (ofList cmp xs).classes.toList = Sequence.classes cmp xs :=
  toList_foldl cmp xs indexed_empty

theorem find?_eq {p : α → Bool} (xs : List α) :
    xs.find? p = (xs.findIdx? p).bind fun i => xs[i]? := by
  induction xs with
  | nil => rfl
  | cons x xs ih =>
    rw [List.find?_cons, List.findIdx?_cons]
    cases p x
    · simp only [ih, Bool.false_eq_true, if_false, Option.bind_map]
      rfl
    · rfl

theorem hasMatch_eq {t : ClassTable α} (ht : t.Indexed) (cmp : Comparison α)
    (c : EqualityClass α) :
    t.hasMatch cmp c = Sequence.hasMatch cmp t.classes.toList c := by
  rw [hasMatch, place?_eq ht, Sequence.hasMatch, find?_eq]
  cases t.classes.toList.findIdx? (EqualityClass.admits cmp c.representative c.hash) with
  | none => rfl
  | some i => cases hi : t.classes[i]? <;> simp [hi]

end ClassTable

end Equate
