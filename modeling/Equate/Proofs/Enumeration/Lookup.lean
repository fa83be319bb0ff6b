import Mathlib.Data.List.Nodup
import Equate.Proofs.Enumeration.Check
/-!
# Look-ups

The index of a table leads from a key to the first entry that has it (`getElem?_index`), whatever
the table. In a table that a check accepts no value and no name is repeated, so there looking up
undoes the table: each entry is what its value and its name lead to, and the two ways of looking up
agree on all that they find (`LookupTable.lookups_invert`).
-/

namespace Equate

/-- What becomes of a look-up for the entries with a property: it finds the first of them, and where
there is none it is the failure that is reported. -/
structure LooksUp (p : TableEntry → Prop) (entries : List TableEntry) (failure : LookupError)
    (found? : Option TableEntry) (result : Except LookupError TableEntry) : Prop where
  first : FirstWith p entries found?
  ok_iff : ∀ e, result = .ok e ↔ found? = some e
  error_iff : ∀ x, result = .error x ↔ (∀ e ∈ entries, ¬ p e) ∧ x = failure

namespace LooksUp

variable {p : TableEntry → Prop} {entries : List TableEntry} {found? : Option TableEntry}
  {result : Except LookupError TableEntry}

theorem of_firstWith (failure : LookupError) (h : FirstWith p entries found?) :
    LooksUp p entries failure found? (found?.elim (.error failure) .ok) := by
  refine ⟨h, fun e => ?_, fun x => ?_⟩
  · cases found? <;> simp
  · rw [← h.eq_none_iff]
    cases found? <;> simp [eq_comm]

theorem mem {failure : LookupError} (h : LooksUp p entries failure found? result) {e : TableEntry}
    (he : result = .ok e) : e ∈ entries := by
  have hfirst := h.first
  rw [(h.ok_iff e).1 he] at hfirst
  exact hfirst.mem.1

end LooksUp

/-! ## The index -/

section Index

variable {κ : Type} [Ord κ] [Std.TransOrd κ] [Std.LawfulEqOrd κ] [BEq κ] [LawfulBEq κ]

/-- A key that is there keeps its place, so each leads to the first entry with it. -/
theorem getElem?_index (key : TableEntry → κ) (entries : List TableEntry) (k : κ) :
    (TableEntry.index key entries)[k]? = entries.findIdx? fun e => key e == k := by
  rw [List.findIdx?_eq_fst_find?_zipIdx]
  exact LeadsToFirst.foldl (fun e => key e.1) Prod.snd entries.zipIdx k

namespace LookupTable

variable {t : LookupTable} {key : TableEntry → κ}

theorem firstWith_findBy? (t : LookupTable) (key : TableEntry → κ) (k : κ) :
    FirstWith (fun e => key e = k) t.entries (t.findBy? key k) := by
  rw [findBy?, getElem?_index, ← List.find?_eq_bind_findIdx?_getElem?]
  exact firstWith_find? (fun _ => beq_iff_eq) _

/-- Where no key is repeated, each entry is the first with its own. -/
theorem findBy?_eq_some (hkeys : (t.entries.map key).Nodup) {e : TableEntry}
    (he : e ∈ t.entries) : t.findBy? key (key e) = some e := by
  have hfirst := firstWith_findBy? t key (key e)
  cases hfound : t.findBy? key (key e) with
  | none =>
    exact absurd rfl (hfirst.eq_none_iff.1 hfound e he)
  | some f =>
    rw [hfound] at hfirst
    obtain ⟨hf, hkey⟩ := hfirst.mem
    exact congrArg some (List.inj_on_of_nodup_map hkeys hf he hkey)

end LookupTable

end Index

/-! ## Both ways of looking up -/

namespace LookupTable

variable {t : LookupTable}

theorem looksUp_findValue (t : LookupTable) (v : Int64) :
    LooksUp (fun e => e.value = v) t.entries (.noValue t.qualifiedName v) (t.findValue? v)
      (t.findValue v) := by
  have hvalue : t.findValue v = (t.findValue? v).elim (.error (.noValue t.qualifiedName v)) .ok := by
    unfold findValue
    cases t.findValue? v <;> rfl
  rw [hvalue]
  exact .of_firstWith _ (firstWith_findBy? t _ v)

theorem looksUp_findName (t : LookupTable) (n : Bytes) :
    LooksUp (fun e => e.name = n) t.entries (.noName t.qualifiedName n) (t.findName? n)
      (t.findName n) := by
  have hname : t.findName n = (t.findName? n).elim (.error (.noName t.qualifiedName n)) .ok := by
    unfold findName
    cases t.findName? n <;> rfl
  rw [hname]
  exact .of_firstWith _ (firstWith_findBy? t _ n)

/-- Looking up undoes the table. -/
structure IsInverse (t : LookupTable) : Prop where
  value : ∀ e ∈ t.entries, t.findValue e.value = .ok e
  name : ∀ e ∈ t.entries, t.findName e.name = .ok e
  distinct : t.entries.Pairwise fun e f => e.value ≠ f.value ∧ e.name ≠ f.name
  ofValue : ∀ v e, t.findValue v = .ok e → t.findName e.name = .ok e
  ofName : ∀ n e, t.findName n = .ok e → t.findValue e.value = .ok e

/-- It does where no value and no name is repeated. -/
theorem isInverse_of_nodup (hvalues : (t.entries.map TableEntry.value).Nodup)
    (hnames : (t.entries.map TableEntry.name).Nodup) : t.IsInverse := by
  have hvalue (e) (he : e ∈ t.entries) : t.findValue e.value = .ok e :=
    ((looksUp_findValue t e.value).ok_iff e).2 (findBy?_eq_some hvalues he)
  have hname (e) (he : e ∈ t.entries) : t.findName e.name = .ok e :=
    ((looksUp_findName t e.name).ok_iff e).2 (findBy?_eq_some hnames he)
  refine ⟨hvalue, hname, ?_, fun v e h => ?_, fun n e h => ?_⟩
  · exact (List.pairwise_map.1 hvalues).and (List.pairwise_map.1 hnames)
  · exact hname e ((looksUp_findValue t v).mem h)
  · exact hvalue e ((looksUp_findName t n).mem h)

theorem isInverse_of_check {fixHints : Bool} {d : EnumDeclaration}
    (h : (d.check fixHints).table? = some t) : t.IsInverse := by
  obtain ⟨hviolations, rfl⟩ := EnumDeclaration.table?_check_eq_some_iff.1 h
  obtain ⟨-, hvalues, hnames⟩ := EnumDeclaration.violations_eq_nil_iff.1 hviolations
  apply isInverse_of_nodup
  · simpa [EnumDeclaration.table, Function.comp_def] using hvalues
  · simpa [EnumDeclaration.table, Function.comp_def] using hnames

/-- Looking up a value or a name finds the first entry with it, in any table, and fails exactly if
there is none. In a table that a check returns looking up undoes the table. -/
theorem lookups_invert :
    (∀ (t : LookupTable) (v : Int64), LooksUp (fun e => e.value = v) t.entries
      (.noValue t.qualifiedName v) (t.findValue? v) (t.findValue v)) ∧
    (∀ (t : LookupTable) (n : Bytes), LooksUp (fun e => e.name = n) t.entries
      (.noName t.qualifiedName n) (t.findName? n) (t.findName n)) ∧
    ∀ (fixHints : Bool) (d : EnumDeclaration) (t : LookupTable),
      (d.check fixHints).table? = some t → t.IsInverse :=
  ⟨looksUp_findValue, looksUp_findName, fun _ _ _ => isInverse_of_check⟩

/-- A table in which the second entry takes the value of the first and the third one its name. -/
def overlapping : LookupTable :=
  { typeName := "Shade"
    entries := [⟨"Shade", "Red", 1, "Red", 0⟩, ⟨"Shade", "Crimson", 1, "Crimson", 1⟩,
      ⟨"Shade", "Scarlet", 2, "Red", 2⟩] }

example : (overlapping.findValue? 1).map TableEntry.constant = some (utf8 "Red") ∧
    (overlapping.findName? (utf8 "Red")).map TableEntry.value = some 1 ∧
    (overlapping.findValue? 2).map TableEntry.name = some (utf8 "Red") ∧
    overlapping.findValue? 3 = none := by
  decide

/-- Two literal constants with one between them that is not in the table. -/
def shades : EnumDeclaration :=
  { name := "Shade"
    extensible := true
    constants := [⟨"Red", some (1, "red"), 0, ⟨2, 1⟩⟩, ⟨"Next", none, 1, ⟨3, 1⟩⟩,
      ⟨"Rose", some (-2, "rose"), 2, ⟨4, 1⟩⟩] }

theorem lookups_invert_shades :
    (shades.check true).table? = some shades.table ∧ shades.table.IsInverse ∧
      (shades.table.findValue? (-2)).map TableEntry.position = some 2 ∧
      (shades.table.findName? (utf8 "rose")).map TableEntry.position = some 2 := by
  obtain ⟨-, -, hchecked⟩ := lookups_invert
  have htable : (shades.check true).table? = some shades.table := by decide
  exact ⟨htable, hchecked true shades _ htable, by decide, by decide⟩

end LookupTable

end Equate
