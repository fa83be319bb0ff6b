import Equate.Proofs.Compile.Places
import Equate.Proofs.Compile.Synthesis
import Equate.Proofs.Declaration.Parts
import Equate.Proofs.Declaration.Permuted
/-!
# Declarations with their options in another order

A declaration form that nothing is reported about is read as the same declaration if its options
come in another order, and those of its members, functions, constants and strategies too
(`Declaration.read_of_reorders`). So it compiles to the same contract or table, and to the same
code, wherever its parts stand then (`Declaration.reordering_changes_places_only`).
-/

namespace Equate

open Node

variable {f g v w : Node}

/-! ## Values that are reordered -/

namespace Node

/-- Whether a vector has the elements of another one in their places, each as it is or with its
options in another order. -/
inductive Itemwise (R : Bytes → Node → Node → Prop) : Node → Node → Prop where
  | vector {m : Mark} {xs ys : List Node} (h : List.Forall₂ (Relation.ReflGen (Permuted R)) xs ys) :
      Itemwise R (.vector m xs) (.vector m ys)

/-- What the values of a member form may differ in: the options of strategies. -/
inductive MemberValue (key : Bytes) : Node → Node → Prop where
  | kept (v : Node) : MemberValue key v v
  | strategy {v w : Node} (hkey : key = utf8 "equality") (h : v.Permuted Kept w) :
      MemberValue key v w
  | strategies {v w : Node} (hkey : key = utf8 "equality") (h : v.Itemwise Kept w) :
      MemberValue key v w

/-- What the values of a class form may differ in: the options of members and functions. -/
inductive ClassValue (key : Bytes) : Node → Node → Prop where
  | kept (v : Node) : ClassValue key v v
  | members {v w : Node} (hkey : key = utf8 "members") (h : v.Itemwise MemberValue w) :
      ClassValue key v w
  | functions {v w : Node} (hkey : key = utf8 "functions") (h : v.Itemwise Kept w) :
      ClassValue key v w

/-- What the values of an enumeration form may differ in: the options of constants. -/
inductive EnumerationValue (key : Bytes) : Node → Node → Prop where
  | kept (v : Node) : EnumerationValue key v v
  | constants {v w : Node} (hkey : key = utf8 "constants") (h : v.Itemwise Kept w) :
      EnumerationValue key v w

/-- Whether a declaration form is another one with its options in another order, and those of its
members, functions, constants and strategies too. -/
inductive Reorders (f g : Node) : Prop where
  | classForm (hhead : f.head = utf8 "class") (h : f.Permuted ClassValue g)
  | enumeration (hhead : f.head = utf8 "enumeration") (h : f.Permuted EnumerationValue g)

variable {key : Bytes}

theorem MemberValue.eq_of_ne (h : MemberValue key v w) (hkey : key ≠ utf8 "equality") : v = w := by
  cases h with
  | kept => rfl
  | strategy heq | strategies heq => exact absurd heq hkey

/-- The values of a member that differ are there. -/
theorem MemberValue.eq_or_present (h : MemberValue key v w) :
    v = w ∨ v ≠ .absent ∧ w ≠ .absent := by
  cases h with
  | kept => exact .inl rfl
  | strategy _ h =>
    cases h
    exact .inr ⟨nofun, nofun⟩
  | strategies _ h =>
    cases h
    exact .inr ⟨nofun, nofun⟩

theorem ClassValue.eq_of_ne (h : ClassValue key v w) (hmembers : key ≠ utf8 "members")
    (hfunctions : key ≠ utf8 "functions") : v = w := by
  cases h with
  | kept => rfl
  | members heq => exact absurd heq hmembers
  | functions heq => exact absurd heq hfunctions

theorem ClassValue.members_cases (h : ClassValue (utf8 "members") v w) :
    v = w ∨ v.Itemwise MemberValue w := by
  cases h with
  | kept => exact .inl rfl
  | members _ h => exact .inr h
  | functions hkey => exact absurd hkey (by decide)

theorem ClassValue.functions_cases (h : ClassValue (utf8 "functions") v w) :
    v = w ∨ v.Itemwise Kept w := by
  cases h with
  | kept => exact .inl rfl
  | members hkey => exact absurd hkey (by decide)
  | functions _ h => exact .inr h

theorem EnumerationValue.constants_cases (h : EnumerationValue key v w) :
    v = w ∨ v.Itemwise Kept w := by
  cases h with
  | kept => exact .inl rfl
  | constants _ h => exact .inr h

theorem EnumerationValue.eq_of_ne (h : EnumerationValue key v w) (hkey : key ≠ utf8 "constants") :
    v = w := by
  cases h with
  | kept => rfl
  | constants heq => exact absurd heq hkey

/-- Vectors with reordered elements in place of each other give forms that are reordered. -/
theorem Permuted.formsFor_cases {R S : Bytes → Node → Node → Prop} (h : f.Permuted R g)
    (key : Bytes) (hvalue : ∀ v w, R key v w → v = w ∨ v.Itemwise S w) :
    (vectorClause key g.clauses).1 = (vectorClause key f.clauses).1 ∧
      List.Forall₂ (Relation.ReflGen (Permuted S)) (f.formsFor key) (g.formsFor key) := by
  unfold formsFor vectorClause Clause.value?
  rcases h.values_cases key with ⟨hf, hg⟩ | ⟨v, w, hf, hg, hR⟩
  · rw [hf, hg]
    exact ⟨rfl, .nil⟩
  · rw [hf, hg]
    rcases hvalue v w hR with rfl | hitemwise
    · exact ⟨rfl, List.forall₂_refl _⟩
    · cases hitemwise with
      | vector hitems => exact ⟨rfl, hitems⟩

end Node

/-! ## Members -/

namespace PlacedStrategy

variable {xs ys : List Node} {name : Bytes}

theorem ofNode?_of_reflGen {a : PlacedStrategy} (h : Relation.ReflGen (Permuted Kept) f g)
    (hf : ofNode? f = some a) : ofNode? g = some a ∧ finding? g = none := by
  have hfound {n : Node} {s : Strategy} (hn : Strategy.ofNode n = .ok s) :
      ofNode? n = some ⟨s, n.location⟩ ∧ finding? n = none := by
    simp only [ofNode?, finding?, hn, and_self]
  rcases cases_ofNode f with ⟨b, hb, hnone, hread⟩ | ⟨fault, hnone, -⟩
  · rw [hf] at hb
    cases hb
    cases h with
    | refl => exact ⟨hf, hnone⟩
    | single h =>
      obtain ⟨hg, hfinding⟩ := hfound (Strategy.ofNode_of_permuted h hread.strategy)
      rw [hg, h.location_eq, ← hread.location]
      exact ⟨rfl, hfinding⟩
  · rw [hf] at hnone
    cases hnone

theorem filterMap_eq_of_forall₂ (h : List.Forall₂ (Relation.ReflGen (Permuted Kept)) xs ys)
    (hnil : xs.filterMap finding? = []) :
    ys.filterMap finding? = [] ∧ ys.filterMap ofNode? = xs.filterMap ofNode? := by
  induction h with
  | nil => exact ⟨rfl, rfl⟩
  | @cons x y xs ys hxy _ ih =>
    rcases cases_ofNode x with ⟨a, ha, hnone, -⟩ | ⟨fault, -, hfault⟩
    · obtain ⟨hy, hynone⟩ := ofNode?_of_reflGen hxy ha
      rw [List.filterMap_cons_none hnone] at hnil
      obtain ⟨hfound, hread⟩ := ih hnil
      rw [List.filterMap_cons_none hynone, List.filterMap_cons_some hy,
        List.filterMap_cons_some ha, hread]
      exact ⟨hfound, rfl⟩
    · rw [List.filterMap_cons_some hfault] at hnil
      cases hnil

theorem readAll_of_memberValue {key : Bytes} (h : MemberValue key v w)
    (hnil : (readAll name v).1 = []) : readAll name w = readAll name v := by
  cases h with
  | kept => rfl
  | strategy _ h =>
    have hforms : List.Forall₂ (Relation.ReflGen (Permuted Kept)) [v] [w] := .cons (.single h) .nil
    cases h with
    | intro =>
      obtain ⟨hfound, hread⟩ := filterMap_eq_of_forall₂ hforms hnil
      exact Prod.ext (hfound.trans hnil.symm) hread
  | strategies _ h =>
    cases h with
    | vector hforms =>
      obtain ⟨hfound, hread⟩ := filterMap_eq_of_forall₂ hforms hnil
      exact Prod.ext (hfound.trans hnil.symm) hread

end PlacedStrategy

namespace Member

variable {position : Nat} {m : Member}

theorem strategyReading_of_permuted (h : f.Permuted MemberValue g)
    (hnil : (strategyReading f).1 = []) : strategyReading g = strategyReading f := by
  have hname : g.nameFor "name" = f.nameFor "name" :=
    h.nameFor_eq fun v w hv => hv.eq_of_ne (by decide)
  unfold strategyReading at hnil ⊢
  rw [hname]
  rcases h.value?_cases "equality" fun v w hv => hv.eq_or_present with
    heq | ⟨v, w, hf, hg, hvalue⟩
  · rw [heq]
  · rw [hf] at hnil ⊢
    rw [hg]
    exact PlacedStrategy.readAll_of_memberValue hvalue hnil

theorem faults_of_permuted (h : f.Permuted MemberValue g) (hnil : faults f = []) :
    faults g = [] := by
  refine h.filterMap_clauses_eq_nil (fun key v w hv hfind => ?_) hnil
  by_cases hkey : key = utf8 "equality"
  -- what is wrong with strategies is no matter of the clause
  · subst hkey
    rfl
  · rw [← hv.eq_of_ne hkey]
    exact hfind

/-- A member that nothing is found about is the same one with its options in another order. -/
theorem read_of_permuted (h : f.Permuted MemberValue g)
    (hread : read position f = ([], some m)) : read position g = ([], some m) := by
  have hkept {key : Bytes} (hkey : key ≠ utf8 "equality") (v w : Node)
      (hv : MemberValue key v w) : v = w := hv.eq_of_ne hkey
  have hname : g.nameFor "name" = f.nameFor "name" := h.nameFor_eq (hkept (by decide))
  obtain ⟨kind, type, hkind, hnamed, htype, hfaults, -, hstrategies, rfl⟩ :=
    read_eq_nil_some_iff.1 hread
  have hstrategies' := strategyReading_of_permuted h hstrategies
  refine read_eq_nil_some_iff.2 ⟨kind, type, ?_, ?_, ?_, faults_of_permuted h hfaults,
    h.stop_eq_nil.2, ?_, ?_⟩
  · rw [h.head_eq]
    exact hkind
  · rw [hname]
    exact hnamed
  · unfold readType at htype ⊢
    rw [hname, h.value?_eq (hkept (by decide)), h.location_eq]
    exact htype
  · rw [hstrategies']
    exact hstrategies
  · unfold ofForm
    rw [hname, hstrategies', h.boolean_eq (hkept (by decide)), h.boolean_eq (hkept (by decide)),
      h.boolean_eq (hkept (by decide)), h.values_eq (hkept (by decide)), h.location_eq]

theorem read_of_reflGen (h : Relation.ReflGen (Permuted MemberValue) f g)
    (hread : read position f = ([], some m)) : read position g = ([], some m) := by
  cases h with
  | refl => exact hread
  | single h => exact read_of_permuted h hread

/-- Members that nothing is found about are the same with their options in another order. -/
theorem readAll_of_forall₂ {seen : Std.TreeMap Bytes Location} {xs ys : List Node}
    (h : List.Forall₂ (Relation.ReflGen (Permuted MemberValue)) xs ys)
    (hnil : (readAll seen position xs).1 = []) :
    readAll seen position ys = readAll seen position xs := by
  induction h generalizing seen position with
  | nil => rfl
  | @cons x y xs ys hxy _ ih =>
    cases hmember : (read position x).2 with
    | none =>
      simp only [readAll, hmember] at hnil
      exact absurd (List.append_eq_nil_iff.1 hnil).1 (findings_ne_nil hmember)
    | some m =>
      have hfound : (read position x).1 = [] := by
        simp only [readAll, hmember] at hnil
        split at hnil <;> exact (List.append_eq_nil_iff.1 hnil).1
      have hx : read position x = ([], some m) := Prod.ext hfound hmember
      simp only [readAll, hx, read_of_reflGen hxy hx] at hnil ⊢
      split at hnil
      -- a repeated name would be found
      · cases hnil
      · rename_i hseen
        rw [ih hnil]

end Member

/-! ## Functions and constants -/

/-- Values that stay as they are do so for any key. -/
theorem Node.eq_of_kept {key : Bytes} (v w : Node) (h : Kept key v w) : v = w := h

theorem Clause.booleanFindings_of_permuted {R : Bytes → Node → Node → Prop} {keys : List Bytes}
    (h : f.Permuted R g) (hkept : ∀ key ∈ keys, ∀ v w, R key v w → v = w)
    (hnil : booleanFindings keys f.clauses = []) : booleanFindings keys g.clauses = [] := by
  refine h.filterMap_clauses_eq_nil (fun key v w hR hfind => ?_) hnil
  by_cases hkey : key ∈ keys
  · rw [← hkept key hkey v w hR]
    exact hfind
  · exact if_neg (by simp [hkey])

theorem Node.optionFindings_of_permuted {R : Bytes → Node → Node → Prop} (h : f.Permuted R g)
    (hkept : ∀ v w, R (utf8 "partial") v w → v = w) (hnil : f.optionFindings = []) :
    g.optionFindings = [] := by
  obtain ⟨hpartial, -⟩ := List.append_eq_nil_iff.1 hnil
  refine List.append_eq_nil_iff.2 ⟨Clause.booleanFindings_of_permuted h ?_ hpartial,
    h.stop_eq_nil.2⟩
  rintro key hkey
  rw [List.mem_singleton.1 hkey]
  exact hkept

namespace CompanionFunction

theorem read_of_reflGen {c : CompanionFunction} (h : Relation.ReflGen (Permuted Kept) f g)
    (hread : read f = ([], some c)) : read g = ([], some c) := by
  cases h with
  | refl => exact hread
  | single h =>
    rw [read_eq] at hread ⊢
    rw [h.head_eq, h.nameFor_eq eq_of_kept, h.boolean_eq eq_of_kept, h.location_eq]
    split at hread
    · rename_i hhead
      split at hread
      · cases congrArg Prod.snd hread
      · rename_i hname
        have hnil := (List.append_eq_nil_iff.1 (congrArg Prod.fst hread)).1
        rw [if_pos hhead, if_neg hname, h.stop_eq_nil.2,
          Clause.booleanFindings_of_permuted h (fun _ _ => eq_of_kept) hnil]
        rwa [h.stop_eq_nil.1, hnil] at hread
    · cases congrArg Prod.snd hread

/-- Functions that nothing is found about are the same with their options in another order. -/
theorem map_read_of_forall₂ {xs ys : List Node}
    (h : List.Forall₂ (Relation.ReflGen (Permuted Kept)) xs ys)
    (hnil : (xs.flatMap fun x => (read x).1) = []) : ys.map read = xs.map read := by
  induction h with
  | nil => rfl
  | @cons x y xs ys hxy _ ih =>
    obtain ⟨hfound, hrest⟩ := List.append_eq_nil_iff.1 hnil
    rcases read_cases x with ⟨c, hc, -⟩ | ⟨-, hne⟩
    · have hx : read x = ([], some c) := Prod.ext hfound hc
      rw [List.map_cons, List.map_cons, hx, read_of_reflGen hxy hx, ih hrest]
    · exact absurd hfound hne

end CompanionFunction

namespace ConstantDeclaration

variable {position : Nat}

theorem read_of_reflGen {c : ConstantDeclaration} (h : Relation.ReflGen (Permuted Kept) f g)
    (hread : read position f = ([], some c)) : read position g = ([], some c) := by
  cases h with
  | refl => exact hread
  | single h =>
    rw [read_eq] at hread ⊢
    rw [h.head_eq, h.nameFor_eq eq_of_kept, h.value?_eq eq_of_kept, h.location_eq, h.stop_eq_nil.2]
    rwa [h.stop_eq_nil.1] at hread

/-- Constants that nothing is found about are the same with their options in another order. -/
theorem readAll_of_forall₂ {xs ys : List Node}
    (h : List.Forall₂ (Relation.ReflGen (Permuted Kept)) xs ys)
    (hnil : (readAll position xs).1 = []) : readAll position ys = readAll position xs := by
  induction h generalizing position with
  | nil => rfl
  | @cons x y xs ys hxy _ ih =>
    rcases readAll_cons position x xs with ⟨c, hc, -, heq⟩ | ⟨hne, heq⟩
    · rw [heq] at hnil ⊢
      obtain ⟨hfound, hrest⟩ := List.append_eq_nil_iff.1 hnil
      have hx : read position x = ([], some c) := Prod.ext hfound hc
      simp only [readAll, read_of_reflGen hxy hx, Option.isSome_some, if_true, Option.toList_some,
        List.singleton_append, ih hrest, hfound]
    · rw [heq] at hnil
      exact absurd (List.append_eq_nil_iff.1 hnil).1 hne

end ConstantDeclaration

/-! ## Declarations -/

namespace ClassDeclaration

theorem partFindings_of_permuted (h : f.Permuted ClassValue g) (hnil : partFindings f = []) :
    partFindings g = [] ∧ ofForm g = ofForm f := by
  have hkept {key : Bytes} (hmembers : key ≠ utf8 "members") (hfunctions : key ≠ utf8 "functions")
      (v w : Node) (hv : ClassValue key v w) : v = w := hv.eq_of_ne hmembers hfunctions
  have hattrs : vectorClause "attrs" g.clauses = vectorClause "attrs" f.clauses := by
    unfold vectorClause
    rw [h.value?_eq (hkept (by decide) (by decide))]
  have hbase : ClassBase.read g.clauses = ClassBase.read f.clauses := by
    unfold ClassBase.read
    rw [h.value?_eq (hkept (by decide) (by decide))]
  obtain ⟨hmemberVector, hmemberForms⟩ := h.formsFor_cases "members" fun _ _ hv => hv.members_cases
  obtain ⟨hfunctionVector, hfunctionForms⟩ :=
    h.formsFor_cases "functions" fun _ _ hv => hv.functions_cases
  have hmembers : Member.readAll {} 0 (g.formsFor "members") =
      Member.readAll {} 0 (f.formsFor "members") := by
    apply Member.readAll_of_forall₂ hmemberForms
    simp only [partFindings, List.append_eq_nil_iff] at hnil
    exact hnil.1.1.2
  have hfunctions : (g.formsFor "functions").map CompanionFunction.read =
      (f.formsFor "functions").map CompanionFunction.read :=
    CompanionFunction.map_read_of_forall₂ hfunctionForms (List.append_eq_nil_iff.1 hnil).2
  have hfunctionFindings := congrArg (List.flatMap Prod.fst) hfunctions
  have hfunctionsRead := congrArg (List.filterMap Prod.snd) hfunctions
  simp only [List.flatMap_map] at hfunctionFindings
  simp only [List.filterMap_map, Function.comp_def] at hfunctionsRead
  constructor
  · rw [← hnil, partFindings, partFindings, hattrs, hbase, hmemberVector, hmembers,
      hfunctionVector, hfunctionFindings]
  · have hmarks : g.formsFor "attrs" = f.formsFor "attrs" := congrArg Prod.snd hattrs
    rw [ofForm, ofForm, h.nameFor_eq (hkept (by decide) (by decide)),
      h.nameFor_eq (hkept (by decide) (by decide)), h.boolean_eq (hkept (by decide) (by decide)),
      hmarks, hbase, hmembers, hfunctionsRead, h.location_eq]

/-- A class that nothing is found about is the same one with its options in another order. -/
theorem read_of_permuted (hhead : f.head = utf8 "class") (h : f.Permuted ClassValue g)
    (hnil : (read f).findings = []) : read g = read f := by
  have hname : g.nameFor "name" = f.nameFor "name" :=
    h.nameFor_eq fun v w hv => hv.eq_of_ne (by decide) (by decide)
  rw [read_eq hhead] at hnil ⊢
  rw [read_eq (h.head_eq.trans hhead), hname]
  split at hnil
  · exact absurd hnil (by simp [PartialReading.findings])
  · rename_i hnamed
    have hnil : f.optionFindings ++ partFindings f = [] := hnil
    obtain ⟨hoptions, hparts⟩ := List.append_eq_nil_iff.1 hnil
    obtain ⟨hparts', hdeclared⟩ := partFindings_of_permuted h hparts
    have hoptions' := Node.optionFindings_of_permuted h
      (fun v w hv => hv.eq_of_ne (by decide) (by decide)) hoptions
    rw [if_neg hnamed, if_neg hnamed, hoptions, hoptions', hparts, hparts', hdeclared]

end ClassDeclaration

namespace EnumDeclaration

/-- An enumeration that nothing is found about is the same one with its options in another order. -/
theorem read_of_permuted (hhead : f.head = utf8 "enumeration") (h : f.Permuted EnumerationValue g)
    (hnil : (read f).findings = []) : read g = read f := by
  have hkept {key : Bytes} (hkey : key ≠ utf8 "constants") (v w : Node)
      (hv : EnumerationValue key v w) : v = w := hv.eq_of_ne hkey
  rw [read_eq hhead] at hnil ⊢
  rw [read_eq (h.head_eq.trans hhead), h.nameFor_eq (hkept (by decide))]
  split at hnil
  · exact absurd hnil (by simp [PartialReading.findings])
  · rename_i hnamed
    have hnil : f.optionFindings ++ partFindings f = [] := hnil
    obtain ⟨hoptions, hparts⟩ := List.append_eq_nil_iff.1 hnil
    obtain ⟨hvector, hforms⟩ := h.formsFor_cases "constants" fun _ _ hv => hv.constants_cases
    have hconstants :=
      ConstantDeclaration.readAll_of_forall₂ hforms (List.append_eq_nil_iff.1 hparts).2
    have hparts' : partFindings g = partFindings f := by
      rw [partFindings, partFindings, hvector, hconstants]
    have hdeclared : ofForm g = ofForm f := by
      rw [ofForm, ofForm, h.nameFor_eq (hkept (by decide)), h.nameFor_eq (hkept (by decide)),
        h.boolean_eq (hkept (by decide)), hconstants, h.location_eq]
    rw [if_neg hnamed, if_neg hnamed, hparts', hdeclared, hoptions,
      Node.optionFindings_of_permuted h (hkept (by decide)) hoptions]

end EnumDeclaration

namespace Declaration

/-- A form that nothing is reported about is read alike with its options in another order. -/
theorem read_of_reorders {rep : Reporter} (h : f.Reorders g)
    (hnil : (read rep f).diagnostics = []) : read rep g = read rep f := by
  have hfindings := diagnostics_eq_nil_iff.1 hnil
  unfold findings at hfindings
  unfold read
  cases h with
  | classForm hhead h =>
    rw [if_pos hhead] at hfindings ⊢
    rw [if_pos (h.head_eq.trans hhead), ClassDeclaration.read_of_permuted hhead h hfindings]
  | enumeration hhead h =>
    have hclass : f.head ≠ utf8 "class" := by
      rw [hhead]
      decide
    rw [if_neg hclass, if_pos hhead] at hfindings ⊢
    rw [h.head_eq, if_neg hclass, if_pos hhead,
      EnumDeclaration.read_of_permuted hhead h hfindings]

/-- Options may be written in any order. If nothing is reported about a declaration form, then
nothing is about a form with its options in another order, and those of its members, functions,
constants and strategies too. Both are read as one declaration and compile to one contract or
table and to the same code, but for the places they tell. -/
theorem reordering_changes_places_only {form : Node} (rep : Reporter) (h : f.Reorders g)
    (hform : form.unmarked = g.unmarked) (hnil : (read rep f).diagnostics = []) :
    (read rep form).diagnostics = [] ∧
      (∃ d e, (read rep f).declaration? = some d ∧ (read rep form).declaration? = some e ∧
        e.relocate Location.forget = d.relocate Location.forget) ∧
      (Output.ofForm rep.fixHints form).unplaced = (Output.ofForm rep.fixHints f).unplaced ∧
      (Output.ofForm rep.fixHints form).code = (Output.ofForm rep.fixHints f).code := by
  have hread : (read rep form).relocate Location.forget =
      (read rep f).relocate Location.forget := by
    rw [← read_unmarked, hform, read_unmarked, read_of_reorders h hnil]
  have hdiagnostics := congrArg Reading.diagnostics hread
  have hdeclared := congrArg Reading.declaration? hread
  simp only [Reading.relocate, hnil, List.map_nil, List.map_eq_nil_iff] at hdiagnostics hdeclared
  have hunplaced : (Output.ofForm rep.fixHints form).unplaced =
      (Output.ofForm rep.fixHints f).unplaced := by
    have hnil' : (read { fixHints := rep.fixHints } f).diagnostics = [] :=
      diagnostics_eq_nil_iff.2 (diagnostics_eq_nil_iff.1 hnil)
    rw [← Output.ofForm_unmarked, hform, Output.ofForm_unmarked, Output.ofForm_eq_ofReading,
      Output.ofForm_eq_ofReading, read_of_reorders h hnil']
  have hcode : (Output.ofForm rep.fixHints form).unplaced.code =
      (Output.ofForm rep.fixHints f).unplaced.code := by rw [hunplaced]
  refine ⟨hdiagnostics, ?_, hunplaced, hcode⟩
  cases hd : (read rep f).declaration? with
  | none => exact absurd hnil (diagnostics_ne_nil rep hd)
  | some d =>
    rw [hd, Option.map_some, Option.map_eq_some_iff] at hdeclared
    obtain ⟨e, he, heq⟩ := hdeclared
    exact ⟨d, e, rfl, he, heq⟩

/-- The options of a class, with its member forms and its function forms. -/
def trackOptions (members functions : List Node) : List WrittenOption :=
  [{ key := "name", value := .symbol .blank "Track" },
    { key := "partial", value := .bool .blank true },
    { key := "base", value := .symbol .blank "value-object" },
    { key := "attrs", value := .vector .blank [.symbol .blank "value-object"] },
    { key := "members", value := .vector .blank members },
    { key := "functions", value := .vector .blank functions }]

/-- The options of a member with its strategy form. -/
def stopsOptions (strategy : Node) : List WrittenOption :=
  [{ key := "name", value := .symbol .blank "stops" },
    { key := "type", value := .list .blank [.symbol .blank "seq", .symbol .blank "i32"] },
    { key := "equality", value := strategy }]

def orderedOptions : List WrittenOption :=
  [{ key := "order", value := .int .blank 2 }, { key := "deep", value := .bool .blank false }]

def lengthOptions : List WrittenOption :=
  [{ key := "name", value := .symbol .blank "length" },
    { key := "static", value := .bool .blank false }]

/-- A class with a member that is compared as a sequence, and a function. -/
def track : Node :=
  form .blank (.symbol .blank "class") <| trackOptions
    [form .blank (.symbol .blank "field")
      (stopsOptions (form .blank (.symbol .blank "sequence") orderedOptions))]
    [form .blank (.symbol .blank "fn") lengthOptions]

/-- The same class with all options in reverse order. -/
def trackReversed : Node :=
  form .blank (.symbol .blank "class") <| List.reverse <| trackOptions
    [form .blank (.symbol .blank "field")
      (stopsOptions (form .blank (.symbol .blank "sequence") orderedOptions.reverse)).reverse]
    [form .blank (.symbol .blank "fn") lengthOptions.reverse]

theorem reorders_track : track.Reorders trackReversed := by
  have halike {R : Bytes → Node → Node → Prop} (hR : ∀ key v, R key v v)
      (os : List WrittenOption) : List.Forall₂ (WrittenOption.Alike R) os os :=
    List.forall₂_same.2 fun o _ => ⟨rfl, hR o.key o.value⟩
  have hstrategy : (form .blank (.symbol .blank "sequence") orderedOptions).Permuted Kept
      (form .blank (.symbol .blank "sequence") orderedOptions.reverse) :=
    .reverse (by decide) (halike (fun _ _ => rfl) _)
  have hfunction : (form .blank (.symbol .blank "fn") lengthOptions).Permuted Kept
      (form .blank (.symbol .blank "fn") lengthOptions.reverse) :=
    .reverse (by decide) (halike (fun _ _ => rfl) _)
  refine .classForm rfl (.reverse (by decide) ?_)
  refine .cons ⟨rfl, .kept _⟩ (.cons ⟨rfl, .kept _⟩ (.cons ⟨rfl, .kept _⟩ (.cons ⟨rfl, .kept _⟩
    (.cons ⟨rfl, .members rfl (.vector (.cons (.single ?_) .nil))⟩
      (.cons ⟨rfl, .functions rfl (.vector (.cons (.single hfunction) .nil))⟩ .nil)))))
  exact .reverse (by decide) (.cons ⟨rfl, .kept _⟩ (.cons ⟨rfl, .kept _⟩
    (.cons ⟨rfl, .strategy rfl hstrategy⟩ .nil)))

/-- The class in reverse order, on two lines. -/
def trackText : Bytes :=
  utf8 "(class :functions [(fn :static false :name length)]\n" ++
    utf8 ":members [(field :equality (sequence :deep false :order 2) :type (seq i32) " ++
    utf8 ":name stops)] :attrs [value-object] :base value-object :partial true :name Track)"

theorem reordering_trackText :
    ∃ form, Node.read trackText = .ok form ∧ (read {} form).diagnostics = [] ∧
      (Output.ofForm true form).code = (Output.ofForm true track).code ∧
      (Output.ofForm true track).contract?.isSome = true := by
  have hform : (Node.read trackText).toOption.map Node.unmarked = some trackReversed.unmarked := by
    decide +kernel
  cases hread : Node.read trackText with
  | error e =>
    rw [hread] at hform
    cases hform
  | ok form =>
    rw [hread] at hform
    obtain ⟨hdiagnostics, -, -, hcode⟩ := reordering_changes_places_only {} reorders_track
      (Option.some.inj hform) (by decide +kernel)
    exact ⟨form, rfl, hdiagnostics, hcode, by decide +kernel⟩

end Declaration

end Equate
