import Equate.Proofs.Mixing
import Equate.Proofs.Plan.Participation
/-!
# The last word of a hash is not lost

Numbers and truth values go into a hash as its last word, so nodes of one of these kinds have one
hash only if they hold the same value; the two zeros count as one number. In the same way the hash
of an instance tells which integer the last hashed member holds, if what was folded in before is
known (`Plan.hash_eq_iff`).
-/

namespace Equate

/-! ## Nodes -/

/-- Only the two zeros share a word. -/
theorem Binary64.hashWord_eq_iff {x y : Binary64} :
    x.hashWord = y.hashWord ↔ x.bits = y.bits ∨ x.isZero = true ∧ y.isZero = true := by
  have isZero_of_bits {x : Binary64} (h : x.bits = 0) : x.isZero = true := by
    rw [isZero, magnitude, h]
    rfl
  unfold hashWord
  constructor
  · intro h
    split at h <;> split at h
    · exact .inr ⟨‹_›, ‹_›⟩
    · exact absurd (isZero_of_bits h.symm) ‹_›
    · exact absurd (isZero_of_bits h) ‹_›
    · exact .inl h
  · rintro (h | ⟨hx, hy⟩)
    · obtain rfl : x = y := congrArg mk h
      rfl
    · rw [if_pos hx, if_pos hy]

namespace Node

variable {m n : Mark}

theorem hash_int_inj {i j : Int64} : (int m i).hash = (int n j).hash ↔ i = j := by
  rw [hash, hash, Hasher.finish_add_inj]
  exact ⟨fun h => by rw [← i.toInt64_toUInt64, h, j.toInt64_toUInt64], congrArg _⟩

theorem hash_bool_inj {a b : Bool} : (bool m a).hash = (bool n b).hash ↔ a = b := by
  rw [hash, hash, Hasher.finish_add_inj]
  cases a <;> cases b <;> decide

theorem hash_float_eq_iff {x y : Binary64} :
    (float m x).hash = (float n y).hash ↔
      x.bits = y.bits ∨ x.isZero = true ∧ y.isZero = true := by
  rw [hash, hash, Hasher.finish_add_inj, Binary64.hashWord_eq_iff]

end Node

/-! ## Instances -/

namespace Plan

variable {address : Node → UInt64} {p q : Plan} {a b : Instance} {words : List UInt64}

/-- Whether the plan folds in `words` for an instance, and behind them only the hash of `v`, which
is the value of an included member. -/
def EndsWith (address : Node → UInt64) (plan : Plan) (i : Instance) (words : List UInt64)
    (v : Node) : Prop :=
  ∃ front member back, plan = front ++ .include member :: back ∧
    (front.flatMap fun step => step.words address i) = words ∧
    (∀ step ∈ back, step.words address i = []) ∧ i.value member = v

theorem EndsWith.flatMap_words_eq {v : Node} (h : EndsWith address p a words v) :
    (p.flatMap fun step => step.words address a) = words ++ [v.hash] := by
  obtain ⟨front, member, back, rfl, hfront, hback, rfl⟩ := h
  rw [List.flatMap_append, List.flatMap_cons, hfront, List.flatMap_eq_nil_iff.2 hback]
  rfl

/-- Two hashes that differ at most in their last word are equal only if this word is. -/
theorem hash_eq_iff {v w : Node} (htype : a.type = b.type) (hp : EndsWith address p a words v)
    (hq : EndsWith address q b words w) :
    p.hash address a = q.hash address b ↔ v.hash = w.hash := by
  rw [hash_eq, hash_eq, hp.flatMap_words_eq, hq.flatMap_words_eq, htype]
  simp only [Hasher.addAll, List.foldl_append, List.foldl_cons, List.foldl_nil,
    Hasher.finish_add_inj]

theorem hash_ne_of_endsWith {m n : Mark} {i j : Int64} (htype : a.type = b.type)
    (hp : EndsWith address p a words (.int m i)) (hq : EndsWith address q b words (.int n j))
    (hne : i ≠ j) : p.hash address a ≠ q.hash address b :=
  fun heq => hne (Node.hash_int_inj.1 ((hash_eq_iff htype hp hq).1 heq))

/-- Instances that agree on the members in front of an included one get the same words up to it. -/
theorem endsWith_of_agreeOn (front : Plan) (member : Bytes) {back : Plan}
    (h : a.AgreeOn (· ∈ front.map PlanStep.member) b)
    (hback : ∀ step ∈ back, step.words address b = []) :
    EndsWith address (front ++ .include member :: back) b
      (front.flatMap fun step => step.words address a) (b.value member) := by
  refine ⟨front, member, back, rfl, ?_, hback, rfl⟩
  rw [List.flatMap_def, List.flatMap_def]
  refine congrArg _ (List.map_congr_left fun step hstep => ?_)
  have hdigest := PlanStep.digest_congr address (h.value _ (List.mem_map_of_mem hstep))
  exact (congrArg Prod.fst hdigest).symm

/-- What a hash tells of the last word folded in. It tells integers, truth values and doubles
apart, and of an instance the integer in the last included member that is hashed: for two instances
that agree on the members hashed before, and for any two plans that fold in the same words up to
there. -/
theorem last_word_decides :
    Function.Bijective mix ∧
      (∀ h : Hasher, Function.Injective fun word => (h.add word).finish) ∧
      (∀ m n i j, (Node.int m i).hash = (Node.int n j).hash ↔ i = j) ∧
      (∀ m n x y, (Node.bool m x).hash = (Node.bool n y).hash ↔ x = y) ∧
      (∀ m n x y, (Node.float m x).hash = (Node.float n y).hash ↔
        x.bits = y.bits ∨ x.isZero = true ∧ y.isZero = true) ∧
      (∀ (address : Node → UInt64) (front back : Plan) (member : Bytes) (a b : Instance)
        (m n : Mark) (i j : Int64),
        a.AgreeOn (· ∈ front.map PlanStep.member) b →
        (∀ step ∈ back, step.words address a = [] ∧ step.words address b = []) →
        a.value member = .int m i → b.value member = .int n j → i ≠ j →
          Plan.hash address (front ++ .include member :: back) a ≠
            Plan.hash address (front ++ .include member :: back) b) ∧
      ∀ (address : Node → UInt64) (p q : Plan) (a b : Instance) (words : List UInt64)
        (m n : Mark) (i j : Int64), a.type = b.type →
        EndsWith address p a words (.int m i) → EndsWith address q b words (.int n j) → i ≠ j →
          p.hash address a ≠ q.hash address b := by
  refine ⟨bijective_mix, fun h v w => Hasher.finish_add_inj.1, fun m n i j => Node.hash_int_inj,
    fun m n x y => Node.hash_bool_inj, fun m n x y => Node.hash_float_eq_iff, ?_,
    fun address p q a b words m n i j => hash_ne_of_endsWith⟩
  intro address front back member a b m n i j hagree hback ha hb hne
  have hself : EndsWith address (front ++ .include member :: back) a
      (front.flatMap fun step => step.words address a) (.int m i) := by
    rw [← ha]
    exact endsWith_of_agreeOn front member (.refl _ a) fun step hstep => (hback step hstep).1
  have hother : EndsWith address (front ++ .include member :: back) b
      (front.flatMap fun step => step.words address a) (.int n j) := by
    rw [← hb]
    exact endsWith_of_agreeOn front member hagree fun step hstep => (hback step hstep).2
  exact hash_ne_of_endsWith hagree.type hself hother hne

/-- The person `ada` with a number for her id. -/
def numberedAda (i : Int64) : Instance := ada.put "id" (.int ⟨10, none⟩ i)

/-- The plan for persons, and behind it a sequence that no instance has. -/
def annotatedPlan : Plan := personPlan ++ [.sequence "notes" true true]

theorem last_word_decides_id :
    (36 : Int64) ≠ 37 ∧
      (numberedAda 36).AgreeOn (· ∈ personPlan.dropLast.map PlanStep.member) (numberedAda 37) ∧
      (∀ m n, (Node.int m 36).hash ≠ (Node.int n 37).hash) ∧
      ∀ address, annotatedPlan.hash address (numberedAda 36) ≠
          annotatedPlan.hash address (numberedAda 37) ∧
        personPlan.hash address (numberedAda 36) ≠ annotatedPlan.hash address (numberedAda 37) := by
  obtain ⟨-, -, hint, -, -, hplan, hplans⟩ := last_word_decides
  have hne : (36 : Int64) ≠ 37 := by decide
  have hid : utf8 "id" ∉ personPlan.dropLast.map PlanStep.member := by decide
  have hagree : (numberedAda 36).AgreeOn (· ∈ personPlan.dropLast.map PlanStep.member)
      (numberedAda 37) :=
    ⟨rfl, fun name hname => ((Instance.AgreeOn.put hid _).value name hname).trans
      ((Instance.AgreeOn.put hid _).value name hname).symm⟩
  have hback : ∀ i, ∀ address, ∀ step ∈ [PlanStep.sequence "notes" true true],
      step.words address (numberedAda i) = [] := by
    intro i address step hstep
    obtain rfl := List.mem_singleton.1 hstep
    rfl
  refine ⟨hne, hagree, fun m n h => hne ((hint m n _ _).1 h), fun address => ⟨?_, ?_⟩⟩
  · exact hplan address personPlan.dropLast _ "id" _ _ ⟨10, none⟩ ⟨10, none⟩ 36 37 hagree
      (fun step hstep => ⟨hback 36 address step hstep, hback 37 address step hstep⟩) rfl rfl hne
  · exact hplans address personPlan annotatedPlan _ _ _ ⟨10, none⟩ ⟨10, none⟩ 36 37 rfl
      (endsWith_of_agreeOn personPlan.dropLast "id" (.refl _ _) (List.forall_mem_nil _))
      (endsWith_of_agreeOn personPlan.dropLast "id" hagree (hback 37 address)) hne

end Plan

end Equate
