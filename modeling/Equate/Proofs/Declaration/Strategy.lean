import Equate.Proofs.Declaration.Permuted
/-!
# The grammar of strategies

A strategy is read from a list that starts with one of four symbols and has options behind it. Which
options may stand there depends on the head (`Strategy.Admits`, `Strategy.IsForm`), and of the
options with one key the last one counts (`LastOption`). What is accepted and what comes of it is
told by `Strategy.ofNode_grammar`: the number of a last `:order` is the place of the strategy, with
nothing cut off.
-/

namespace Equate

open WrittenOption

/-! ## The last option with a key -/

/-- What the last option with a key stands for, if there is an option with it. -/
inductive LastOption {α : Type} (stands : Node → α → Prop) (key : Bytes) (os : List WrittenOption) :
    Option α → Prop where
  | absent (h : ∀ o ∈ os, o.key ≠ key) : LastOption stands key os none
  | last {front rear : List WrittenOption} {o : WrittenOption} {a : α}
      (hos : os = front ++ o :: rear) (hkey : o.key = key) (hvalue : stands o.value a)
      (hrear : ∀ x ∈ rear, x.key ≠ key) : LastOption stands key os (some a)

namespace LastOption

variable {α : Type} {stands : Node → α → Prop} {key : Bytes} {os os' : List WrittenOption}
  {a? b? : Option α}

theorem isSome_iff (h : LastOption stands key os a?) :
    a?.isSome = true ↔ ∃ o ∈ os, o.key = key := by
  cases h with
  | absent h => simpa using h
  | @last front rear o a hos hkey =>
    subst hos
    exact ⟨fun _ => ⟨o, by simp, hkey⟩, fun _ => rfl⟩

/-- The options behind decide, and if the key is not among them those in front. -/
theorem append (h : LastOption stands key os a?) (h' : LastOption stands key os' b?) :
    LastOption stands key (os ++ os') (b?.or a?) := by
  -- the last option behind is the last of all, whatever stands in front
  cases h' with
  | last hos' hkey hvalue hrear =>
    subst hos'
    exact .last (List.append_assoc _ _ _).symm hkey hvalue hrear
  | absent h' =>
    cases h with
    | absent h =>
      refine .absent fun o ho => ?_
      exact (List.mem_append.1 ho).elim (h o) (h' o)
    | @last front rear o a hos hkey hvalue hrear =>
      subst hos
      refine .last (List.append_assoc front (o :: rear) os') hkey hvalue fun x hx => ?_
      exact (List.mem_append.1 hx).elim (hrear x) (h' x)

theorem singleton {o : WrittenOption} {a : α} (hkey : o.key = key) (hvalue : stands o.value a) :
    LastOption stands key [o] (some a) :=
  .last (List.nil_append [o]).symm hkey hvalue (List.forall_mem_nil _)

theorem singleton_none {o : WrittenOption} (hkey : o.key ≠ key) : LastOption stands key [o] none :=
  .absent (List.forall_mem_singleton.2 hkey)

end LastOption

namespace Strategy

/-! ## The grammar -/

/-- Which values a key may have behind a head. -/
inductive Admits (head : Bytes) : Bytes → Node → Prop where
  | order {m : Mark} {i : Int64} (hlow : -0x80000000 ≤ i.toInt) (hhigh : i.toInt ≤ 0x7fffffff) :
      Admits head (utf8 "order") (.int m i)
  | orderMatters {m : Mark} {b : Bool} (hhead : head = utf8 "sequence") :
      Admits head (utf8 "order-matters") (.bool m b)
  | deep {m : Mark} {b : Bool} (hhead : head = utf8 "sequence") :
      Admits head (utf8 "deep") (.bool m b)

/-- Whether a node is a list with the head of a strategy and options that may stand behind it. -/
structure IsForm (n : Node) (head : Bytes) (os : List WrittenOption) : Prop where
  list : ∃ m mark, n = Node.form m (.symbol mark head) os
  known : head ∈ [utf8 "include", utf8 "custom", utf8 "sequence", utf8 "ignore"]
  admits : ∀ o ∈ os, Admits head o.key o.value
  ignore : head = utf8 "ignore" → os = []

/-- The number that a node is. -/
def IsNumber (n : Node) (i : Int) : Prop := ∃ m w, n = .int m w ∧ w.toInt = i

def IsBoolean (n : Node) (b : Bool) : Prop := ∃ m, n = .bool m b

/-- Whether a strategy is what a head and options stand for. -/
structure Tells (head : Bytes) (os : List WrittenOption) (s : Strategy) : Prop where
  name : s.name = head
  order : ∃ i?, LastOption IsNumber (utf8 "order") os i? ∧ s.order = i?.getD 0
  explicit : s.order?.isSome = true ↔ ∃ o ∈ os, o.key = utf8 "order"
  flags : head = utf8 "sequence" → ∃ matters? deep?,
    LastOption IsBoolean (utf8 "order-matters") os matters? ∧
    LastOption IsBoolean (utf8 "deep") os deep? ∧
    s = .sequence s.order? (matters?.getD true) (deep?.getD true)

end Strategy

/-! ## Options -/

namespace StrategyOptions

open Strategy

variable {head : Bytes} {o o' : StrategyOptions} {os os' : List WrittenOption}

/-- Whether options change `o` to `o'`: what their last ones stand for, or else what was there. -/
structure Changes (os : List WrittenOption) (o o' : StrategyOptions) : Prop where
  order : ∃ i?, LastOption IsNumber (utf8 "order") os i? ∧ o'.order? = i?.or o.order?
  orderMatters : ∃ b?, LastOption IsBoolean (utf8 "order-matters") os b? ∧
    o'.orderMatters = b?.getD o.orderMatters
  deep : ∃ b?, LastOption IsBoolean (utf8 "deep") os b? ∧ o'.deep = b?.getD o.deep

theorem Changes.append {p : StrategyOptions} (h : Changes os o p) (h' : Changes os' p o') :
    Changes (os ++ os') o o' := by
  obtain ⟨⟨i?, hi, horder⟩, ⟨b?, hb, hmatters⟩, ⟨d?, hd, hdeep⟩⟩ := h
  obtain ⟨⟨i'?, hi', horder'⟩, ⟨b'?, hb', hmatters'⟩, ⟨d'?, hd', hdeep'⟩⟩ := h'
  refine ⟨⟨_, hi.append hi', ?_⟩, ⟨_, hb.append hb', ?_⟩, ⟨_, hd.append hd', ?_⟩⟩
  · rw [horder', horder, Option.or_assoc]
  · rw [hmatters', hmatters, Option.getD_or]
  · rw [hdeep', hdeep, Option.getD_or]

theorem isBoolean_of_boolean? {v : Node} {b : Bool} (h : v.boolean? = some b) : IsBoolean v b := by
  cases v with
  | bool m =>
    cases h
    exact ⟨m, rfl⟩
  | _ => cases h

theorem changes_of_sets {w : WrittenOption} (h : Sets head o w.clause o') : Changes [w] o o' := by
  have hmatters : utf8 "order" ≠ utf8 "order-matters" := by decide
  have hdeep : utf8 "order" ≠ utf8 "deep" := by decide
  have hflags : utf8 "order-matters" ≠ utf8 "deep" := by decide
  obtain ⟨mark, key, value⟩ := w
  cases h with
  | @order m i =>
    exact ⟨⟨_, .singleton rfl ⟨m, i, rfl, rfl⟩, rfl⟩, ⟨none, .singleton_none hmatters, rfl⟩,
      ⟨none, .singleton_none hdeep, rfl⟩⟩
  | orderMatters _ hv =>
    exact ⟨⟨none, .singleton_none hmatters.symm, rfl⟩,
      ⟨_, .singleton rfl (isBoolean_of_boolean? hv), rfl⟩, ⟨none, .singleton_none hflags, rfl⟩⟩
  | deep _ hv =>
    exact ⟨⟨none, .singleton_none hdeep.symm, rfl⟩, ⟨none, .singleton_none hflags.symm, rfl⟩,
      ⟨_, .singleton rfl (isBoolean_of_boolean? hv), rfl⟩⟩

/-- The walk over the options keeps the invariant that it stands at what the last ones gave. -/
theorem changes_of_setsAll (h : SetsAll head o (os.map clause) o') : Changes os o o' := by
  induction os generalizing o with
  | nil =>
    cases h
    exact ⟨⟨none, .absent (List.forall_mem_nil _), rfl⟩,
      ⟨none, .absent (List.forall_mem_nil _), rfl⟩, ⟨none, .absent (List.forall_mem_nil _), rfl⟩⟩
  | cons w os ih =>
    cases h with
    | cons hw hrest => exact (changes_of_sets hw).append (ih hrest)

theorem exists_sets_iff {c : Clause} : (∃ o', Sets head o c o') ↔ Admits head c.1 c.2 := by
  constructor
  · rintro ⟨o', h⟩
    cases h with
    | order hrange => exact .order (by omega) (by omega)
    | orderMatters hhead hv =>
      obtain ⟨m, rfl⟩ := isBoolean_of_boolean? hv
      exact .orderMatters hhead
    | deep hhead hv =>
      obtain ⟨m, rfl⟩ := isBoolean_of_boolean? hv
      exact .deep hhead
  · obtain ⟨key, v⟩ := c
    rintro (@⟨m, i, hlow, hhigh⟩ | hhead | hhead)
    · exact ⟨_, .order (by omega)⟩
    · exact ⟨_, .orderMatters hhead rfl⟩
    · exact ⟨_, .deep hhead rfl⟩

theorem exists_setsAll_iff :
    (∃ o', SetsAll head o (os.map clause) o') ↔ ∀ w ∈ os, Admits head w.key w.value := by
  induction os generalizing o with
  | nil => exact ⟨fun _ => List.forall_mem_nil _, fun _ => ⟨o, .nil⟩⟩
  | cons w os ih =>
    rw [List.forall_mem_cons]
    constructor
    · rintro ⟨o', h⟩
      cases h with
      | cons hw hrest => exact ⟨exists_sets_iff.1 ⟨_, hw⟩, ih.1 ⟨_, hrest⟩⟩
    · rintro ⟨hw, hrest⟩
      obtain ⟨p, hp⟩ := (exists_sets_iff (c := w.clause)).2 hw
      obtain ⟨o', ho'⟩ := (ih (o := p)).2 hrest
      exact ⟨o', .cons hp ho'⟩

/-- What is read as options consists of keys with values. -/
theorem exists_flatMap_of_read {xs : List Node} (h : read head o xs = .ok o') :
    ∃ os : List WrittenOption, xs = os.flatMap nodes := by
  fun_induction read head o xs with
  | case1 => exact ⟨[], rfl⟩
  | case2 o m key value rest p _ ih =>
    obtain ⟨os, rfl⟩ := ih h
    exact ⟨⟨m, key, value⟩ :: os, rfl⟩
  | case3 | case4 => cases h

end StrategyOptions

/-! ## Strategies -/

theorem StrategyFault.message_ne_nil (fault : StrategyFault) : fault.message ≠ [] := by
  cases fault <;> exact List.cons_ne_nil _ _

namespace Strategy

variable {head : Bytes} {os : List WrittenOption} {n : Node} {s : Strategy}

/-- What options come to behind a head. -/
inductive Makes (o : StrategyOptions) : Bytes → Strategy → Prop where
  | included : Makes o (utf8 "include") (.include o.order?)
  | custom : Makes o (utf8 "custom") (.custom o.order?)
  | sequence : Makes o (utf8 "sequence") (.sequence o.order? o.orderMatters o.deep)
  | ignored (h : o.order? = none) : Makes o (utf8 "ignore") .ignore

theorem ofHead_eq_ok_iff {o : StrategyOptions} : ofHead head o = .ok s ↔ Makes o head s := by
  constructor
  · intro h
    unfold ofHead at h
    split at h
    · subst head
      cases h
      exact .included
    split at h
    · subst head
      split at h
      · cases h
      · rename_i horder
        cases h
        exact .ignored (by simpa using horder)
    split at h
    · subst head
      cases h
      exact .sequence
    split at h
    · subst head
      cases h
      exact .custom
    · cases h
  · intro h
    cases h with
    | included | custom | sequence => rfl
    | ignored horder =>
      simp only [ofHead, horder]
      rfl

theorem ofNode_form_iff {m mark : Mark} :
    ofNode (.form m (.symbol mark head) os) = .ok s ↔
      head ≠ [] ∧ ∃ o, StrategyOptions.SetsAll head {} (os.map clause) o ∧ Makes o head s := by
  rw [ofNode_form_eq_ok_iff, Node.clauses_form]
  simp only [← ofHead_eq_ok_iff]
  rfl

/-- Whatever is read as a strategy is a list with a symbol and options behind it. -/
theorem exists_form_of_ofNode (h : ofNode n = .ok s) :
    ∃ m mark head os, n = Node.form m (.symbol mark head) os := by
  unfold ofNode at h
  split at h
  · cases h
  · rename_i hhead
    split at h
    · rename_i o hread
      obtain ⟨os, hos⟩ := StrategyOptions.exists_flatMap_of_read hread
      fun_cases Node.head n with
      | case1 m mark head xs =>
        obtain rfl : xs = os.flatMap nodes := hos
        exact ⟨m, mark, head, os, rfl⟩
      | case2 => exact absurd (by simp [Node.head, *]) hhead
    · cases h

/-- Options of a head that takes only places in the order are places in the order. -/
theorem key_of_admits {key : Bytes} {v : Node} (h : Admits head key v)
    (hhead : head ≠ utf8 "sequence") : key = utf8 "order" := by
  cases h with
  | order => rfl
  | orderMatters h | deep h => exact absurd h hhead

theorem isForm_of_ofNode (h : ofNode n = .ok s) : ∃ head os, IsForm n head os := by
  obtain ⟨m, mark, head, os, rfl⟩ := exists_form_of_ofNode h
  obtain ⟨-, o, hsets, hmakes⟩ := ofNode_form_iff.1 h
  have hadmits := StrategyOptions.exists_setsAll_iff.1 ⟨o, hsets⟩
  refine ⟨head, os, ⟨m, mark, rfl⟩, ?_, hadmits, ?_⟩
  · cases hmakes <;> simp
  · rintro rfl
    obtain ⟨i?, hlast, horder⟩ := (StrategyOptions.changes_of_setsAll hsets).order
    cases hmakes with
    | ignored hnone =>
      -- an option could only be a place in the order, and there is none
      rw [hnone, Option.or_none] at horder
      subst horder
      have hnokey := hlast.isSome_iff
      refine List.eq_nil_iff_forall_not_mem.2 fun w hw => ?_
      have hkey := key_of_admits (hadmits w hw) (by decide)
      exact absurd (hnokey.2 ⟨w, hw, hkey⟩) (by simp)

theorem exists_ofNode_of_isForm (h : IsForm n head os) : ∃ s, ofNode n = .ok s := by
  obtain ⟨⟨m, mark, rfl⟩, hhead, hadmits, hignore⟩ := h
  obtain ⟨o, hsets⟩ :=
    (StrategyOptions.exists_setsAll_iff (o := ({} : StrategyOptions))).2 hadmits
  have hmakes : ∃ s, Makes o head s := by
    simp only [List.mem_cons, List.not_mem_nil, or_false] at hhead
    rcases hhead with rfl | rfl | rfl | rfl
    · exact ⟨_, .included⟩
    · exact ⟨_, .custom⟩
    · exact ⟨_, .sequence⟩
    · obtain rfl := hignore rfl
      cases hsets
      exact ⟨_, .ignored rfl⟩
  obtain ⟨s, hs⟩ := hmakes
  refine ⟨s, ofNode_form_iff.2 ⟨?_, o, hsets, hs⟩⟩
  cases hs <;> decide

theorem tells_of_ofNode (h : ofNode n = .ok s) (hform : IsForm n head os) : Tells head os s := by
  obtain ⟨⟨m, mark, rfl⟩, -, -, hignore⟩ := hform
  obtain ⟨-, o, hsets, hmakes⟩ := ofNode_form_iff.1 h
  obtain ⟨⟨i?, hi, horder⟩, ⟨b?, hb, hmatters⟩, ⟨d?, hd, hdeep⟩⟩ :=
    StrategyOptions.changes_of_setsAll hsets
  rw [Option.or_none] at horder
  have horder' : s.order? = i? := by
    cases hmakes with
    | included | custom | sequence => exact horder
    | ignored hnone => exact hnone.symm.trans horder
  refine ⟨by cases hmakes <;> rfl, ⟨i?, hi, by rw [Strategy.order, horder']⟩, ?_, ?_⟩
  · rw [horder']
    exact hi.isSome_iff
  · rintro rfl
    cases hmakes with
    | sequence => exact ⟨b?, d?, hb, hd, by rw [hmatters, hdeep]; rfl⟩

/-- Exactly the forms of the grammar are strategies. The last option with a key counts, a place in
the order is the number that is written, and what is no strategy is refused in words. -/
theorem ofNode_grammar (n : Node) :
    ((∃ s, ofNode n = .ok s) ↔ ∃ head os, IsForm n head os) ∧
    (∀ s head os, ofNode n = .ok s → IsForm n head os → Tells head os s) ∧
    ∀ fault, ofNode n = .error fault → fault.message ≠ [] := by
  refine ⟨⟨?_, ?_⟩, fun s head os => tells_of_ofNode, fun fault _ => fault.message_ne_nil⟩
  · rintro ⟨s, hs⟩
    exact isForm_of_ofNode hs
  · rintro ⟨head, os, hform⟩
    exact exists_ofNode_of_isForm hform

/-- The options of `(sequence :order 7 :deep false :order -2147483648)`. -/
def reordered : List WrittenOption :=
  [⟨.blank, utf8 "order", .int .blank 7⟩, ⟨.blank, utf8 "deep", .bool .blank false⟩,
    ⟨.blank, utf8 "order", .int .blank (-2147483648)⟩]

theorem ofNode_grammar_reordered :
    Tells (utf8 "sequence") reordered (.sequence (some (-2147483648)) true false) ∧
      ¬ (∃ head os, IsForm (.form .blank (.symbol .blank (utf8 "ignore")) reordered) head os) ∧
      StrategyFault.orderOutOfRange.message ≠ [] := by
  obtain ⟨-, htells, -⟩ :=
    ofNode_grammar (.form .blank (.symbol .blank (utf8 "sequence")) reordered)
  obtain ⟨hiff, -, -⟩ := ofNode_grammar (.form .blank (.symbol .blank (utf8 "ignore")) reordered)
  obtain ⟨-, -, hfault⟩ := ofNode_grammar (.form .blank (.symbol .blank (utf8 "include"))
    [⟨.blank, utf8 "order", .int .blank 2147483648⟩])
  refine ⟨htells _ _ _ rfl ⟨⟨_, _, rfl⟩, by decide, ?_, ?_⟩, ?_, hfault _ rfl⟩
  · intro o ho
    simp only [reordered, List.mem_cons, List.not_mem_nil, or_false] at ho
    rcases ho with rfl | rfl | rfl
    · exact .order (by decide) (by decide)
    · exact .deep rfl
    · exact .order (by decide) (by decide)
  · intro h
    exact absurd h (by decide)
  · rw [← hiff]
    rintro ⟨s, hs⟩
    cases hs

end Strategy

end Equate
