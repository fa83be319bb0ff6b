import Equate.Proofs.Compile.Results
/-!
# What actions come to

What an action can make of a compiler (`Compiler.Becomes`) depends on the schedule of its workers,
and so does what a compiler can come to by several actions (`Compiler.Reaches`). A session is one of
the ways for them to go: `Compiler.reaches_run`.
-/

namespace Equate

namespace Compiler

/-- What an action can make of a compiler. On several workers every schedule that stops them all
leaves a cache behind. -/
inductive Becomes (c : Compiler) : CompilerAction → Compiler → Prop where
  | unread {text : Bytes} {e : ReadError} (hread : Node.read text = .error e) :
    Becomes c (.compile text) c
  | serial {text : Bytes} {m : Node} (hread : Node.read text = .ok m)
    (hworkers : workers c.options (c.formsOf m).length ≤ 1) :
    Becomes c (.compile text)
      { c with cache := (compileSerially c.options c.cache (c.formsOf m)).2.1 }
  | pooled {text : Bytes} {m : Node} (hread : Node.read text = .ok m)
    (hworkers : 1 < workers c.options (c.formsOf m).length) (schedule : List Nat)
    (hfinished : (c.poolAfter m schedule).isFinished = true) :
    Becomes c (.compile text) { c with cache := (c.poolAfter m schedule).cache }
  | clear : Becomes c .clear c.clear

/-- What a compiler can come to by actions, one after the other. -/
inductive Reaches (start : Compiler) : List CompilerAction → Compiler → Prop where
  | nil : Reaches start [] start
  | concat {actions : List CompilerAction} {action : CompilerAction} {c c' : Compiler}
    (h : Reaches start actions c) (hstep : c.Becomes action c') :
    Reaches start (actions ++ [action]) c'

variable {start c c' : Compiler} {action : CompilerAction} {actions : List CompilerAction}

/-- Taking turns is one of the schedules. -/
theorem becomes_step (c : Compiler) (action : CompilerAction) :
    c.Becomes action (c.step action).2 := by
  cases action with
  | clear => exact .clear
  | compile text =>
    show c.Becomes (.compile text) (c.compileText text).2.1
    unfold compileText
    cases hread : Node.read text with
    | error e => exact .unread hread
    | ok m =>
      show c.Becomes _ { c with cache := (c.compileForms (c.formsOf m)).2.1 }
      unfold compileForms
      by_cases hworkers : workers c.options (c.formsOf m).length ≤ 1
      · rw [if_pos hworkers]
        exact .serial hread hworkers
      · obtain ⟨schedule, hfinished, heq⟩ := Pool.compileInPool_eq c.options
          (workers c.options (c.formsOf m).length) c.cache (c.formsOf m)
        rw [if_neg hworkers, heq]
        exact .pooled hread (Nat.lt_of_not_le hworkers) schedule hfinished

/-- A session is one of the ways for actions to go. -/
theorem reaches_run (start : Compiler) (actions : List CompilerAction) :
    Reaches start actions (start.run actions).2 := by
  -- a session goes on at the front of its actions, so those before it are carried along
  have hafter (before : List CompilerAction) (c : Compiler) (h : Reaches start before c) :
      Reaches start (before ++ actions) (c.run actions).2 := by
    induction actions generalizing before c with
    | nil =>
      rw [List.append_nil]
      exact h
    | cons action actions ih =>
      rw [← List.singleton_append, ← List.append_assoc]
      exact ih _ _ (h.concat (c.becomes_step action))
  exact hafter [] start .nil

theorem Becomes.options (h : c.Becomes action c') : c'.options = c.options := by
  cases h <;> rfl

theorem Reaches.options (h : Reaches start actions c) : c.options = start.options := by
  induction h with
  | nil => rfl
  | concat _ hstep ih => rw [hstep.options, ih]

end Compiler

end Equate
