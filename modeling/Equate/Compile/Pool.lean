import Equate.Compile.Form
/-!
# Compiling on several workers

Workers share a counter that hands out the forms, the cache, and a place for the output of each
form. A worker moves in atomic steps, and a schedule tells which worker moves next. Whatever the
schedule, a form is handed out once.
-/

namespace Equate

/-- What a worker does next. -/
inductive WorkerState where
  /-- Take the next form. -/
  | idle
  /-- Search the cache for the output of the form at `index`. -/
  | taken (index : Nat)
  /-- Compile the form. -/
  | missed (index : Nat)
  /-- Store the output in the cache. -/
  | compiled (index : Nat) (out : Output)
  /-- Put the output in its place. -/
  | ready (index : Nat) (out : Output)
  /-- Nothing: no form was left. -/
  | stopped
  deriving DecidableEq, Repr

structure Pool where
  next : Nat := 0
  workers : List WorkerState
  cache : Cache Output
  outputs : List (Option Output)
  events : List CompileEvent := []
  /-- Which worker took which form, in the order of taking. -/
  takings : List (Nat × Nat) := []

namespace Pool

/-- Idle workers in front of forms of which none has been handed out. -/
def start (workers : Nat) (cache : Cache Output) (forms : List Node) : Pool :=
  { workers := List.replicate workers .idle, cache, outputs := forms.map fun _ => none }

/-- Sets the state of a worker. -/
def setWorker (p : Pool) (w : Nat) (s : WorkerState) : Pool :=
  { p with workers := p.workers.set w s }

/-- One atomic step of worker `w`. -/
def step (o : Options) (forms : List Node) (p : Pool) (w : Nat) : Pool :=
  match p.workers[w]? with
  | none | some .stopped => p
  | some .idle =>
    if p.next < forms.length then
      { p.setWorker w (.taken p.next) with
        next := p.next + 1, takings := p.takings ++ [(w, p.next)] }
    else { p.setWorker w .stopped with next := p.next + 1 }
  | some (.taken i) =>
    match forms[i]? with
    | none => p.setWorker w .stopped
    | some form =>
      match findOutput o p.cache form with
      | (some out, cache) =>
        { p.setWorker w (.ready i out) with cache, events := p.events ++ [.cacheHit out.name] }
      | (none, cache) => { p.setWorker w (.missed i) with cache }
  | some (.missed i) =>
    match forms[i]? with
    | none => p.setWorker w .stopped
    | some form =>
      let out := Output.ofForm o.fixHints form
      { p.setWorker w (.compiled i out) with events := p.events ++ [.ofOutput out] }
  | some (.compiled i out) =>
    match forms[i]? with
    | none => p.setWorker w .stopped
    | some form => { p.setWorker w (.ready i out) with cache := storeOutput o p.cache form out }
  | some (.ready i out) =>
    { p.setWorker w .idle with outputs := p.outputs.set i (some out) }

/-- Runs workers in the order of a schedule. -/
def run (o : Options) (forms : List Node) (p : Pool) (schedule : List Nat) : Pool :=
  schedule.foldl (step o forms) p

def isFinished (p : Pool) : Bool := p.workers.all (· == .stopped)

/-- Lets each worker make a step in turn, for so many rounds or until all have stopped. -/
def runRounds (o : Options) (forms : List Node) : Nat → Pool → Pool
  | 0, p => p
  | rounds + 1, p =>
    if p.isFinished then p
    else runRounds o forms rounds (p.run o forms (List.range p.workers.length))

end Pool

/-- Compiles forms on several workers that take turns. A worker needs at most five steps for a
form and one to stop. -/
def compileInPool (o : Options) (workers : Nat) (cache : Cache Output) (forms : List Node) :
    List Output × Cache Output × List CompileEvent :=
  let p := Pool.runRounds o forms (5 * forms.length + 1) (.start workers cache forms)
  (p.outputs.filterMap id, p.cache, p.events)

end Equate
