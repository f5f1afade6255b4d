import Lowering.Proofs.Histories

/-! Observation changes nothing. An observer that never objects sees a part of what happens in a run:
all steps or one in so many, and the calls with their returns. A run that returns has left
every call, so that calls and returns pair up like brackets, except for the calls that an
exception left. -/

namespace Lowering.Proofs
open Machine Host

/-- A call begins, returns, or is left by an exception. -/
inductive Bracket
  | called (name : String)
  | returned (name : String)
  | left (name : String)
deriving DecidableEq

/-- That a call is left is not reported. -/
def Bracket.told : Bracket → Bool
  | .called _ | .returned _ => true
  | .left _ => false

/-- Each call is followed by its return, and what happens in between pairs up in the same way. -/
inductive Nested : List Bracket → Prop
  | nil : Nested []
  | call {inner rest : List Bracket} (name : String) (inside : Nested inner) (after : Nested rest) :
      Nested (.called name :: inner ++ .returned name :: rest)

/-- Each call returns or is left, and what happens in between is closed in the same way. The second
list is what remains of the first when the calls that were left are taken away, with all that says
so. -/
inductive Paired : List Bracket → List Bracket → Prop
  | nil : Paired [] []
  | returned {inner kept rest matched : List Bracket} (name : String) (inside : Paired inner kept)
      (after : Paired rest matched) :
      Paired (.called name :: inner ++ .returned name :: rest)
        (.called name :: kept ++ .returned name :: matched)
  | left {inner kept rest matched : List Bracket} (name : String) (inside : Paired inner kept)
      (after : Paired rest matched) :
      Paired (.called name :: inner ++ .left name :: rest) (kept ++ matched)

theorem Nested.append {first second : List Bracket} (left : Nested first) (right : Nested second) :
    Nested (first ++ second) := by
  induction left with
  | nil => exact right
  | call name inside _ _ after =>
    have joined := Nested.call name inside after
    simpa using joined

theorem Paired.nested {brackets matched : List Bracket} (paired : Paired brackets matched) :
    Nested matched := by
  induction paired with
  | nil => exact .nil
  | returned name _ _ inside after => exact .call name inside after
  | left _ _ _ inside after => exact inside.append after

theorem Paired.append {first second kept matched : List Bracket} (left : Paired first kept)
    (right : Paired second matched) : Paired (first ++ second) (kept ++ matched) := by
  induction left with
  | nil => exact right
  | returned name inside _ _ after => simpa using Paired.returned name inside after
  | left name inside _ _ after => simpa using Paired.left name inside after

/-- The calls of the given names, the innermost first, are closed one after the other. -/
inductive Unwound : List String → List Bracket → List Bracket → Prop
  | nil : Unwound [] [] []
  | returned {name : String} {names : List String} {inner kept rest matched : List Bracket}
      (inside : Paired inner kept) (after : Unwound names rest matched) :
      Unwound (name :: names) (inner ++ .returned name :: rest) (kept ++ .returned name :: matched)
  | left {name : String} {names : List String} {inner kept rest matched : List Bracket}
      (inside : Paired inner kept) (after : Unwound names rest matched) :
      Unwound (name :: names) (inner ++ .left name :: rest) (kept ++ matched)

theorem Unwound.within {name : String} {names : List String}
    {first kept brackets matched : List Bracket} (paired : Paired first kept)
    (unwound : Unwound (name :: names) brackets matched) :
    Unwound (name :: names) (first ++ brackets) (kept ++ matched) := by
  cases unwound with
  | returned inside after => simpa using Unwound.returned (paired.append inside) after
  | left inside after => simpa using Unwound.left (paired.append inside) after

/-- A call within another one. -/
theorem Unwound.call {name caller : String} {names : List String} {brackets matched : List Bracket}
    (unwound : Unwound (name :: caller :: names) brackets matched) :
    ∃ matched, Unwound (caller :: names) (.called name :: brackets) matched := by
  cases unwound with
  | returned inside after => exact ⟨_, by simpa using after.within (.returned name inside .nil)⟩
  | left inside after => exact ⟨_, by simpa using after.within (.left name inside .nil)⟩

theorem Unwound.paired {name : String} {brackets matched : List Bracket}
    (unwound : Unwound [name] brackets matched) :
    ∃ matched, Paired (.called name :: brackets) matched := by
  cases unwound with
  | returned inside after =>
    cases after
    exact ⟨_, .returned name inside .nil⟩
  | left inside after =>
    cases after
    exact ⟨_, .left name inside .nil⟩

def Happening.bracket? : Happening → Option Bracket
  | .stepped .. => none
  | .called name _ _ => some (.called name)
  | .returned name _ => some (.returned name)
  | .left name => some (.left name)

/-- The calls in a history. -/
def brackets (happened : List Happening) : List Bracket := happened.filterMap Happening.bracket?

theorem brackets_append (first second : List Happening) :
    brackets (first ++ second) = brackets first ++ brackets second :=
  List.filterMap_append

/-- The names of the calls that are under way, the innermost first. -/
def Config.names (c : Config) : List String :=
  c.frame.routine.name :: c.waiting.map (·.routine.name)

/-- A step with its number. -/
def Happening.step? : Happening → Option (Machine.Event × Nat)
  | .stepped number index operation origin stackDepth frameDepth =>
    some (.step index operation origin stackDepth frameDepth, number)
  | _ => none

def Event.isStep : Machine.Event → Bool
  | .step .. => true
  | _ => false

/-- The call that an observer which asked for calls and returns is told of. -/
def Event.bracket? : Machine.Event → Option Bracket
  | .step .. => none
  | .call name _ _ => some (.called name)
  | .ret name _ => some (.returned name)

/-- The steps in a history, with their numbers. -/
def numberedSteps (happened : List Happening) : List (Machine.Event × Nat) := happened.filterMap Happening.step?

/-- What an observer is told of a history. The calls and returns are those that happened, and the
steps are those that it asked for. -/
structure Told (o : Observer) (happened : List Happening) (told : List Machine.Event) : Prop where
  all : o.mode = .all → told.filter Event.isStep = (numberedSteps happened).map (·.1)
  sampled : o.mode = .sampled →
    told.filter Event.isStep = ((numberedSteps happened).filter (·.2 % o.period = 0)).map (·.1)
  calls : o.calls = true → o.returns = true →
    told.filterMap Event.bracket? = (brackets happened).filter (·.told)

theorem Told.append {o : Observer} {first second : List Happening} {before after : List Machine.Event}
    (left : Told o first before) (right : Told o second after) :
    Told o (first ++ second) (before ++ after) where
  all mode := by simp [numberedSteps, left.all mode, right.all mode]
  sampled mode := by simp [numberedSteps, left.sampled mode, right.sampled mode]
  calls calls returns := by
    simp [brackets_append, left.calls calls returns, right.calls calls returns]

theorem numbered_append (first second : List Happening) :
    numberedSteps (first ++ second) = numberedSteps first ++ numberedSteps second :=
  List.filterMap_append

theorem numbered_callingValue (custom : Nat → BuiltinFunction) (h : Heap) (callee : Value)
    (args : List Value) (depth : Nat) :
    numberedSteps (callingValue custom h callee args depth) = [] := by
  unfold callingValue
  split
  · dsimp only
    split <;> rfl
  · split <;> rfl
  · rfl

theorem numbered_executing (setup : Setup) (st : State) (f : Frame) (o : Operation) :
    numberedSteps (executing setup st f o) = [] := by
  have nothing : numberedSteps [] = [] := rfl
  unfold executing performing invoking
  grind [numbered_callingValue]

theorem numbered_leaving (exception : Nat) (f : Frame) (callers : List Frame) :
    numberedSteps (leaving exception f callers) = [] := by
  induction callers generalizing f with
  | nil =>
    unfold leaving
    split <;> rfl
  | cons caller callers ih =>
    unfold leaving
    split
    · exact ih caller
    · rfl

theorem numbered_settling (callers : List Frame) (effect : Effect) :
    numberedSteps (settling callers effect) = [] := by
  unfold settling
  split
  · exact numbered_leaving ..
  · split <;> rfl
  · rfl

theorem numbered_happens {setup : Setup} {c : Config} {o : Operation} {st : State} {f : Frame}
    (issued : c.issued? setup = some (o, st, f)) :
    numberedSteps (c.happens setup) = numberedSteps [stepping st f o] :=
  calc numberedSteps (c.happens setup)
      = numberedSteps ([stepping st f o] ++ (executing setup st f o ++
          settling c.waiting (execute setup st f o).2)) := by
        rw [Config.happens, issued]
        rfl
    _ = numberedSteps [stepping st f o] := by
        rw [numbered_append, numbered_append, numbered_executing, numbered_settling]
        rfl

/-- The same machine with an observer. -/
def observedBy (setup : Setup) (o : Observer) : Setup := { setup with observer := some o }

end Lowering.Proofs
