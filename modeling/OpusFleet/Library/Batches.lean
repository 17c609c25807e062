import Mathlib.Logic.Function.Basic

namespace OpusFleet.Library.Batches

variable {κ α : Type*} [DecidableEq κ]

@[ext] structure Buffers (κ α : Type*) where
  held : κ → List α
  closed : List (κ × List α)

inductive Act (κ α : Type*)
  | add (k : κ) (a : α)
  | close (k : κ)

def act (b : Buffers κ α) : Act κ α → Buffers κ α
  | .add k a => { b with held := Function.update b.held k (b.held k ++ [a]) }
  | .close k => ⟨Function.update b.held k [], b.closed ++ [(k, b.held k)]⟩

def run (b : Buffers κ α) (acts : List (Act κ α)) : Buffers κ α := acts.foldl act b

def out (k : κ) (closed : List (κ × List α)) : List α :=
  closed.flatMap fun c ↦ if c.1 = k then c.2 else []

def added (k : κ) (acts : List (Act κ α)) : List α :=
  acts.flatMap fun
    | .add k' a => if k' = k then [a] else []
    | .close _ => []

theorem run_append (b : Buffers κ α) (acts acts' : List (Act κ α)) :
    run b (acts ++ acts') = run (run b acts) acts' := List.foldl_append

theorem added_append (k : κ) (acts acts' : List (Act κ α)) :
    added k (acts ++ acts') = added k acts ++ added k acts' := List.flatMap_append

theorem act_conserves (b : Buffers κ α) (x : Act κ α) (k : κ) :
    out k (act b x).closed ++ (act b x).held k = out k b.closed ++ b.held k ++ added k [x] := by
  cases x with
  | add k' a =>
    by_cases h : k' = k
    · subst h
      simp [act, added]
    · simp [act, added, h, Function.update_of_ne (Ne.symm h)]
  | close k' =>
    by_cases h : k' = k
    · subst h
      simp [act, added, out]
    · simp [act, added, out, h, Function.update_of_ne (Ne.symm h)]

theorem run_conserves (b : Buffers κ α) (acts : List (Act κ α)) (k : κ) :
    out k (run b acts).closed ++ (run b acts).held k =
      out k b.closed ++ b.held k ++ added k acts := by
  induction acts generalizing b with
  | nil => simp [run, added]
  | cons x acts ih =>
    have hrun : run b (x :: acts) = run (act b x) acts := rfl
    rw [hrun, ih, act_conserves, List.append_assoc, ← added_append, List.singleton_append]

end OpusFleet.Library.Batches
