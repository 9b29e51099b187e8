/-!
# Plateaus

Rounds of measuring go on until they stop to help. The sequence of counts has reached a plateau when
enough entries have come after the first occurrence of its least one.
-/

namespace LittleJ.Measure.Plateau

/-- How far a sequence has come: its least entry, and how many entries came after the first one that
is so small. -/
structure State where
  best : Int
  since : Nat
deriving DecidableEq, Repr

/-- The state after one more entry. Only a smaller one starts the count again. -/
def State.step (s : State) (n : Int) : State :=
  if n < s.best then ⟨n, 0⟩ else ⟨s.best, s.since + 1⟩

/-- The state after a first entry and those behind it. -/
def reach (first : Int) (rest : List Int) : State :=
  rest.foldl State.step ⟨first, 0⟩

/-- How many entries without improvement are enough. -/
def patience : Nat :=
  3

/-- What to do after a round. -/
inductive Advice
  | goOn
  /-- Nothing is below the target. -/
  | done
  /-- The count has not improved for a number of rounds. -/
  | stalled (rounds : Nat) (best : Int)
deriving DecidableEq, Repr

/-- The advice for a count after the counts of earlier rounds. -/
def advise (history : List Int) (current : Int) : Advice :=
  if current = 0 then .done
  else
    let s := match history with
      | [] => reach current []
      | first :: rest => reach first (rest ++ [current])
    if patience ≤ s.since then .stalled s.since s.best else .goOn

end LittleJ.Measure.Plateau
