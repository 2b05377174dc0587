import Shortlist.Number.Basic
import Shortlist.Number.Exponential
import Shortlist.Value.Basic

/-!
# Shares of a list of scores

The share of a score is the power of `e` to it, divided by the sum of these powers. The largest
score is subtracted first, so that every power is at most one and that of the largest score is one.
-/

namespace Shortlist.Softmax

/-- The first of the largest numbers of a list that starts with the given one. -/
def peak (first : Number) (rest : List Number) : Number :=
  rest.foldl (fun best n => if best.less n then n else best) first

def beyond {α : Type} (result : Except Number.ArithmeticFault α) : Except Fault α :=
  result.mapError fun _ => .beyondDouble

/-- The power of `e` to the difference of a score from the largest one. -/
def weight (peak score : Number) : Except Fault Binary64 := do
  return Binary64.exp (← beyond (← beyond (score.sub peak)).toDouble)

def normalize (weights : List Binary64) : List Binary64 :=
  weights.map (Binary64.div · (Binary64.sum weights))

def shares : List Number → Except Fault (List Binary64)
  | [] => .ok []
  | first :: rest => do
    return normalize (← (first :: rest).mapM (weight (peak first rest)))

/-- The shares of values, booleans counted as numbers. Any other value is a fault. -/
def sharesOfValues (values : List Value) : Except Fault (List Binary64) := do
  shares (← values.mapM fun v =>
    match v.asNumber? with
    | some n => .ok n
    | none => .error .notANumber)

end Shortlist.Softmax
