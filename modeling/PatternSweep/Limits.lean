/-!
# Limits of a match

The work of a match grows with the length of the text and with the number of edits, so both are
checked against limits before any of it begins.
-/

namespace PatternSweep

/-- The limits that a match has to keep. -/
structure Limits where
  /-- The greatest number of characters of a text. -/
  maxTextLength : Nat
  /-- The greatest number of edits that may be asked for. -/
  maxDistance : Nat
  deriving DecidableEq, Repr

/-- A limit that a match does not keep. -/
inductive MatchError
  | textTooLong (length limit : Nat)
  | distanceTooLarge (distance limit : Nat)
  deriving DecidableEq, Repr

namespace MatchError

/-- Why a distance is refused. -/
def distanceReason (distance limit : Nat) : String :=
  toString distance ++ " exceeds the configured limit of " ++ toString limit

/-- The wording of an error. -/
def message : MatchError → String
  | textTooLong length limit =>
    "Input too long: " ++ toString length ++ " characters exceeds limit of " ++ toString limit
  | distanceTooLarge distance limit =>
    "Invalid argument `max_distance`: " ++ distanceReason distance limit

end MatchError

namespace Limits

/-- The limits that hold unless others are set. -/
def standard : Limits := ⟨10000, 8⟩

/-- Refuses a text of more characters than the limit. -/
def checkLength (l : Limits) (length : Nat) : Except MatchError Unit :=
  if length ≤ l.maxTextLength then .ok () else .error (.textTooLong length l.maxTextLength)

/-- Refuses more edits than the limit. -/
def checkDistance (l : Limits) (distance : Nat) : Except MatchError Unit :=
  if distance ≤ l.maxDistance then .ok () else .error (.distanceTooLarge distance l.maxDistance)

end Limits
end PatternSweep
