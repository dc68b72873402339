/-!
# Angles

Directions are counted in 256ths of a turn: 0 points up and 64 points right.
-/

namespace SceneFormula.Angle

def pi : Float := 3.14159265358979323846

/-- The direction of the vector with vertical part `y` and horizontal part `x`, to the nearest
256th of a turn; a half is rounded away from zero. -/
def ofVector (y x : Int64) : Int64 :=
  let turns := Float.atan2 y.toFloat x.toFloat * 128.0 / pi + 64.0
  Int64.ofInt (turns.round.toInt64.toInt % 256)

end SceneFormula.Angle
