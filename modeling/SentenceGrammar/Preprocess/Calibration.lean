import SentenceGrammar.Decimal.Notation
import SentenceGrammar.Text.Quoted

/-!
# Calibrations

The physical size of one pixel. An image without a physical unit is measured in pixels.
-/
namespace SentenceGrammar

structure Calibration where
  /-- The unit as it is typed in scripts. -/
  unit : String := "pixel"
  /-- The width of one pixel in that unit. -/
  pixelWidth : Float := 1.0

namespace Calibration

instance : Inhabited Calibration := ⟨{}⟩

/-- Whether sizes may be given in the unit. -/
def isCalibrated (calibration : Calibration) : Bool :=
  calibration.unit != "" && calibration.unit != "pixel"

/-- A size in pixels; a physical one is divided by the pixel width. -/
def toPixels (calibration : Calibration) (size : Float) (physical : Bool) : Float :=
  if physical then size / calibration.pixelWidth else size

def describe (calibration : Calibration) : String :=
  "Calibration \x7b unit: " ++ Text.quote calibration.unit ++
    ", pixel_width: " ++ Decimal.pointed calibration.pixelWidth ++ " \x7d"

end Calibration
end SentenceGrammar
