import SentenceGrammar.Preprocess.Calibration

/-!
# Operations

The steps of image processing that a script asks for. They are recorded, not carried out.
-/
namespace SentenceGrammar

/-- A recorded step. Sizes are in pixels. -/
inductive Operation where
  | gaussianBlur (deviation : Float)
  | medianFilter (radius : Int)
  | normalizeIntensities
  | subtractBackground (radius : Int)
  | unsharpMask (radius weight : Float)
  | localContrast (blockSize bins slope : Int) (mask : String)

namespace Operation

/-- The operation in words. -/
def render : Operation → String
  | gaussianBlur deviation => "gaussian blur (sigma = " ++ Decimal.plain deviation ++ " px)"
  | medianFilter radius => "median filter (radius = " ++ toString radius ++ " px)"
  | normalizeIntensities => "intensity normalization"
  | subtractBackground radius =>
    "background subtraction (radius = " ++ toString radius ++ " px)"
  | unsharpMask radius weight =>
    "unsharp mask (radius = " ++ Decimal.plain radius ++ " px, weight = " ++
      Decimal.plain weight ++ ")"
  | localContrast blockSize bins slope mask =>
    "CLAHE (block size = " ++ toString blockSize ++ ", bins = " ++ toString bins ++
      ", slope = " ++ toString slope ++ ", mask = " ++ mask ++ ")"

/-- The operation as a record. -/
def describe : Operation → String
  | gaussianBlur deviation => "GaussianBlur \x7b stddev: " ++ Decimal.pointed deviation ++ " \x7d"
  | medianFilter radius => "MedianFilter \x7b radius: " ++ toString radius ++ " \x7d"
  | normalizeIntensities => "NormalizeIntensities"
  | subtractBackground radius => "SubtractBackground \x7b radius: " ++ toString radius ++ " \x7d"
  | unsharpMask radius weight =>
    "UnsharpMask \x7b radius: " ++ Decimal.pointed radius ++ ", weight: " ++
      Decimal.pointed weight ++ " \x7d"
  | localContrast blockSize bins slope mask =>
    "Clahe \x7b block_size: " ++ toString blockSize ++ ", bins: " ++ toString bins ++
      ", slope: " ++ toString slope ++ ", mask: " ++ Text.quote mask ++ " \x7d"

end Operation

/-- An image with its calibration and the operations recorded for it. -/
structure ImageSession where
  calibration : Calibration := {}
  operations : List Operation := []
  deriving Inhabited

namespace ImageSession

def record (session : ImageSession) (operation : Operation) : ImageSession :=
  { session with operations := session.operations ++ [operation] }

def describe (session : ImageSession) : String :=
  "ImageSession \x7b calibration: " ++ session.calibration.describe ++
    ", operations: [" ++ ", ".intercalate (session.operations.map Operation.describe) ++ "] \x7d"

end ImageSession
end SentenceGrammar
