import GlyphSearch.Binary.Double

/-!
# Distances

Smaller is closer. Sums are formed in `Double`, in the order of the
components, so that large components do not overflow on the way; only the
result is rounded to a `Single`. Components that have no partner in the other
vector are left out.
-/

namespace GlyphSearch.Index

/-- How the distance of two vectors is measured. -/
inductive Metric where
  | cosine
  | euclidean
  | dotProduct
  deriving DecidableEq, Repr

/-- The name of a metric in files and answers. -/
def Metric.name : Metric → String
  | cosine => "cosine"
  | euclidean => "euclidean"
  | dotProduct => "dot_product"

def Metric.ofName? : String → Option Metric
  | "cosine" => some .cosine
  | "euclidean" => some .euclidean
  | "dot_product" => some .dotProduct
  | _ => none

/-- The components of two vectors side by side, widened. -/
def pairs (a b : List Single) : List (Double × Double) :=
  a.zipWith (fun x y => (x.toDouble, y.toDouble)) b

/-- A sum from the left. The empty sum is negative zero. -/
def sum (terms : List Double) : Double := terms.foldl (· + ·) Double.negativeZero

/-- The length of the difference. -/
def euclideanDistance (a b : List Single) : Single :=
  (sum ((pairs a b).map fun (x, y) => (x - y) * (x - y))).sqrt.toSingle

/-- The inner product with the opposite sign. -/
def dotProductDistance (a b : List Single) : Single :=
  (sum ((pairs a b).map fun (x, y) => x * y)).toSingle.neg

/-- One minus the cosine of the angle, or one if a vector has no length. -/
def cosineDistance (a b : List Single) : Single :=
  let ps := pairs a b
  let total := fun (term : Double × Double → Double) =>
    (ps.map term).foldl (· + ·) Double.zero
  let dot := total fun (x, y) => x * y
  let lengths := (total fun (x, _) => x * x).sqrt * (total fun (_, y) => y * y).sqrt
  if lengths.isZero then Double.one.toSingle
  else (Double.one - dot / lengths).toSingle

/-- The distance of two vectors under a metric. -/
def distance (metric : Metric) (a b : List Single) : Single :=
  match metric with
  | .cosine => cosineDistance a b
  | .euclidean => euclideanDistance a b
  | .dotProduct => dotProductDistance a b

end GlyphSearch.Index
