/-!
# Probability distributions

The distributions that a time to compromise may name, with the number and the range of their
parameters.
-/

namespace MetaAttack

/-- What the parameters of a distribution have to satisfy. -/
inductive Range
  | probability
  | trials
  | lambda
  | shapeAndScale
  | deviation
  | minAndShape
  | ordered
deriving DecidableEq, Repr

namespace Range

def requirement : Range → String
  | probability => "0 <= probability <= 1"
  | trials => "trials to be a non-negative integer and 0 <= probability <= 1"
  | lambda => "lambda > 0"
  | shapeAndScale => "shape > 0 and scale > 0"
  | deviation => "standardDeviation > 0"
  | minAndShape => "min > 0 and shape > 0"
  | ordered => "min <= max"

/-- Whether a number has no fraction. An infinite one has none that could be taken away. -/
def isWhole (x : Float) : Bool := x - x.floor == 0.0

def isProbability (x : Float) : Bool := 0.0 ≤ x && x ≤ 1.0

/-- Whether the parameters satisfy the requirement; parameters of another number do not. -/
def holds : Range → List Float → Bool
  | probability, [p] => isProbability p
  | trials, [n, p] => 0.0 ≤ n && isWhole n && isProbability p
  | lambda, [l] => 0.0 < l
  | shapeAndScale, [a, b] | minAndShape, [a, b] => 0.0 < a && 0.0 < b
  | deviation, [_, d] => 0.0 < d
  | ordered, [a, b] => a ≤ b
  | _, _ => false

end Range

/-- A distribution with the names of its parameters. -/
structure Distribution where
  name : String
  params : List String
  range : Option Range
deriving DecidableEq, Repr

namespace Distribution

/-- A distribution without parameters. -/
def constant (name : String) : Distribution := ⟨name, [], none⟩

/-- All distributions. -/
def all : List Distribution :=
  [⟨"Bernoulli", ["probability"], some .probability⟩,
    ⟨"Binomial", ["trials", "probability"], some .trials⟩,
    ⟨"Exponential", ["lambda"], some .lambda⟩,
    ⟨"Gamma", ["shape", "scale"], some .shapeAndScale⟩,
    ⟨"LogNormal", ["mean", "standardDeviation"], some .deviation⟩,
    ⟨"Pareto", ["min", "shape"], some .minAndShape⟩,
    ⟨"TruncatedNormal", ["mean", "standardDeviation"], some .deviation⟩,
    ⟨"Uniform", ["min", "max"], some .ordered⟩,
    constant "EasyAndCertain", constant "EasyAndUncertain", constant "HardAndCertain",
    constant "HardAndUncertain", constant "VeryHardAndCertain", constant "VeryHardAndUncertain",
    constant "Enabled", constant "Disabled", constant "Infinity", constant "Zero"]

def find? (name : String) : Option Distribution := all.find? fun d => d.name = name

/-- Whether the distribution gives a value and not a time. -/
def isValueOnly (d : Distribution) : Bool := d.name = "Bernoulli" || d.name = "EasyAndUncertain"

/-- Whether a name is that of a distribution that turns a step on or off. -/
def logicalName (name : String) : Bool := name = "Enabled" || name = "Disabled"

def isLogical (d : Distribution) : Bool := logicalName d.name

/-- The distribution in one line: its name and its parameters. -/
def text (d : Distribution) : String :=
  "Distribution \x7b name: \"" ++ d.name ++ "\", params: [" ++
    ", ".intercalate (d.params.map fun p => "\"" ++ p ++ "\"") ++ "], .. \x7d"

end Distribution

end MetaAttack
