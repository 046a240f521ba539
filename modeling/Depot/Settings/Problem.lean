/-!
Why a value of a settings document was refused, and where it stood.
-/
namespace Depot.Settings

inductive Refusal
  | integerText
  | integerFraction
  | integerSize
  | integerInfinite
  | integerType
  | floatText
  | floatType
  | boolText
  | boolType
  | textType
  /-- A text with codes that are no characters. -/
  | textCodes
  | mapType
  | notGreater
  | notAtLeast
  deriving DecidableEq, Repr

def Refusal.code : Refusal → String
  | .integerText => "int_parsing"
  | .integerFraction => "int_from_float"
  | .integerSize => "int_parsing_size"
  | .integerInfinite => "finite_number"
  | .integerType => "int_type"
  | .floatText => "float_parsing"
  | .floatType => "float_type"
  | .boolText => "bool_parsing"
  | .boolType => "bool_type"
  | .textType => "string_type"
  | .textCodes => "string_unicode"
  | .mapType => "dict_type"
  | .notGreater => "greater_than"
  | .notAtLeast => "greater_than_equal"

inductive Step
  | name (s : String)
  | number (n : Int)
  deriving DecidableEq, Repr

structure Problem where
  place : List Step
  refusal : Refusal
  deriving DecidableEq, Repr

end Depot.Settings
