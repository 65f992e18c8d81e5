/-!
# Conversion errors

Why a declared type is refused or a value does not become a literal of it, and the sentence that
says so.
-/

namespace Foundry.Parameter

/-- What is wrong with a value. -/
inductive Reason where
  | notAScalar
  | notAnInteger
  | noLeadingInteger
  | notANumber
  | noLeadingNumber
  | notFinite
  | notABoolean
  | notATime
  deriving DecidableEq

/-- Why a type or a value is refused; values are held as short texts. -/
inductive ConversionError where
  | unknownType (name : String)
  | invalid (value target : String) (reason : Reason)
  | outOfRange (value target : String) (min max : Int)
  | notAVector (value target : String)
  deriving DecidableEq

def Reason.message : Reason → String
  | .notAScalar => "only scalar values can be rendered as a string"
  | .notAnInteger => "not an integer"
  | .noLeadingInteger => "no leading integer"
  | .notANumber => "not a number"
  | .noLeadingNumber => "no leading number"
  | .notFinite => "not a finite number"
  | .notABoolean => "expected one of true, false, 1, 0"
  | .notATime => "expected a number with an optional unit"

def ConversionError.message : ConversionError → String
  | .unknownType name => "unknown type `" ++ name ++ "'"
  | .invalid value target reason =>
    "cannot convert `" ++ value ++ "' to " ++ target ++ ": " ++ reason.message
  | .outOfRange value target min max =>
    "`" ++ value ++ "' is out of range for " ++ target ++
      " [" ++ toString min ++ ", " ++ toString max ++ "]"
  | .notAVector value target =>
    "`" ++ value ++ "' is not a vector (declared type `" ++ target ++ "')"

end Foundry.Parameter
