namespace SymbolicAlgebra

/-- Why an operation of the algebra is refused. Texts of expressions are in input form. -/
inductive Error where
  | zeroToNonPositivePower
  | zeroDenominator
  | nonIntegerRatio
  | notASymbol (text : String)
  | exponentTooLarge (exponent : Int)
  | invalidInteger (literal : String)
  | derivativeVariableSubstitution (text : String)
  | emptySlot
  | unboundName (name : String)
  | noOperand (index : Nat)
deriving DecidableEq, Repr

def Error.message : Error → String
  | zeroToNonPositivePower => "zero cannot be raised to a non-positive power"
  | zeroDenominator => "rational with a zero denominator"
  | nonIntegerRatio => "a rational can only be built from two integers"
  | notASymbol text => "can only differentiate with respect to a symbol, got `" ++ text ++ "`"
  | exponentTooLarge exponent =>
    "exponent `" ++ toString exponent ++ "` is too large to evaluate exactly"
  | invalidInteger literal => "`" ++ literal ++ "` is not a base-10 integer"
  | derivativeVariableSubstitution text =>
    "cannot substitute the non-symbol `" ++ text ++ "` for a differentiation variable"
  | emptySlot => "handle holds no expression"
  | unboundName _ => "unbound name"
  | noOperand index => "no operand at position " ++ toString index

end SymbolicAlgebra
