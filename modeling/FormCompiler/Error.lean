import FormCompiler.Shape

/-!
# Errors

The reasons for which an operation is refused, and the wording of those that have one. A reason without wording
comes from the shape of the data alone: an entry that is not there, an operand of a wrong form.
-/

namespace FormCompiler

/-- Why an operation is refused. -/
inductive Error where
  /-- A requirement that an operation states does not hold. -/
  | requirement (text : String)
  /-- An index is given a second extent. -/
  | inconsistentExtents
  | divisionByZero
  /-- Zero to the power of zero. -/
  | zeroToZero
  /-- A comparison of no known kind. -/
  | invalidComparison
  /-- A runtime slot where a view is addressed. -/
  | slotOfView
  /-- A view addresses a position behind the end of a dimension. -/
  | beyondDimension (offset : Int) (terms : String) (extent : Int)
  | moreIndicesThanRank
  /-- The expression is no view of a variable. -/
  | noView (kind : String)
  | shapeNotExtent (shape : String) (extent : Int)
  | unknownExtent
  | sliceBeyondExtent
  /-- A selection among expressions of a kind that cannot be taken apart. -/
  | cannotFactorKind (kind : String)
  | cannotFactorMixed
  | tooManyOperands
  | tooManySumIndices
  /-- A classification that is none of the three labels. -/
  | illegalLabel
  /-- A compound term that no expansion breaks up. -/
  | factorisation
  /-- A program without operations. -/
  | nothingToDo
  /-- A variable without a value. -/
  | unbound (symbol : String)
  | boundShape (symbol given wanted : String)
  /-- An expression of a kind for which no code can be made. -/
  | noCode (kind : String)
  /-- The complaint of a failure node. -/
  | raised (kind text : String)
  /-- A value of a form that the operation cannot take. -/
  | malformed
  /-- An operand of a kind that the operation cannot take. -/
  | unsupported
  /-- A key without an entry. -/
  | missing
  /-- A position outside a table. -/
  | outOfRange
  /-- A property that the object does not have. -/
  | absent
  /-- A number too large to be written. -/
  | overflow
  /-- A logarithm to the base one. -/
  | zeroDivision
  /-- A node that has no value of its own. -/
  | noValue
  /-- A dynamically scoped value outside all blocks. -/
  | unset
  /-- A number of digits that is no number of digits. -/
  | badPrecision
  /-- A recursion without end. -/
  | endless
  /-- A refusal of one kind of element or form, with its wording. -/
  | invalid (text : String)
  /-- A case that is not provided for, with its wording. -/
  | notProvided (text : String)
  /-- A case that is not provided for. -/
  | unprovided
  /-- A space without functions. -/
  | noFunctions
  /-- A space that is not defined. -/
  | noSuchSpace
  deriving Repr, BEq

namespace Error

/-- The wording of an error, none if it has none. -/
def message : Error → Option String
  | .requirement text => some text
  | .inconsistentExtents => some "Inconsistent index extents!"
  | .divisionByZero => some "division by zero"
  | .zeroToZero => some "cannot solve 0^0"
  | .invalidComparison => some "invalid operator"
  | .slotOfView => some "Unexpected index type for flexible indexing"
  | .beyondDimension offset terms extent =>
    some s!"Offset {offset} and indices {terms} exceed dimension {extent}"
  | .moreIndicesThanRank => some "More indices than rank!"
  | .noView kind => some s!"Cannot handle {kind} objects."
  | .shapeNotExtent shape extent => some s!"Shape {shape} does not match extent {extent}."
  | .unknownExtent => some "Unknown extent!"
  | .sliceBeyondExtent => some "Slice exceeds dimension extent!"
  | .cannotFactorKind kind => some s!"How to factorise {kind} expressions?"
  | .cannotFactorMixed => some "No rule for factorising expressions of this kind."
  | .tooManyOperands => some "Not expected such a complicated expression!"
  | .tooManySumIndices => some "Too many indices for sum factorisation!"
  | .illegalLabel => some "Classifier returned illegal value."
  | .nothingToDo => some ""
  | .unbound v => some s!"Binding for {v} not found"
  | .noValue => some "Unhandled node type <class 'gem.gem.FlexiblyIndexed'>"
  | .unset => some "Dynamically scoped variable not set."
  | .boundShape v given wanted => some s!"Binding for {v} has wrong shape.  {given}, not {wanted}."
  | .noCode kind => some s!"cannot generate COFFEE from <class 'gem.gem.{kind}'>"
  | .raised _ text => some text
  | .invalid text => some text
  | .notProvided text => some text
  | .factorisation | .malformed | .unsupported | .missing | .outOfRange | .absent | .overflow | .endless
  | .zeroDivision | .badPrecision
  | .unprovided | .noFunctions | .noSuchSpace => none

end Error

end FormCompiler
