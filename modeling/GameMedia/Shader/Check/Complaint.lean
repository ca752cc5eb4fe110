import GameMedia.Shader.Code
import GameMedia.Shader.Surface

/-!
# Complaints

Everything that can be wrong with a source file that parses, and how it is said.
-/

namespace GameMedia.Shader.Check

open Surface (BinaryOp UnaryOp)

/-- A part of the surface language that shaders do not have. -/
inductive Feature where
  | complexNumbers
  | runeLiterals
  | stringLiterals
  | sliceExprs
  | typeAssertions
  | variadicArguments
  | functionLiterals
  | pointers
  | channels
  | bitNot
  | andNot
  | textureVariables
  | structTypes
  | nestedArrays
  | sliceTypes
  | mapTypes
  | channelTypes
  | interfaceTypes
  | functionTypes
  | pointerTypes
  | keyedElements
  | rangeStmts
  | labels
  | goto
  | fallthrough
  | goStmts
  | deferStmts
  | channelSends
  | switchStmts
  | selectStmts
  | methods
  | initFunction
  deriving DecidableEq, Repr

def Feature.message : Feature → String
  | complexNumbers => "complex numbers are not supported"
  | runeLiterals => "rune literals are not supported"
  | stringLiterals => "string literals are not supported"
  | sliceExprs => "slice expressions are not supported"
  | typeAssertions => "type assertions are not supported"
  | variadicArguments => "variadic arguments are not supported"
  | functionLiterals => "function literals are not supported"
  | pointers => "pointers are not supported"
  | channels => "channels are not supported"
  | bitNot => "operator ^ is not implemented"
  | andNot => "operator &^ is not implemented"
  | textureVariables => "texture-typed variables are not supported"
  | structTypes => "struct is not implemented"
  | nestedArrays => "array of array is not implemented"
  | sliceTypes => "slice types are not supported"
  | mapTypes => "map types are not supported"
  | channelTypes => "channel types are not supported"
  | interfaceTypes => "interface types are not supported"
  | functionTypes => "function types are not supported"
  | pointerTypes => "pointer types are not supported"
  | keyedElements => "keyed elements are not supported in composite literals"
  | rangeStmts => "range statements are not supported"
  | labels => "labels are not supported"
  | goto => "goto is not supported"
  | fallthrough => "fallthrough is not supported"
  | goStmts => "go statements are not supported"
  | deferStmts => "defer statements are not supported"
  | channelSends => "channel sends are not supported"
  | switchStmts => "switch statements are not implemented"
  | selectStmts => "select statements are not supported"
  | methods => "methods are not implemented"
  | initFunction => "init function is not implemented"

/-- What a value is used for. -/
inductive Place where
  | assignment
  | argument
  | arrayLiteral
  | expression
  | index
  | returnStmt
  | varDecl
  deriving DecidableEq, Repr

def Place.text : Place → String
  | assignment => "assignment"
  | argument => "argument"
  | arrayLiteral => "array literal"
  | expression => "expression"
  | index => "index"
  | returnStmt => "return statement"
  | varDecl => "variable declaration"

/-- What a built-in function wanted in place of an argument. -/
inductive Accepted where
  | texture
  | vec2
  | floatOrInt
  | float
  | floats
  | matrix
  | floatOrMatrix (n : Nat)
  | column (ty : Ty)
  | scalarOrVector (isInt : Bool)
  deriving DecidableEq

def Accepted.text : Accepted → String
  | texture => "texture"
  | vec2 => "vec2"
  | floatOrInt => "float, vecN, int, or ivecN"
  | float => "float"
  | floats => "float, vec2, vec3, or vec4"
  | matrix => "matrix"
  | floatOrMatrix n => s!"float or mat{n}"
  | column ty => ty.text
  | scalarOrVector isInt => (if isInt then "int" else "float") ++ " or vector"

inductive Complaint where
  | unsupported (f : Feature)
  -- Declarations
  | importForbidden
  | uniformWithValue
  | uniformWithoutType
  | notExposed (name : String)
  | redeclared (name : String)
  | redeclaredFunction (name : String)
  | missingBody
  | missingReturn (name : String)
  | unusedLocal (name : String)
  | missingTypeOrValue
  -- Entry points
  | vertexResult
  | fragmentResult
  | varyingType (ty : Ty)
  | noVertexOutput (name : String)
  | fragmentArgument (name : String) (expected found : Ty)
  -- Types
  | unexpectedType (text : String)
  | inferredLength
  | arrayLength (text : String)
  -- Constants
  | notConstant (text : String)
  | constDecl (text : String) (ty : Ty)
  | constOverflow (c : Constant)
  | constTruncated (c : Constant)
  | constMismatch (c : Constant) (ty : Ty) (place : Place)
  | constOperand (c : Constant) (other : Ty)
  -- Expressions
  | noValue (text : String)
  | manyValues (text : String)
  | badInt (text : String)
  | badFloat (text : String)
  | keyValue (text : String)
  | notExpr (text : String)
  | blankValue
  | unexpectedIdent (name : String)
  | notCalled (name : String)
  | builtinNotCalled (name : String)
  | badSwizzle (letters : String)
  | repeatedSwizzle (letters : String)
  | notIndexable (ty : Ty)
  | indexRange (c : Constant)
  | unaryConst (op : UnaryOp) (c : Constant)
  | unaryType (op : UnaryOp) (ty : Ty)
  | binaryConst (op : BinaryOp) (c : Constant)
  | typesMismatch (l : Ty) (op : BinaryOp) (r : Ty)
  | divisionByZero
  | shiftCount (c : Constant)
  | negativeShift (c : Constant)
  | shiftCountType (ty : Ty)
  | shiftedConst (c : Constant)
  | shiftedType (left : Bool)
  | typeMismatch (found target : Ty) (place : Place)
  | compositeType (ty : Ty)
  | manyElements (ty : Ty)
  -- Calls
  | invalidCall (text : String)
  | entryCalled (name : String)
  | notFunction (name : String)
  | manyArguments (name : String)
  | fewArguments (name : String)
  | resultAndOutputs (name : String)
  | fragmentOnly (name entry : String)
  | arity (f : Builtin) (want got : Nat)
  | matrixArity (f : Builtin) (n got : Nat)
  | lenArgument (f : Builtin) (ty : Ty)
  | builtinArgument (f : Builtin) (found : Ty) (wanted : Accepted)
  | builtinMismatch (f : Builtin) (found : List Ty)
  | laterArgument (f : Builtin) (first elem found : Ty)
  | vectorArgument (f : Builtin) (found : Ty) (isInt : Bool) (n : Nat)
  | constConversion (c : Constant) (target : Ty)
  | typeConversion (found target : Ty)
  -- Statements
  | valueCount (vars values : Nat)
  | resultCount (vars : Nat) (text : String) (values : Nat)
  | nonName (text : String)
  | nothingNew
  | entryArgument (name : String)
  | counterModified (name : String)
  | constAssigned (name : String)
  | uniformAssigned
  | notAssignable (text : String)
  | compoundCount (op : BinaryOp)
  | notNumeric (text : String) (up : Bool) (ty : Ty)
  | notUsed (text : String)
  | conditionType (ty : Ty)
  | outsideLoop (word : String)
  | fewResults
  | manyResults
  | loopFormat
  | endlessLoop

namespace Complaint

def message : Complaint → String
  | unsupported f => f.message
  | importForbidden => "import is forbidden"
  | uniformWithValue => "a uniform variable cannot have initial values"
  | uniformWithoutType => "missing type for a uniform variable"
  | notExposed name => "global variables must be exposed: " ++ name
  | redeclared name => name ++ " redeclared in this block"
  | redeclaredFunction name => "redeclared function: " ++ name
  | missingBody => "function must have a body"
  | missingReturn name => "function " ++ name ++ " must have a return statement but not"
  | unusedLocal name => "local variable " ++ name ++ " is not used"
  | missingTypeOrValue => "missing type or init expr"
  | vertexResult => "vertex entry point must have at least one returning vec4 value for a position"
  | fragmentResult => "fragment entry point must have one returning vec4 value for a color"
  | varyingType ty => "varying variables must be float or vector types but " ++ ty.text
  | noVertexOutput name => "fragment argument " ++ name ++ " has no corresponding vertex output"
  | fragmentArgument name expected found =>
    "fragment argument " ++ name ++ " must be " ++ expected.text ++ " but was " ++ found.text
  | unexpectedType text => "unexpected type: " ++ text
  | inferredLength => "invalid use of [...] array (outside a composite literal)"
  | arrayLength text => "array length must be a non-negative integer constant: " ++ text
  | notConstant text => text ++ " is not constant"
  | constDecl text ty => "cannot use " ++ text ++ " as " ++ ty.text ++ " value in constant declaration"
  | constOverflow c => "constant " ++ c.text ++ " overflows int"
  | constTruncated c => "constant " ++ c.text ++ " truncated to integer"
  | constMismatch c ty place =>
    "cannot use " ++ c.text ++ " (untyped " ++ c.kind.text ++ " constant) as " ++ ty.text ++ " value in " ++ place.text
  | constOperand c other => "cannot use " ++ c.text ++ " as " ++ other.text ++ " value"
  | noValue text => text ++ " (no value) used as value"
  | manyValues text => "multiple-value " ++ text ++ " in single-value context"
  | badInt text => "invalid integer literal: " ++ text
  | badFloat text => "invalid float literal: " ++ text
  | keyValue text => "unexpected key-value expression: " ++ text
  | notExpr text => text ++ " is not an expression"
  | blankValue => "cannot use _ as value"
  | unexpectedIdent name => "unexpected identifier: " ++ name
  | notCalled name => "function " ++ name ++ " must be called"
  | builtinNotCalled name => "built-in function " ++ name ++ " must be called"
  | badSwizzle letters => "unexpected swizzling: " ++ letters
  | repeatedSwizzle letters => "cannot assign to swizzle " ++ letters ++ " with repeated components"
  | notIndexable ty => "index operator cannot be applied to the type " ++ ty.text
  | indexRange c => "index out of range: " ++ c.text
  | unaryConst op c => "invalid operation: operator " ++ op.text ++ " not defined on " ++ c.text
  | unaryType op ty => "invalid operation: operator " ++ op.text ++ " not defined on " ++ ty.text
  | binaryConst op c => "invalid operation: operator " ++ op.text ++ " not defined on " ++ c.text
  | typesMismatch l op r => "types don't match: " ++ l.text ++ " " ++ op.text ++ " " ++ r.text
  | divisionByZero => "invalid operation: division by zero"
  | shiftCount c => "invalid shift count " ++ c.text
  | negativeShift c => "invalid negative shift count: " ++ c.text
  | shiftCountType ty => "shift count type " ++ ty.text ++ " must be integer"
  | shiftedConst c => "invalid operation: shifted operand " ++ c.text ++ " must be integer"
  | shiftedType left => "left operand for " ++ (if left then "left" else "right") ++ " shift should be int"
  | typeMismatch found target place =>
    "cannot use type " ++ found.text ++ " as type " ++ target.text ++ " in " ++ place.text
  | compositeType ty => "invalid composite literal type " ++ ty.text
  | manyElements ty => "too many values in " ++ ty.text ++ " literal"
  | invalidCall text => "invalid function call: " ++ text
  | entryCalled name => "entry point " ++ name ++ " cannot be called"
  | notFunction name => "invalid operation: cannot call non-function " ++ name
  | manyArguments name => "too many arguments in call to " ++ name
  | fewArguments name => "not enough arguments in call to " ++ name
  | resultAndOutputs name => "a function returning value cannot have out-params so far: " ++ name
  | fragmentOnly name entry => name ++ " is available only in " ++ entry
  | arity f want got => "number of " ++ f.name ++ s!"'s arguments must be {want} but {got}"
  | matrixArity f n got => "number of " ++ f.name ++ s!"'s arguments must be 1, {n} or {n * n} but {got}"
  | lenArgument f ty => "invalid argument: " ++ ty.text ++ " for built-in " ++ f.name
  | builtinArgument f found wanted =>
    "cannot use " ++ found.text ++ " as " ++ wanted.text ++ " value in argument to " ++ f.name
  | builtinMismatch f found => f.name ++ "'s arguments don't match: " ++ ", ".intercalate (found.map Ty.text)
  | laterArgument f first elem found =>
    "the arguments for " ++ f.name ++ " must equal to the first argument " ++ first.text ++ " or " ++ elem.text
      ++ " but " ++ found.text
  | vectorArgument f found isInt n =>
    "invalid arguments for " ++ f.name ++ ": " ++ found.text ++ " cannot be used as "
      ++ (if isInt then "int" else "float") ++ s!" or vec{n}"
  | constConversion c target => "cannot convert " ++ c.text ++ " to type " ++ target.text
  | typeConversion found target => "cannot convert " ++ found.text ++ " to type " ++ target.text
  | valueCount vars values => s!"assignment mismatch: {vars} variables but {values} values"
  | resultCount vars text values =>
    s!"assignment mismatch: {vars} variables but " ++ text ++ s!" returns {values} values"
  | nonName text => "non-name " ++ text ++ " on left side of :="
  | nothingNew => "no new variables on left side of :="
  | entryArgument name => "entry point argument " ++ name ++ " cannot be assigned"
  | counterModified name => "for-loop counter " ++ name ++ " cannot be modified in the loop body"
  | constAssigned name => "cannot assign to " ++ name ++ " (constant)"
  | uniformAssigned => "a uniform variable cannot be assigned"
  | notAssignable text => "cannot assign to " ++ text
  | compoundCount op => "assignment operation " ++ op.text ++ "= requires single-valued expressions"
  | notNumeric text up ty =>
    "invalid operation: " ++ text ++ (if up then "++" else "--") ++ " (non-numeric type " ++ ty.text ++ ")"
  | notUsed text => text ++ " is not used"
  | conditionType ty => "if-condition must be bool but: " ++ ty.text
  | outsideLoop word => word ++ " is not in a loop"
  | fewResults => "not enough return values"
  | manyResults => "too many return values"
  | loopFormat =>
    "for-statement must follow this format: for (varname) := (constant); (varname) (op) (constant); " ++
      "(varname) (op) (constant) \x7b ... \x7d"
  | endlessLoop => "for-statement's loop never ends"

end Complaint

end GameMedia.Shader.Check
