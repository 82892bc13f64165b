/-!
# `LuaUnparse.Tree.Kind` — what a node of a tree is called

## Contents
- **Kinds.** `Kind`, one constructor for each form that a node can have, and its name `Kind.tag`.
-/

namespace LuaUnparse

/-- The form of a node. -/
inductive Kind where
  | chunk
  | functionStatement
  | localFunctionStatement
  | ifStatement
  | numericForStatement
  | genericForStatement
  | callStatement
  | returnStatement
  | localStatement
  | assignmentStatement
  | doStatement
  | repeatStatement
  | whileStatement
  | breakStatement
  | elseIfClause
  | nilExpression
  | trueExpression
  | falseExpression
  | numberExpression
  | stringExpression
  | varargExpression
  | unaryOperationExpression
  | binaryOperationExpression
  | functionExpression
  | parenthesizedExpression
  | tableConstructorExpression
  | prefixExpression
  | parenthesizedPrefixExpression
  | nameVariable
  | indexedVariable
  | memberVariable
  | normalFunctionCall
  | methodFunctionCall
  | expressionListArguments
  | tableConstructorArguments
  | stringArguments
  | fieldArrayKey
  | fieldNameKey
  | fieldExpressionKey
  | tableConstructor
  | funcBody
  | functionName
  | parameterList
  | nameList
  | expressionList
  | variableList
  | name
  deriving DecidableEq

/-- The name of the form, as reports give it. -/
def Kind.tag : Kind → String
  | .chunk => "Chunk"
  | .functionStatement => "FunctionStatement"
  | .localFunctionStatement => "LocalFunctionStatement"
  | .ifStatement => "IfStatement"
  | .numericForStatement => "NumericForStatement"
  | .genericForStatement => "GenericForStatement"
  | .callStatement => "CallStatement"
  | .returnStatement => "ReturnStatement"
  | .localStatement => "LocalStatement"
  | .assignmentStatement => "AssignmentStatement"
  | .doStatement => "DoStatement"
  | .repeatStatement => "RepeatStatement"
  | .whileStatement => "WhileStatement"
  | .breakStatement => "BreakStatement"
  | .elseIfClause => "ElseIfClause"
  | .nilExpression => "NilExpression"
  | .trueExpression => "TrueExpression"
  | .falseExpression => "FalseExpression"
  | .numberExpression => "NumberExpression"
  | .stringExpression => "StringExpression"
  | .varargExpression => "VarargExpression"
  | .unaryOperationExpression => "UnaryOperationExpression"
  | .binaryOperationExpression => "BinaryOperationExpression"
  | .functionExpression => "FunctionExpression"
  | .parenthesizedExpression => "ParenthesizedExpression"
  | .tableConstructorExpression => "TableConstructorExpression"
  | .prefixExpression => "PrefixExpression"
  | .parenthesizedPrefixExpression => "ParenthesizedPrefixExpression"
  | .nameVariable => "NameVariable"
  | .indexedVariable => "IndexedVariable"
  | .memberVariable => "MemberVariable"
  | .normalFunctionCall => "NormalFunctionCall"
  | .methodFunctionCall => "MethodFunctionCall"
  | .expressionListArguments => "ExpressionListArguments"
  | .tableConstructorArguments => "TableConstructorArguments"
  | .stringArguments => "StringArguments"
  | .fieldArrayKey => "FieldArrayKey"
  | .fieldNameKey => "FieldNameKey"
  | .fieldExpressionKey => "FieldExpressionKey"
  | .tableConstructor => "TableConstructor"
  | .funcBody => "FuncBody"
  | .functionName => "FunctionName"
  | .parameterList => "ParameterList"
  | .nameList => "NameList"
  | .expressionList => "ExpressionList"
  | .variableList => "VariableList"
  | .name => "Name"

end LuaUnparse
