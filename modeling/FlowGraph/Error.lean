import FlowGraph.Fault
import FlowGraph.Text.Utf8

/-!
# Errors

What can go wrong at the surface of the library, by cause. `Error.message` is the only place that
words them.
-/

namespace FlowGraph

set_option autoImplicit false

/-- What a reader finds wrong with a text. -/
inductive Problem where
  | endOfLine
  | endOfInput
  | expectedChar (c : Char)
  | expectedKeyword (keyword : String)
  | expectedIdentifier
  | expectedLabel
  | trailingText
  | duplicateLabel (name : String)
  | undefinedLabel (name : String)
  | duplicateRegister (name : String)
  | unknownRegister (name : String)
  | unknownOperator (c : Char)
  | unknownInstruction
  | duplicateFunction (name : String)
  /-- A remark in the caller's own words. -/
  | remark (text : String)
deriving DecidableEq, Repr

namespace Problem

def quoted (s : String) : String := "\"" ++ s ++ "\""

def message : Problem → String
  | endOfLine => "Unexpected end of line"
  | endOfInput => "Unexpected end of input, expected '\x7d'"
  | expectedChar c => "Expected '" ++ String.singleton c ++ "'"
  | expectedKeyword keyword => "Expected " ++ quoted keyword
  | expectedIdentifier => "Expected identifier"
  | expectedLabel => "Expected label"
  | trailingText => "Unexpected text after statement"
  | duplicateLabel name => "duplicate label " ++ name
  | undefinedLabel name => "undefined label " ++ name
  | duplicateRegister name => "Duplicate register declaration " ++ quoted name
  | unknownRegister name => "Unknown register " ++ quoted name
  | unknownOperator c => "Unknown arithmetic operation " ++ quoted (String.singleton c)
  | unknownInstruction => "Unknown instruction"
  | duplicateFunction name => "duplicate function " ++ quoted name
  | remark text => text

end Problem

inductive ReaderKind where
  | function
  | program
deriving DecidableEq, Repr

def ReaderKind.callName : ReaderKind → String
  | function => "FunctionReader::read"
  | program => "ProgramReader::read"

inductive Error where
  /-- A problem of the text at this place; lines and columns start at one. -/
  | parse (line column : Nat) (problem : Problem)
  /-- A reader was used again after a failure, without a reset. -/
  | readerBusy (reader : ReaderKind)
  /-- A function of this name exists already. -/
  | nameTaken (name : String)
  /-- A branch without a target cannot be written. -/
  | branchWithoutTarget (block : BlockId)
  /-- Two registers of one name cannot be told apart in a text. -/
  | sharedRegisterName (name : String)
  | fileNotFound
  | encoding (flaw : Text.Utf8.Flaw)
  /-- A sink had no room left. -/
  | sinkFull
  | unknownOperator
  | fault (fault : Fault)
deriving DecidableEq, Repr

def Error.message : Error → String
  | parse line column problem =>
    Nat.repr line ++ ":" ++ Nat.repr column ++ ": " ++ problem.message
  | readerBusy reader => "Recursive call to " ++ reader.callName
  | nameTaken name => "Duplicate function " ++ Problem.quoted name
  | branchWithoutTarget block =>
    "Conditional branch in block " ++ block.text ++ " has an undefined target"
  | sharedRegisterName name =>
    "Register name " ++ Problem.quoted name ++ " is used by more than one register"
  | fileNotFound => "No such file or directory (os error 2)"
  | encoding flaw => flaw.message
  | sinkFull => "an error occurred when formatting an argument"
  | unknownOperator => "Matching variant not found"
  | fault f => f.message

end FlowGraph
