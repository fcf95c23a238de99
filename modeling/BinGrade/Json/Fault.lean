/-!
# Faults of documents

A document that cannot be read fails in one of three ways: its text is malformed, its text ends too
early, or the text is in order so far but has the wrong shape. Documents are read from left to
right, and the first fault is the one that counts.
-/

namespace BinGrade.Json

/-- A well-formed part of a document that is not of the shape asked for. -/
inductive ShapeFault where
  | invalidType
  | invalidValue
  | invalidLength
  | unknownVariant (name : String) (expected : List String)
  | unknownField (name : String) (expected : List String)
  | duplicateField (name : String)
  | missingField (name : String)
  | rejected (reason : String)
deriving DecidableEq

inductive Fault where
  | malformed
  | cut
  | shape (fault : ShapeFault)
deriving DecidableEq

def quoted (name : String) : String := "`" ++ name ++ "`"

def listNames : List String → String
  | [] => "there are none"
  | [a] => quoted a
  | [a, b] => quoted a ++ " or " ++ quoted b
  | names => "one of " ++ ", ".intercalate (names.map quoted)

def ShapeFault.message : ShapeFault → String
  | invalidType => "invalid type"
  | invalidValue => "invalid value"
  | invalidLength => "invalid length"
  | unknownVariant name expected =>
    "unknown variant " ++ quoted name ++ ", expected " ++ listNames expected
  | unknownField name expected =>
    "unknown field " ++ quoted name ++ ", expected " ++ listNames expected
  | duplicateField name => "duplicate field " ++ quoted name
  | missingField name => "missing field " ++ quoted name
  | rejected reason => reason

end BinGrade.Json
