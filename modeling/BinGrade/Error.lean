import BinGrade.Decimal.Text
import BinGrade.Json.Fault
import BinGrade.Moment

/-!
# Errors

Why an operation is refused. Each error is a cause with the values that it is about, and its wording
is given in one place. Most causes belong to one of four families: a parameter out of its range, data
that cannot be used, a computation that has no result, and a configuration that is not sound. In each
family a caller may also state a reason in words of its own.
-/

namespace BinGrade

inductive ParameterFault (α : Type) where
  | noBins
  | weightCount (count : Nat)
  | weight (moment : Moment) (value : α)
  | weightSum (sum : α)
  | noWeight
  | noStrategy
  | noBinCount
  | zeroBinCount
  | stated (reason : String)

inductive InputFault (α : Type) where
  | fewEdges (count : Nat)
  | edgesNotFinite
  | edgesNotIncreasing (index : Nat) (edge previous : α)
  | sizeMismatch (what : String) (expected actual : Nat)
  | notPositive (minimum : α)
  | nothingBuilt
  | stated (reason : String)

inductive ComputationFault where
  | notFinite (what : String)
  | stated (reason : String)
deriving DecidableEq

/-- A configuration that is not sound; fields are named by their paths. -/
inductive ConfigFault (α : Type) where
  | notPositive (field : String) (value : α)
  | belowPrevious (field : String) (value : α) (previousField : String) (previous : α)
  | abovePrevious (field : String) (value : Nat) (previousField : String) (previous : Nat)
  | wrongEntry (path expected actual : String)
  | blankBand
  | duplicateBand (name : String)
  | bandBounds (name : String) (lower upper : α)
  | weightRow (field : String) (fault : ParameterFault α)
  | stated (reason : String)

inductive Error (α : Type) where
  | invalidParameter (fault : ParameterFault α)
  | invalidInput (fault : InputFault α)
  | insufficientData (expected actual : Nat)
  | computation (fault : ComputationFault)
  | unknownKey (key : UnknownKey)
  | invalidConfig (fault : ConfigFault α)
  | document (fault : Json.Fault)
  | file

namespace Error

variable {α : Type}

/-- The error of an operation that needs at least one value (`empty_input`). -/
def empty : Error α := insufficientData 1 0

def notFinite (what : String) : Error α := computation (.notFinite what)

def sizeMismatch (what : String) (expected actual : Nat) : Error α :=
  invalidInput (.sizeMismatch what expected actual)

end Error

/-! ### Wording -/

def ParameterFault.message : ParameterFault Float → String
  | noBins => "num_bins must be positive"
  | weightCount n => "weight vector must have 4 components, got " ++ toString n
  | weight m w =>
    m.name ++ " weight must be finite and non-negative, got " ++ Decimal.plain w
  | weightSum s => "weights must sum to 1, got " ++ Decimal.plain s
  | noWeight => "cannot normalize an all-zero weight vector"
  | noStrategy => "at least one binning strategy is required"
  | noBinCount => "at least one bin count candidate is required"
  | zeroBinCount => "bin count candidates must be positive"
  | stated reason => reason

def InputFault.message : InputFault Float → String
  | fewEdges n => "a histogram needs at least 2 edges, got " ++ toString n
  | edgesNotFinite => "histogram edges must be finite"
  | edgesNotIncreasing i edge previous =>
    "histogram edges must be strictly increasing (edge " ++ toString i ++ " = "
      ++ Decimal.plain edge ++ " follows " ++ Decimal.plain previous ++ ")"
  | sizeMismatch what expected actual =>
    "Size mismatch in " ++ what ++ ": expected " ++ toString expected ++ ", got "
      ++ toString actual
  | notPositive minimum =>
    "logarithmic bins need strictly positive values, minimum is " ++ Decimal.plain minimum
  | nothingBuilt => "no binning candidate could be built for the sample"
  | stated reason => reason

def ComputationFault.message : ComputationFault → String
  | notFinite what => what ++ " contains NaN or infinite values"
  | stated reason => reason

def ParameterFault.sentence (f : ParameterFault Float) : String :=
  "Invalid parameter: " ++ f.message

def ConfigFault.message : ConfigFault Float → String
  | notPositive field value =>
    field ++ " must be finite and positive, got " ++ Decimal.plain value
  | belowPrevious field value previousField previous =>
    field ++ " (" ++ Decimal.plain value ++ ") is below " ++ previousField ++ " ("
      ++ Decimal.plain previous ++ ")"
  | abovePrevious field value previousField previous =>
    field ++ " (" ++ toString value ++ ") exceeds " ++ previousField ++ " ("
      ++ toString previous ++ ")"
  | wrongEntry path expected actual => path ++ " expects " ++ expected ++ ", got " ++ actual
  | blankBand => "region band name must not be empty"
  | duplicateBand name => "duplicate region band '" ++ name ++ "'"
  | bandBounds name lower upper =>
    "region band '" ++ name ++ "' needs lower < upper, got [" ++ Decimal.plain lower ++ ", "
      ++ Decimal.plain upper ++ ")"
  | weightRow field fault => field ++ ": " ++ fault.sentence
  | stated reason => reason

def Json.Fault.message : Json.Fault → String
  | malformed => "malformed document"
  | cut => "document ends too early"
  | shape fault => fault.message

def Error.message : Error Float → String
  | invalidParameter fault => fault.sentence
  | invalidInput fault => "Invalid input: " ++ fault.message
  | insufficientData expected actual =>
    "Insufficient data: expected at least " ++ toString expected ++ " samples, got "
      ++ toString actual
  | computation fault => "Computation error: " ++ fault.message
  | unknownKey key => "Unknown " ++ key.kind ++ " key: '" ++ key.text ++ "'"
  | invalidConfig fault => "Invalid configuration: " ++ fault.message
  | document fault => "Serialization error: " ++ fault.message
  | file => "IO error"

theorem exists_of_bind_eq_ok {ε β γ : Type} {first : Except ε β} {next : β → Except ε γ} {c : γ}
    (h : first >>= next = .ok c) : ∃ b, first = .ok b ∧ next b = .ok c := by
  cases first with
  | ok b => exact ⟨b, rfl, h⟩
  | error fault => cases h

theorem bind_const_eq_ok_iff {ε : Type} {first next : Except ε Unit} :
    (first >>= fun _ => next) = .ok () ↔ first = .ok () ∧ next = .ok () := by
  cases first with
  | ok u => exact ⟨fun h => ⟨rfl, h⟩, fun h => h.2⟩
  | error fault =>
    constructor
    · intro h
      cases h
    · rintro ⟨h, _⟩
      cases h

theorem eq_ok_of_mapError_eq_ok {ε ε' β : Type} {f : ε → ε'} {outcome : Except ε β} {b : β}
    (h : outcome.mapError f = .ok b) : outcome = .ok b := by
  cases outcome with
  | ok _ =>
    cases h
    rfl
  | error fault => cases h

theorem exists_ok_of_toBool {ε β : Type} {outcome : Except ε β} (h : outcome.toBool = true) :
    ∃ b, outcome = .ok b := by
  cases outcome with
  | ok b => exact ⟨b, rfl⟩
  | error fault => cases h

theorem eq_ok_of_toOption {ε β : Type} {outcome : Except ε β} {b : β}
    (h : outcome.toOption = some b) : outcome = .ok b := by
  cases outcome with
  | ok b' => exact congrArg Except.ok (Option.some.inj h)
  | error fault => cases h

theorem exists_error_of_toBool {ε β : Type} {outcome : Except ε β}
    (h : outcome.toBool = false) : ∃ fault, outcome = .error fault := by
  cases outcome with
  | ok b => cases h
  | error fault => exact ⟨fault, rfl⟩

end BinGrade
