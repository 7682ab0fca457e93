import BytecodeMachine.Action
import BytecodeMachine.Text.Blank
import BytecodeMachine.Trace.Filter
/-!
# Settings

Two environment variables are looked at: one switches the trace on and names its
filter, the other is the size of the stack in words. Blanks around both are
ignored, and the words that switch are compared without regard to ASCII case.
-/
namespace BytecodeMachine.Settings

/-- A setting without the blanks around it. -/
def trimmed (setting : String) : List Char := Text.trim setting.toList

/-- A setting is one of these words, whatever its case. -/
def isOneOf (setting : String) (words : List String) : Bool :=
  words.any fun word => Text.lowerAscii (trimmed setting) == word.toList

/-- The trace is on unless the setting is empty or says that it is off. -/
def traceEnabled (setting : String) : Bool := !isOneOf setting ["", "0", "false", "off"]

/-- The filter that a setting names, unless it just says that the trace is on. -/
def filterText? (setting : String) : Option String :=
  if isOneOf setting ["", "1", "true", "on"] then none else some (String.ofList (trimmed setting))

/-- The filter of the trace, if it is on. -/
def filter? (setting : Option String) : Option Filter :=
  match setting with
  | none => none
  | some setting =>
    if traceEnabled setting then
      some (((filterText? setting).bind Filter.parse?).getD Filter.standard)
    else none

/-- The greatest size that a setting can name. -/
def greatestSize : Nat := 18446744073709551615

/-- The size of the stack that a setting names. -/
def stackSize (setting : String) : Answer Nat :=
  match Decimal.readNat greatestSize (trimmed setting) with
  | .error cause => .error (.during (.stackSize setting) (.number cause))
  | .ok 0 => .error (.world .emptyStack)
  | .ok size => .ok size

end BytecodeMachine.Settings
