import BytecodeMachine.Text.Decimal
import BytecodeMachine.Trace.Event
/-!
# Event filters

A filter is a list of directives, separated by commas. A directive is a source and a
level joined by an equals sign, a level alone, which is for every source, or a source
alone, which is at every level. An event is shown when, among the directives whose
source begins its own source, the longest one admits its level; of equal sources the
last one counts.
-/
namespace BytecodeMachine

/-- Events of a source, up to some level of detail. Level zero admits nothing. -/
structure Directive where
  source : String
  detail : Nat
deriving DecidableEq, Repr

namespace Directive

/-- A level by its name or its number. -/
def detail? (text : String) : Option Nat :=
  match String.ofList (text.toList.map Char.toLower) with
  | "off" => some 0
  | "error" => some 1
  | "warn" => some 2
  | "info" => some 3
  | "debug" => some 4
  | "trace" => some 5
  | _ =>
    match Decimal.readNat 5 text.toList with
    | .ok number => some number
    | .error _ => none

/-- What a source may begin with. -/
def mayStart (c : Char) : Bool := c.isAlphanum || c == '-' || c == ':' || c == '_'

def parse? (text : String) : Option Directive :=
  let cs := text.toList
  if !(cs.head?.any mayStart) then none
  else
    let source := cs.takeWhile (· != '=')
    match cs.drop source.length with
    | [] =>
      match detail? text with
      | some detail => some ⟨"", detail⟩
      | none => some ⟨text, Level.trace.detail⟩
    | _ :: [] => some ⟨String.ofList source, Level.trace.detail⟩
    | _ :: level => (detail? (String.ofList level)).map fun detail => ⟨String.ofList source, detail⟩

end Directive

structure Filter where
  directives : List Directive
deriving DecidableEq, Repr

namespace Filter

/-- What is shown when no filter is named, or one that cannot be read. -/
def standard : Filter :=
  ⟨[⟨"byterun::vm", 3⟩, ⟨"byterun::vm::call", 4⟩, ⟨"byterun::runtime", 4⟩, ⟨"byterun", 3⟩]⟩

/-- The directives of a text. Empty ones are skipped. -/
def parse? (text : String) : Option Filter :=
  let parts := (text.splitOn ",").filter fun part => part != ""
  (parts.mapM Directive.parse?).map Filter.mk

/-- The directive that decides about a source. -/
def deciding? (filter : Filter) (source : String) : Option Directive :=
  filter.directives.foldl (fun best directive =>
    if directive.source.toList.isPrefixOf source.toList then
      match best with
      | some longest =>
        if directive.source.length < longest.source.length then best else some directive
      | none => some directive
    else best) none

def shows (filter : Filter) (event : Event) : Bool :=
  match filter.deciding? event.source with
  | some directive => event.level.detail ≤ directive.detail
  | none => false

end Filter

end BytecodeMachine
