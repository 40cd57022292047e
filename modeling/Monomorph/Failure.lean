import Monomorph.Position

/-!
# Failure — why no assembly comes out

A `Failure` is an answer: the program, a callback, a configuration or a text was refused.  A `Fault`
is a broken promise of the caller — an id that names nothing, a graph that should have been acyclic
— and no answer at all.  `Stop` is either.
-/

namespace Monomorph

/-- Why a construction was refused. -/
inductive Failure
  /-- Everything that was complained about. -/
  | rejected (diagnostics : List Diagnostic)
  /-- Processing the item under a key could not go on. -/
  | hard (key message : String)
  | config (message : String)
  | serialize (message : String)
  | io (message : String)
deriving DecidableEq

namespace Failure

def text : Failure → String
  | .rejected ds => "MIR construction rejected with " ++ toString ds.length ++ " error(s)"
  | .hard key m => "Hard failure while processing `" ++ key ++ "`: " ++ m
  | .config m => "Config error: " ++ m
  | .serialize m => "Serialization error: " ++ m
  | .io m => "IO error: " ++ m

/-- The complaints a rejection carries; every other failure carries none. -/
def diagnostics : Failure → List Diagnostic
  | .rejected ds => ds
  | _ => []

/-- The failure of one item: a failure of any other kind is put down to the item's key. -/
def ofItem (f : Failure) (key : String) : Failure :=
  match f with
  | .hard k m => .hard k m
  | f => .hard key f.text

end Failure

/-- A promise of the caller that was not kept. -/
inductive Fault
  | unknownBlock (label : String)
  | undefinedTarget (block target : String)
  | cyclicBlocks (origin label : String)
  | conceptProvidesUnknown (concept provider : String)
  | entityProvidesUnknown (entity provider : String)
  | emptyUnion
  /-- An id that names no declaration of the program. -/
  | unknownId
  /-- A concept whose supertypes are needed before they are known. -/
  | supertypesUnknown
  /-- An entity type asked for at a concept. -/
  | notAnEntity
  /-- A position in a list beyond 64 bits. -/
  | positionOverflow
deriving DecidableEq

/-- What is said of a fault; the last four say nothing. -/
def Fault.message? : Fault → Option String
  | .unknownBlock l => some ("set_active_block: unknown block `" ++ l ++ "`")
  | .undefinedTarget b t => some ("block `" ++ b ++ "` jumps to undefined label `" ++ t ++ "`")
  | .cyclicBlocks o l => some ("cyclic block graph: `" ++ o ++ "` reaches back to `" ++ l ++ "`")
  | .conceptProvidesUnknown c p =>
      some ("concept `" ++ c ++ "` provides unknown concept `" ++ p ++ "`")
  | .entityProvidesUnknown e p =>
      some ("entity `" ++ e ++ "` provides unknown concept `" ++ p ++ "`")
  | .emptyUnion => some "a resolved type needs at least one option"
  | .unknownId | .supertypesUnknown | .notAnEntity | .positionOverflow => none

/-- Why work ended early: it was refused, or it could not go on. -/
inductive Stop
  | failure (f : Failure)
  | fault (f : Fault)
deriving DecidableEq

/-- A failure is put down to the item under way; a fault stays what it is. -/
def Stop.ofItem (key : String) : Stop → Stop
  | .failure f => .failure (f.ofItem key)
  | .fault f => .fault f

end Monomorph
