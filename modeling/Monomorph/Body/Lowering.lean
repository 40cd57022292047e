import Monomorph.Body.Copies
import Monomorph.Body.DeadTemps
import Monomorph.Body.Ssa

/-!
# Body/Lowering — the passes a finished body goes through

A lowering repeats some passes until a round changes nothing, ten rounds at most, and then runs
others once.  The standard one reads through copies and drops dead temporaries, and names every
definition at the end.
-/

namespace Monomorph

/-- A change of a body under a name, with the word whether it changed anything. -/
structure Pass where
  name : String
  run : Body → Except Fault (Body × Bool)

namespace Pass

def copies : Pass where
  name := "temp_copy_propagation"
  run b := .ok ({ b with blocks := b.blocks.readThroughCopies }, b.blocks.readsCopies)

def deadTemps : Pass where
  name := "dead_temp_elimination"
  run b := .ok ({ b with blocks := b.blocks.dropDeadTemps }, b.blocks.hasDeadTemps)

def ssa (params : List String) : Pass where
  name := "ssa_conversion"
  run b := do
    let (blocks, changed) ← b.blocks.toSsa params
    return ({ b with blocks }, changed)

end Pass

/-- What a lowering did: its rounds, and how often each pass changed something. -/
structure LoweringStats where
  rounds : Nat := 0
  counts : Table Nat := ∅

def LoweringStats.count (s : LoweringStats) (name : String) : LoweringStats :=
  { s with counts := s.counts.insert name ((s.counts.get? name).getD 0 + 1) }

/-- Passes to repeat, and passes to end with. -/
structure Lowering where
  passes : List Pass := []
  finish : List Pass := []
  maxRounds : Nat := 10

namespace Lowering

/-- The standard lowering of a body with the given parameters. -/
def standard (params : List String) : Lowering where
  passes := [.copies, .deadTemps]
  finish := [.ssa params]

/-- Passes in turn, and whether any changed something. -/
def runAll : List Pass → Body → LoweringStats → Except Fault (Body × LoweringStats × Bool)
  | [], b, s => .ok (b, s, false)
  | p :: r, b, s => do
      let (b, changed) ← p.run b
      let (b, s, others) ← runAll r b (if changed then s.count p.name else s)
      return (b, s, changed || others)

/-- At most so many rounds of passes, the last of them one that changes nothing. -/
def repeatRounds (passes : List Pass) : Nat → Body → LoweringStats →
    Except Fault (Body × LoweringStats)
  | 0, b, s => .ok (b, s)
  | n + 1, b, s => do
      let (b, s, changed) ← runAll passes b s
      let s := { s with rounds := s.rounds + 1 }
      if changed then repeatRounds passes n b s else return (b, s)

def run (l : Lowering) (b : Body) : Except Fault (Body × LoweringStats) := do
  let (b, s) ← repeatRounds l.passes l.maxRounds b {}
  let (b, s, _) ← runAll l.finish b s
  return (b, s)

end Lowering

end Monomorph
