import StylePack.Disk.Access
import StylePack.Failure

/-! Actions: what a command does to the disk and what it says, up to its end or its failure. A
failure undoes nothing. -/
namespace StylePack
open Console (Event)

/-- The disk and what was said so far. -/
structure Session where
  disk : Disk
  said : List Event

abbrev Action := ExceptT Failure (StateM Session)

namespace Action

def say (e : Event) : Action Unit := modify fun s => { s with said := s.said ++ [e] }

def sayAll (es : List Event) : Action Unit := modify fun s => { s with said := s.said ++ es }

def disk : Action Disk := do return (← get).disk

/-- Tries something that may change the disk. -/
def attempt {α ρ : Type} (cause : ρ → Failure) (change : Disk → Except ρ α × Disk) : Action α := do
  let (result, disk) := change (← Action.disk)
  modify fun s => { s with disk := disk }
  match result with
  | .ok a => return a
  | .error r => throw (cause r)

/-- Hands on what the disk answers. -/
def answer {α ρ : Type} (cause : ρ → Failure) (result : Except ρ α) : Action α :=
  match result with
  | .ok a => return a
  | .error r => throw (cause r)

/-- How an action ends that starts on a disk, and what it leaves behind. -/
def perform {α : Type} (act : Action α) (d : Disk) : Except Failure α × Session :=
  (ExceptT.run act).run ⟨d, []⟩

end Action
end StylePack
