import PostfixRegex.Message

/-!
# Stages of work

A stage has a name and is finished at some point, which enters its name in a journal, together with
the time since it was started. Finishing a stage twice enters it twice. A stage that is dropped
without ever having been finished leaves a warning and no entry.

Time is measured elsewhere: whoever finishes a stage says how long it took, in a type `δ` of
durations about which nothing is assumed.

`Shelf` runs any number of named slots side by side, each of which holds at most one stage.

## Main definitions

* `Journal`: the finished stages and the messages, in order;
* `Stage.finish`, `Stage.drop`: what becomes of a stage;
* `Shelf.handle`: one event in one slot.
-/

namespace PostfixRegex

variable {δ : Type}

/-- A stage that was finished, and how long it took. -/
structure Journal.Entry (δ : Type) where
  name : String
  duration : δ
deriving DecidableEq

/-- What was recorded so far. -/
structure Journal (δ : Type) where
  /-- The finished stages, in the order in which they were finished. -/
  stages : List (Journal.Entry δ) := []
  log : List Message := []
deriving DecidableEq

/-- Enters messages at the end of the log. -/
def Journal.note (j : Journal δ) (messages : List Message) : Journal δ :=
  { j with log := j.log ++ messages }

/-- A piece of work under a name. -/
structure Stage where
  name : String
  finished : Bool := false
deriving DecidableEq

namespace Stage

/-- Starts a stage. -/
def start (name : String) : Stage where
  name := name

/-- Enters the stage in the journal. -/
def finish (s : Stage) (duration : δ) (j : Journal δ) : Stage × Journal δ :=
  ({ s with finished := true },
    { stages := j.stages ++ [⟨s.name, duration⟩], log := j.log ++ [.stageFinished s.name] })

/-- What is reported when the stage goes away. -/
def dropReport (s : Stage) : List Message :=
  if s.finished then [] else [.stageDropped s.name]

/-- Lets the stage go. -/
def drop (s : Stage) (j : Journal δ) : Journal δ :=
  j.note s.dropReport

end Stage

/-! ### Stages side by side -/

/-- Something that happens to the stage in a slot. -/
inductive StageEvent (δ : Type) where
  | start (slot name : String)
  | finish (slot : String) (duration : δ)
  | drop (slot : String)
deriving DecidableEq

/-- The stages that are held in slots, and the journal they share. -/
structure Shelf (δ : Type) where
  held : List (String × Stage) := []
  journal : Journal δ := {}
deriving DecidableEq

namespace Shelf

/-- The stage in a slot. -/
def stage? (shelf : Shelf δ) (slot : String) : Option Stage :=
  shelf.held.lookup slot

/-- Empties a slot. -/
def remove (shelf : Shelf δ) (slot : String) : List (String × Stage) :=
  shelf.held.filter (·.1 ≠ slot)

/-- Puts a stage into a slot in place of the one that is there. -/
def put (shelf : Shelf δ) (slot : String) (s : Stage) : List (String × Stage) :=
  (slot, s) :: shelf.remove slot

/-- Handles one event. A new stage takes the slot before the stage it replaces is dropped; an event
for an empty slot changes nothing. -/
def handle (shelf : Shelf δ) : StageEvent δ → Shelf δ
  | .start slot name =>
    let held := shelf.put slot (.start name)
    match shelf.stage? slot with
    | some old => { held, journal := old.drop shelf.journal }
    | none => { shelf with held }
  | .finish slot duration =>
    match shelf.stage? slot with
    | some s =>
      let (s, journal) := s.finish duration shelf.journal
      { held := shelf.put slot s, journal }
    | none => shelf
  | .drop slot =>
    match shelf.stage? slot with
    | some s => { held := shelf.remove slot, journal := s.drop shelf.journal }
    | none => shelf

/-- Drops every stage that is still held and gives the journal. -/
def close (shelf : Shelf δ) : Journal δ :=
  shelf.held.foldr (fun (_, s) j => s.drop j) shelf.journal

end Shelf

end PostfixRegex
