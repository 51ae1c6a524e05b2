import Hyperlisting.Proofs.FileTree.Change
import Hyperlisting.Proofs.Site.Worker

/-! What workers that share a tree can rely on. Each has places of its own, which the others leave
alone, and looks along ways on which the others only make directories where nothing was. A worker
that keeps to its places ensures something of its result and of the tree that it ends with, whatever
the others do between its steps. -/

namespace Hyperlisting

open FileTree

/-- The places that matter to a worker. -/
structure Footprint where
  /-- Where the worker looks. -/
  area : List Location
  /-- Where the worker alone puts anything but directories. -/
  own : List Location
  /-- Where the worker makes directories if nothing is there. -/
  wanted : List Location

namespace Footprint

variable {footprint other : Footprint} {origin base before between after : FileTree}
  {place : Location}

/-- What a worker relies on when others take steps. -/
structure Rely (footprint : Footprint) (origin before after : FileTree) : Prop where
  sound : before.Sound → after.Sound
  current : after.current = before.current
  room : after.room = before.room
  own : ∀ place ∈ footprint.own, after.get? place = before.get? place
  area : ∀ place ∈ footprint.area, after.get? place = before.get? place ∨
    origin.get? place = none ∧ before.get? place = none ∧ after.get? place = some .directory

/-- What a worker's own steps do at most. -/
structure Guarantee (footprint : Footprint) (before after : FileTree) : Prop where
  sound : before.Sound → after.Sound
  current : after.current = before.current
  room : after.room = before.room
  elsewhere : ∀ place ∉ footprint.own, after.get? place = before.get? place ∨
    place ∈ footprint.wanted ∧ before.get? place = none ∧ after.get? place = some .directory

theorem Rely.refl (footprint : Footprint) (origin tree : FileTree) :
    footprint.Rely origin tree tree where
  sound := id
  current := rfl
  room := rfl
  own _ _ := rfl
  area _ _ := .inl rfl

theorem Rely.trans (first : footprint.Rely origin before between)
    (second : footprint.Rely origin between after) : footprint.Rely origin before after where
  sound := second.sound ∘ first.sound
  current := second.current.trans first.current
  room := second.room.trans first.room
  own place mem := (second.own place mem).trans (first.own place mem)
  area place mem := by
    rcases first.area place mem with same | ⟨absent, wasAbsent, made⟩ <;>
      rcases second.area place mem with same' | ⟨absent', wasAbsent', made'⟩
    · exact .inl (same'.trans same)
    · exact .inr ⟨absent', same ▸ wasAbsent', made'⟩
    · exact .inr ⟨absent, wasAbsent, same'.trans made⟩
    · exact .inr ⟨absent, wasAbsent, made'⟩

theorem Guarantee.refl (footprint : Footprint) (tree : FileTree) :
    footprint.Guarantee tree tree where
  sound := id
  current := rfl
  room := rfl
  elsewhere _ _ := .inl rfl

theorem Guarantee.trans (first : footprint.Guarantee before between)
    (second : footprint.Guarantee between after) : footprint.Guarantee before after where
  sound := second.sound ∘ first.sound
  current := second.current.trans first.current
  room := second.room.trans first.room
  elsewhere place notOwn := by
    rcases first.elsewhere place notOwn with same | ⟨wanted, wasAbsent, made⟩ <;>
      rcases second.elsewhere place notOwn with same' | ⟨wanted', wasAbsent', made'⟩
    · exact .inl (same'.trans same)
    · exact .inr ⟨wanted', same ▸ wasAbsent', made'⟩
    · exact .inr ⟨wanted, wasAbsent, same'.trans made⟩
    · exact .inr ⟨wanted, wasAbsent, made'⟩

/-- Another worker keeps away from what matters to this one. -/
structure Spares (other footprint : Footprint) : Prop where
  area : ∀ place ∈ other.own, place ∉ footprint.area
  own : ∀ place ∈ other.own, place ∉ footprint.own
  wanted : ∀ place ∈ other.wanted, place ∉ footprint.own

/-- A worker can rely on what the guarantee of another one leaves to it. -/
theorem Guarantee.rely (step : other.Guarantee before after) (spares : other.Spares footprint)
    (absent : ∀ place ∈ other.wanted, origin.get? place = none) :
    footprint.Rely origin before after where
  sound := step.sound
  current := step.current
  room := step.room
  own place mem := by
    rcases step.elsewhere place fun own => spares.own place own mem with same | ⟨wanted, _⟩
    · exact same
    · exact absurd mem (spares.wanted place wanted)
  area place mem := by
    rcases step.elsewhere place fun own => spares.area place own mem with same | ⟨wanted, made⟩
    · exact .inl same
    · exact .inr ⟨absent place wanted, made⟩

theorem Rely.directory (rely : footprint.Rely origin before after)
    (mem : place ∈ footprint.area) (directory : before.get? place = some .directory) :
    after.get? place = some .directory := by
  rcases rely.area place mem with same | ⟨_, _, made⟩
  · exact same.trans directory
  · exact made

theorem Rely.outgrown (rely : footprint.Rely origin before after) {places : List Location}
    (area : places ⊆ footprint.area) (outgrown : Outgrown origin before places) :
    Outgrown origin after places where
  sound := rely.sound outgrown.sound
  current := rely.current.trans outgrown.current
  unlinked := outgrown.unlinked
  grown place mem := by
    rcases rely.area place (area mem) with same | ⟨absent, _, made⟩
    · rw [same]
      exact outgrown.grown place mem
    · exact .inr ⟨absent, made⟩

/-- Whatever others do between its steps, the worker keeps its guarantee, and something holds of its
result and of the tree from when it is done. -/
def Ensures {α : Type} (footprint : Footprint) (origin : FileTree) (post : α → FileTree → Prop) :
    Worker α → FileTree → Prop
  | .done result, tree => ∀ found, footprint.Rely origin tree found → post result found
  | .step change rest, tree => ∀ found, footprint.Rely origin tree found →
      footprint.Guarantee found (change found) ∧
        Ensures footprint origin post (rest found) (change found)

variable {α β : Type} {post : α → FileTree → Prop} {worker : Worker α} {tree : FileTree}

/-- Others' steps do not take away what a worker ensures. -/
theorem Ensures.rely (ensures : footprint.Ensures origin post worker before)
    (rely : footprint.Rely origin before after) : footprint.Ensures origin post worker after := by
  cases worker with
  | done result => exact fun found later => ensures found (rely.trans later)
  | step change rest => exact fun found later => ensures found (rely.trans later)

theorem Ensures.imp {weaker : α → FileTree → Prop}
    (ensures : footprint.Ensures origin post worker tree)
    (weaken : ∀ result found, post result found → weaker result found) :
    footprint.Ensures origin weaker worker tree := by
  induction worker generalizing tree with
  | done result => exact fun found rely => weaken result found (ensures found rely)
  | step change rest ih =>
    intro found rely
    obtain ⟨keeps, ensures⟩ := ensures found rely
    exact ⟨keeps, ih found ensures⟩

theorem Ensures.bind {next : α → Worker β} {last : β → FileTree → Prop}
    (ensures : footprint.Ensures origin post worker tree)
    (onward : ∀ result found, post result found →
      footprint.Ensures origin last (next result) found) :
    footprint.Ensures origin last (worker.bind next) tree := by
  induction worker generalizing tree with
  | done result => exact onward result tree (ensures tree (.refl ..))
  | step change rest ih =>
    intro found rely
    obtain ⟨keeps, ensures⟩ := ensures found rely
    exact ⟨keeps, ih found ensures⟩

theorem Ensures.once_bind {action : FileStep α} {next : Except SystemError α → Worker β}
    {last : β → FileTree → Prop}
    (onward : ∀ found, footprint.Rely origin tree found →
      footprint.Guarantee found (Worker.outcome (action found)).2 ∧
        footprint.Ensures origin last (next (Worker.outcome (action found)).1)
          (Worker.outcome (action found)).2) :
    footprint.Ensures origin last ((Worker.once action).bind next) tree := onward

/-- Left alone, a worker keeps its guarantee all along, and reaches what it ensures. -/
theorem Ensures.alone (ensures : footprint.Ensures origin post worker tree) :
    footprint.Guarantee tree (worker.alone tree).2 ∧
      post (worker.alone tree).1 (worker.alone tree).2 := by
  induction worker generalizing tree with
  | done result => exact ⟨.refl .., ensures tree (.refl ..)⟩
  | step change rest ih =>
    obtain ⟨keeps, ensures⟩ := ensures tree (.refl ..)
    obtain ⟨later, holds⟩ := ih tree ensures
    exact ⟨keeps.trans later, holds⟩

end Footprint
end Hyperlisting
