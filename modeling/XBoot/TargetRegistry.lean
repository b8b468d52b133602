import XBoot.Session

/-!
# The registry of targets

Targets live as long as a connection holds one, so the shared state keeps every target
ever registered, and the registry maps an IQN to the place of the latest one.
-/

namespace XBoot.Iscsi

open Storage

/-- All targets made so far, and the registry's entries. -/
structure World where
  instances : List ScsiTarget
  registry : List (String × ℕ)

namespace World

def empty : World := ⟨[], []⟩

/-- Register a target under its IQN; a target registered before stays with its holders. -/
def insert (w : World) (iqn : String) (target : ScsiTarget) : World where
  instances := w.instances ++ [target]
  registry := (iqn, w.instances.length) :: w.registry.filter fun entry => entry.1 ≠ iqn

def get (w : World) (iqn : String) : Option ℕ :=
  (w.registry.find? fun entry => entry.1 = iqn).map (·.2)

def execute (t : ℕ) (cmd : ScsiCommand) (writeData : List UInt8) (w : World) :
    Outcome (ScsiOutcome × World) :=
  match w.instances[t]? with
  | none => .error .panic
  | some target => match target.execute cmd writeData with
    | .error e => .error e
    | .ok (outcome, target') => .ok (outcome, { w with instances := w.instances.set t target' })

/-- The shared state as connections use it; `order` is the hash map's order of its keys. -/
def targets (order : List String → List String) : Targets World ℕ where
  get := get
  iqns w := order (w.registry.map (·.1))
  execute := execute

theorem get_insert_self (w : World) (iqn : String) (target : ScsiTarget) :
    (w.insert iqn target).get iqn = some w.instances.length := by
  simp [get, insert]

theorem get_insert_of_ne (w : World) {iqn iqn' : String} (target : ScsiTarget) (h : iqn' ≠ iqn) :
    (w.insert iqn target).get iqn' = w.get iqn' := by
  have hskip : (fun entry : String × ℕ =>
      decide (decide (entry.1 ≠ iqn) = true ∧ decide (entry.1 = iqn') = true)) =
        fun entry => decide (entry.1 = iqn') := by
    funext entry
    by_cases hentry : entry.1 = iqn' <;> simp [hentry, h]
  simp only [get, insert, List.find?_cons, decide_eq_false h.symm, List.find?_filter, hskip]

theorem execute_of_get {t : ℕ} {cmd : ScsiCommand} {writeData : List UInt8} {w : World}
    {target target' : ScsiTarget} {outcome : ScsiOutcome} (hget : w.instances[t]? = some target)
    (h : target.execute cmd writeData = .ok (outcome, target')) (order : List String → List String) :
    (targets order).execute t cmd writeData w =
      .ok (outcome, { w with instances := w.instances.set t target' }) := by
  simp only [targets, execute, hget, h]

/-- A command is executed by the target at its place, and changes that one only. -/
theorem execute_ok {t : ℕ} {cmd : ScsiCommand} {writeData : List UInt8} {w w' : World}
    {outcome : ScsiOutcome} (h : execute t cmd writeData w = .ok (outcome, w')) :
    ∃ target target', w.instances[t]? = some target ∧
      target.execute cmd writeData = .ok (outcome, target') ∧
        w' = { w with instances := w.instances.set t target' } := by
  rw [execute] at h
  split at h
  · cases h
  · rename_i target htarget
    split at h
    · cases h
    · cases h
      exact ⟨target, _, htarget, ‹_›, rfl⟩

/-- A command keeps the registry and the number of targets. -/
theorem execute_keeps {t : ℕ} {cmd : ScsiCommand} {writeData : List UInt8} {w w' : World}
    {outcome : ScsiOutcome} (h : execute t cmd writeData w = .ok (outcome, w')) :
    w'.registry = w.registry ∧ w'.instances.length = w.instances.length := by
  obtain ⟨target, target', -, -, rfl⟩ := execute_ok h
  exact ⟨rfl, List.length_set⟩

theorem length_insert (w : World) (iqn : String) (target : ScsiTarget) :
    (w.insert iqn target).instances.length = w.instances.length + 1 := List.length_append

end World

end XBoot.Iscsi
