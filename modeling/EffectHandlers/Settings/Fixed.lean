import EffectHandlers.Fault
import EffectHandlers.Settings.Basic
/-!
# Settings that are fixed once

A process decides on its settings once: by setting them explicitly, or at their first use, with
the environment as it is then. After that neither can change them.
-/

namespace EffectHandlers

/-- The environment of a process and the settings it has decided on. -/
structure SettingsSlot where
  environment : Environment := {}
  fixed : Option Settings := none

namespace SettingsSlot

/-- The settings in use, decided on now if they were not before. -/
def use (s : SettingsSlot) : Settings × SettingsSlot × List SettingsWarning :=
  match s.fixed with
  | some settings => (settings, s, [])
  | none =>
    let (settings, warnings) := Settings.ofEnvironment s.environment
    (settings, { s with fixed := some settings }, warnings)

/-- Set the settings explicitly, which fails once they are decided on. -/
def configure (s : SettingsSlot) (stackSize poolCapacity : Nat) : Except Fault SettingsSlot :=
  match s.fixed with
  | some _ => .error .alreadyConfigured
  | none => .ok { s with fixed := some (Settings.explicit stackSize poolCapacity) }

/-- Using the settings again gives the same. -/
theorem use_use (s : SettingsSlot) : s.use.2.1.use.1 = s.use.1 := by
  unfold use
  cases h : s.fixed <;> simp [h]

/-- The settings in use are those fixed, or those that the environment asks for. -/
theorem fixed_or (s : SettingsSlot) :
    s.fixed.or (some (Settings.ofEnvironment s.environment).1) = some s.use.1 := by
  unfold use
  cases s.fixed <;> rfl

end SettingsSlot

end EffectHandlers
