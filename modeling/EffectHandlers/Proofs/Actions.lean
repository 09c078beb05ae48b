import EffectHandlers.Machine.State
/-!
# The actions of a program

What a program itself puts into the journal: the texts it logs and its remarks. Everything else
in the journal is a notice of something dropped, a view, or a trace event of the runtime.
-/

namespace EffectHandlers

/-- Whether an event is an action of the program. -/
def Event.isAction : Event → Bool
  | text _ => true
  | trace (.note ..) => true
  | _ => false

namespace Machine

variable {ω : Type}

/-- The actions of the program so far, the latest first. -/
def actions (m : Machine ω) : List Event := m.journal.filter Event.isAction

theorem actions_record (m : Machine ω) (e : Event) :
    (m.record e).actions = if e.isAction then e :: m.actions else m.actions := by
  simp only [actions, record, List.filter_cons]

@[simp] theorem actions_warn (m : Machine ω) (ws : List SettingsWarning) :
    (m.warn ws).actions = m.actions := by
  unfold warn
  induction ws generalizing m with
  | nil => rfl
  | cons w ws ih => exact ih (m.trace (.warning w))

end Machine

end EffectHandlers
