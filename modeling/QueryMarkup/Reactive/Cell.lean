/-!
A value with a count of its changes. Storing the value that is already there is
no change.
-/
namespace QueryMarkup

structure Cell (α : Type _) where
  value : α
  version : Nat := 0
  deriving DecidableEq

namespace Cell

variable {α : Type _} [DecidableEq α]

def set (cell : Cell α) (value : α) : Cell α :=
  if cell.value = value then cell else ⟨value, cell.version + 1⟩

theorem set_value (cell : Cell α) (value : α) : (cell.set value).value = value := by
  unfold set
  split <;> simp_all

theorem set_self (cell : Cell α) : cell.set cell.value = cell := by
  simp [set]

end Cell

end QueryMarkup
