import QueryMarkup.Tree.Slot

/-!
# Slots by name

The slots of a node behave as a function from names to slots: changing the slot of one
name changes nothing under another.
-/
namespace QueryMarkup

namespace Slot

@[simp] theorem name_set (slot : Slot) (value : String) : (slot.set value).name = slot.name := rfl

@[simp] theorem value_set (slot : Slot) (value : String) : (slot.set value).value = value :=
  Cell.set_value _ _

@[simp] theorem watchers_set (slot : Slot) (value : String) :
    (slot.set value).watchers = slot.watchers := rfl

@[simp] theorem name_watch (slot : Slot) (w : Watcher) : (slot.watch w).name = slot.name := rfl

@[simp] theorem value_watch (slot : Slot) (w : Watcher) : (slot.watch w).value = slot.value := rfl

@[simp] theorem watchers_watch (slot : Slot) (w : Watcher) :
    (slot.watch w).watchers = slot.watchers ++ [w] := rfl

@[simp] theorem name_release (slot : Slot) : slot.release.name = slot.name := rfl

@[simp] theorem value_release (slot : Slot) : slot.release.value = slot.value := rfl

@[simp] theorem name_forget (slot : Slot) (gone : List NodeId) :
    (slot.forget gone).name = slot.name := rfl

@[simp] theorem value_forget (slot : Slot) (gone : List NodeId) :
    (slot.forget gone).value = slot.value := rfl

theorem name_foldl_watch (slot : Slot) (ws : List Watcher) :
    (ws.foldl Slot.watch slot).name = slot.name := by
  induction ws generalizing slot with
  | nil => rfl
  | cons w ws ih => exact ih (slot.watch w)

theorem value_foldl_watch (slot : Slot) (ws : List Watcher) :
    (ws.foldl Slot.watch slot).value = slot.value := by
  induction ws generalizing slot with
  | nil => rfl
  | cons w ws ih => exact ih (slot.watch w)

theorem watchers_foldl_watch (slot : Slot) (ws : List Watcher) :
    (ws.foldl Slot.watch slot).watchers = slot.watchers ++ ws := by
  induction ws generalizing slot with
  | nil => simp
  | cons w ws ih => simp [ih]

end Slot

namespace Slots

theorem find?_putInto (slot : Slot) (used : List Slot) (name : String) :
    (putInto slot used).find? (fun s => s.name == name) =
      if slot.name = name then some slot else used.find? (fun s => s.name == name) := by
  induction used with
  | nil => by_cases h : slot.name = name <;> simp [putInto, h]
  | cons s used ih =>
    by_cases hs : s.name = slot.name
    · by_cases h : slot.name = name <;> simp [putInto, hs, h]
    · by_cases h : slot.name = name
      · subst h
        simp [putInto, hs, ih]
      · by_cases hn : s.name = name
        · subst hn
          simp [putInto, hs, h]
        · simp [putInto, hs, h, hn, ih]

theorem get_put (slots : Slots) (slot : Slot) (name : String) :
    (slots.put slot).get name = if slot.name = name then slot else slots.get name := by
  simp only [get, put, find?_putInto]
  split <;> rfl

@[simp] theorem name_get (slots : Slots) (name : String) : (slots.get name).name = name := by
  unfold get
  cases h : slots.used.find? fun s => s.name == name with
  | none => rfl
  | some s => simpa using List.find?_some h

theorem get_alter (slots : Slots) (name : String) (f : Slot → Slot) (hf : ∀ s, (f s).name = s.name)
    (x : String) : (slots.alter name f).get x = if name = x then f (slots.get name) else slots.get x := by
  rw [alter, get_put, hf, name_get]

theorem value_alter (slots : Slots) (name : String) (f : Slot → Slot)
    (hf : ∀ s, (f s).name = s.name) (x : String) :
    (slots.alter name f).value x = if name = x then (f (slots.get name)).value else slots.value x := by
  rw [value, get_alter _ _ _ hf]
  split <;> rfl

/-- Changes that keep the value of a slot keep all values. -/
theorem value_alter_of_value (slots : Slots) (name : String) (f : Slot → Slot)
    (hf : ∀ s, (f s).name = s.name) (hv : ∀ s, (f s).value = s.value) :
    (slots.alter name f).value = slots.value := by
  funext x
  rw [value_alter _ _ _ hf]
  by_cases h : name = x
  · subst h
    simp [hv, value]
  · simp [h]

theorem value_watch (slots : Slots) (name : String) (w : Watcher) :
    (slots.watch name w).value = slots.value :=
  value_alter_of_value slots name (·.watch w) (fun _ => rfl) fun _ => rfl

theorem get_forget (slots : Slots) (gone : List NodeId) (x : String) :
    (slots.forget gone).get x = (slots.get x).forget gone := by
  simp only [get, forget, List.find?_map]
  cases h : slots.used.find? ((fun s => s.name == x) ∘ fun s => s.forget gone) with
  | none =>
    have : slots.used.find? (fun s => s.name == x) = none := h
    rw [this]
    rfl
  | some s =>
    have : slots.used.find? (fun s => s.name == x) = some s := h
    rw [this]
    rfl

theorem value_forget (slots : Slots) (gone : List NodeId) : (slots.forget gone).value = slots.value := by
  funext x
  rw [value, get_forget]
  rfl

theorem get_watch (slots : Slots) (name : String) (w : Watcher) (x : String) :
    (slots.watch name w).get x = if name = x then (slots.get name).watch w else slots.get x :=
  get_alter slots name (·.watch w) (fun _ => rfl) x

@[simp] theorem watchers_empty (x : String) : (Slots.empty.get x).watchers = [] := rfl

end Slots

end QueryMarkup
