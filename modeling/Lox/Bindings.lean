/-!
# Names bound to things

* `Bindings`: finitely many names, each bound to one thing;
* `get?`, `contains`, `insert`: looking a name up and binding it, replacing what it was bound to;
* **`get?_insert`**: binding a name changes the look-up of this name only.
-/

namespace Lox

/-- Finitely many names, each bound to a thing. -/
structure Bindings (α : Type) where
  entries : List (String × α)

namespace Bindings

variable {α : Type}

/-- No name is bound. -/
def empty : Bindings α := ⟨[]⟩

/-- The entry of a name in a list of entries. -/
def find? (name : String) : List (String × α) → Option α
  | [] => none
  | (key, value) :: rest => if key == name then some value else find? name rest

/-- Replace the entry of a name, or add one at the end. -/
def put (name : String) (value : α) : List (String × α) → List (String × α)
  | [] => [(name, value)]
  | (key, old) :: rest =>
    if key == name then (key, value) :: rest else (key, old) :: put name value rest

/-- What a name is bound to. -/
def get? (b : Bindings α) (name : String) : Option α := find? name b.entries

/-- A name is bound. -/
def contains (b : Bindings α) (name : String) : Bool := (b.get? name).isSome

/-- Bind a name, replacing what it was bound to. -/
def insert (b : Bindings α) (name : String) (value : α) : Bindings α := ⟨put name value b.entries⟩

@[simp] theorem get?_empty (name : String) : (empty : Bindings α).get? name = none := rfl

theorem find?_put (name other : String) (value : α) (entries : List (String × α)) :
    find? other (put name value entries) =
      if name = other then some value else find? other entries := by
  induction entries with
  | nil => simp [put, find?]
  | cons entry rest ih =>
    obtain ⟨key, old⟩ := entry
    by_cases hk : key = name
    · by_cases ho : name = other <;> simp [put, find?, hk, ho]
    · by_cases ho : key = other
      · have hne : name ≠ other := fun h => hk (ho.trans h.symm)
        simp [put, find?, ho, hne, Ne.symm hne]
      · simp [put, find?, hk, ho, ih]

/-- **Binding a name changes the look-up of this name only.** -/
theorem get?_insert (b : Bindings α) (name other : String) (value : α) :
    (b.insert name value).get? other = if name = other then some value else b.get? other :=
  find?_put name other value b.entries

end Bindings

end Lox
