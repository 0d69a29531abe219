import Lox.Proofs.Session.Calls

/-!
# Numbers over a session

Old functions look up the distances of their occurrences in the same table as new ones. What they
find stays right because a session never gives a number away twice.

* `Session.ids`, `Session.idsAll`: the numbers that calls give away;
* `Session.recorded`: the distances that the resolver finds for a call;
* `Session.Fresh`: a number that was not given away has no distance;
* **`Session.numbers_of_calls`**: numbers never collide, and a distance that is known never changes.
-/

namespace Lox.Session

/-- The numbers of the occurrences in the tree of a call. -/
def ids (s : Session) (call : Call) : List ExprId := Stmt.idsAll (s.parsed call).tree

/-- The numbers of the occurrences in the trees of several calls. -/
def idsAll (s : Session) : List Call → List ExprId
  | [] => []
  | call :: rest => s.ids call ++ (s.after call).idsAll rest

/-- The distances that the resolver finds for the tree of a call. -/
def recorded (s : Session) (call : Call) : Distances :=
  ((s.resolution? call).map Resolution.distances).getD ∅

/-- No distance is known for a number that was not given away. -/
def Fresh (s : Session) : Prop := ∀ id, s.nextId ≤ id → s.machine.distances[id]? = none

variable {s : Session}

/-! ## Ranges of numbers -/

theorem numbered_ids (s : Session) (call : Call) :
    s.nextId ≤ (s.after call).nextId ∧ Numbered s.nextId (s.after call).nextId (s.ids call) := by
  rw [nextId_after]
  cases call with
  | run source fuel => exact numbered_parse source s.nextId
  | evaluate source fuel =>
    obtain ⟨hle, hnumbered⟩ := numbered_parseExpression source s.nextId
    refine ⟨hle, ?_⟩
    unfold ids parsed
    cases htree : (parseExpression source s.nextId).tree with
    | none => simpa [htree, Stmt.idsAll] using Numbered.nil
    | some e => simpa [htree, Expr.idsOption, Stmt.idsAll, Stmt.ids] using hnumbered
  | setPrinter answers => exact ⟨Nat.le_refl _, .nil⟩

theorem numbered_idsAll (s : Session) (calls : List Call) :
    s.nextId ≤ (s.afterAll calls).nextId ∧
      Numbered s.nextId (s.afterAll calls).nextId (s.idsAll calls) := by
  induction calls generalizing s with
  | nil => exact ⟨Nat.le_refl _, .nil⟩
  | cons call rest ih =>
    obtain ⟨hle, hnumbered⟩ := numbered_ids s call
    obtain ⟨hle', hnumbered'⟩ := ih (s.after call)
    exact ⟨Nat.le_trans hle hle', hnumbered.append hnumbered' hle hle'⟩

/-- The resolver records distances of occurrences in the tree of the call only. -/
theorem mem_ids_of_recorded {call : Call} {id : ExprId} {d : Nat}
    (h : (s.recorded call)[id]? = some d) : id ∈ s.ids call := by
  by_cases hid : id ∈ s.ids call
  · exact hid
  · unfold recorded resolution? at h
    split at h
    · rw [Option.map_some, Option.getD_some, distances_of_resolve _ hid] at h
      cases h
    · simp at h

/-! ## Distances -/

theorem distances_after_of_recorded {call : Call} {id : ExprId}
    (h : (s.recorded call)[id]? = none) :
    (s.after call).machine.distances[id]? = s.machine.distances[id]? := by
  rcases distances_after s call with hd | ⟨r, hr, hd⟩
  · rw [hd]
  · have hrid : r.distances[id]? = none := by simpa [recorded, hr] using h
    rw [hd, Std.TreeMap.getElem?_union, hrid, Option.none_or]

theorem recorded_of_not_mem {call : Call} {id : ExprId} (h : id ∉ s.ids call) :
    (s.recorded call)[id]? = none :=
  Option.eq_none_iff_forall_ne_some.mpr fun _ hd => h (mem_ids_of_recorded hd)

/-- The distance of a number that was given away before stays what it is. -/
theorem distances_after_of_lt {id : ExprId} (h : id < s.nextId) (call : Call) :
    (s.after call).machine.distances[id]? = s.machine.distances[id]? := by
  refine distances_after_of_recorded (recorded_of_not_mem fun hid => ?_)
  exact Nat.not_le_of_lt h ((numbered_ids s call).2.first_le id hid)

theorem distances_afterAll_of_lt {id : ExprId} (h : id < s.nextId) (calls : List Call) :
    (s.afterAll calls).machine.distances[id]? = s.machine.distances[id]? := by
  induction calls generalizing s with
  | nil => rfl
  | cons call rest ih =>
    have hlt : id < (s.after call).nextId := Nat.lt_of_lt_of_le h (numbered_ids s call).1
    exact (ih hlt).trans (distances_after_of_lt h call)

theorem fresh_start (clock : Nat → Float) : (start clock).Fresh := fun _ _ => rfl

theorem Fresh.after (h : s.Fresh) (call : Call) : (s.after call).Fresh := by
  intro id hid
  obtain ⟨hle, hnumbered⟩ := numbered_ids s call
  rw [distances_after_of_recorded (recorded_of_not_mem fun hmem => ?_)]
  · exact h id (Nat.le_trans hle hid)
  · exact Nat.not_le_of_lt (hnumbered.lt_next id hmem) hid

theorem Fresh.afterAll (h : s.Fresh) (calls : List Call) : (s.afterAll calls).Fresh := by
  induction calls generalizing s with
  | nil => exact h
  | cons call rest ih => exact ih (h.after call)

/-- **Numbers never collide over a session.** The occurrences in the trees of all calls have
pairwise different numbers, whatever the outcomes, and the distance of an occurrence stays,
whatever follows. -/
theorem numbers_of_calls (clock : Nat → Float) (calls : List Call) :
    ((start clock).idsAll calls).Nodup ∧
      ∀ before call later, calls = before ++ call :: later →
        let s := (start clock).afterAll before
        let s' := s.after call
        (∀ id ∈ s.ids call, s.nextId ≤ id ∧ id < s'.nextId) ∧
        (∀ id d, (s.recorded call)[id]? = some d →
          s.nextId ≤ id ∧ id < s'.nextId ∧ s.machine.distances[id]? = none) ∧
        (s'.machine.distances = s.machine.distances ∨
          s'.machine.distances = s.machine.distances ∪ s.recorded call) ∧
        ∀ id < s'.nextId,
          (s'.afterAll later).machine.distances[id]? = s'.machine.distances[id]? := by
  refine ⟨(numbered_idsAll (start clock) calls).2.nodup, ?_⟩
  intro before call later _ s s'
  have hfresh : s.Fresh := (fresh_start clock).afterAll before
  have hrange : ∀ id ∈ s.ids call, s.nextId ≤ id ∧ id < s'.nextId := fun id hid =>
    ⟨(numbered_ids s call).2.first_le id hid, (numbered_ids s call).2.lt_next id hid⟩
  refine ⟨hrange, fun id d hd => ?_, ?_, fun id hid => distances_afterAll_of_lt hid later⟩
  · obtain ⟨hle, hlt⟩ := hrange id (mem_ids_of_recorded hd)
    exact ⟨hle, hlt, hfresh id hle⟩
  · rcases distances_after s call with hd | ⟨r, hr, hd⟩
    · exact .inl hd
    · right
      rw [hd, recorded, hr, Option.map_some, Option.getD_some]

end Lox.Session
