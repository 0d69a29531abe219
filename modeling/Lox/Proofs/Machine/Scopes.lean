import Lox.Machine.Scopes

/-!
# Opening scopes and binding names

* `own?_push`, `parent?_push`: a new scope is empty and leaves the others alone;
* `own?_define`, `parent?_define`: binding a name changes what one scope binds one name to;
* `ancestor_succ`, `holderAt?_eq`: scopes along a chain.
-/

namespace Lox.Scopes

variable {α : Type} (s : Scopes α)

theorem size_push (parent : Option ScopeId) : (s.push parent).2.size = s.size + 1 :=
  Array.size_push _

theorem own?_eq_none {scope : ScopeId} (h : s.size ≤ scope) (name : String) :
    s.own? scope name = none := by
  rw [own?, Array.getElem?_eq_none h]
  rfl

theorem own?_push (parent : Option ScopeId) (scope : ScopeId) (name : String) :
    (s.push parent).2.own? scope name = s.own? scope name := by
  by_cases h : scope = s.size
  · subst h
    rw [own?_eq_none s (Nat.le_refl _), own?]
    show ((s.toArray.push _)[s.toArray.size]?).bind _ = none
    rw [Array.getElem?_push_size]
    rfl
  · show ((s.toArray.push _)[scope]?).bind _ = _
    rw [Array.getElem?_push, if_neg (show ¬scope = s.toArray.size from h)]
    rfl

theorem parent?_push_size {parent : ScopeId} (h : parent < s.size) :
    (s.push (some parent)).2.parent? s.size = some parent := by
  rw [parent?]
  show ((s.toArray.push _)[s.toArray.size]?).bind _ = _
  rw [Array.getElem?_push_size]
  show (some parent).filter (· < s.toArray.size) = some parent
  rw [Option.filter_some]
  exact if_pos (decide_eq_true h)

theorem parent?_push (parent : Option ScopeId) {scope : ScopeId} (h : scope < s.size) :
    (s.push parent).2.parent? scope = s.parent? scope := by
  show ((s.toArray.push _)[scope]?).bind _ = _
  rw [Array.getElem?_push, if_neg (show ¬scope = s.toArray.size from Nat.ne_of_lt h)]
  rfl

theorem size_define (scope : ScopeId) (name : String) (value : α) :
    (s.define scope name value).size = s.size :=
  Array.size_modify

theorem parent?_define (scope : ScopeId) (name : String) (value : α) (other : ScopeId) :
    (s.define scope name value).parent? other = s.parent? other := by
  show ((s.toArray.modify scope _)[other]?).bind _ = _
  rw [Array.getElem?_modify, parent?]
  split
  · cases s.toArray[other]? <;> rfl
  · rfl

theorem own?_define {scope : ScopeId} (h : scope < s.size) (name : String) (value : α)
    (other : ScopeId) (name' : String) :
    (s.define scope name value).own? other name' =
      if scope = other ∧ name = name' then some value else s.own? other name' := by
  show ((s.toArray.modify scope _)[other]?).bind _ = _
  rw [Array.getElem?_modify, own?]
  by_cases hs : scope = other
  · subst hs
    obtain ⟨sc, hsc⟩ : ∃ sc, s.toArray[scope]? = some sc := ⟨_, Array.getElem?_eq_getElem h⟩
    rw [if_pos rfl, hsc]
    show (sc.bindings.insert name value).get? name' = _
    rw [Bindings.get?_insert]
    by_cases hn : name = name'
    · rw [if_pos hn, if_pos ⟨rfl, hn⟩]
    · rw [if_neg hn, if_neg fun hc => hn hc.2]
      rfl
  · rw [if_neg hs, if_neg fun hc => hs hc.1]

theorem lt_size_of_parent? {scope outer : ScopeId} (h : s.parent? scope = some outer) :
    scope < s.size := by
  rcases Nat.lt_or_ge scope s.size with hlt | hge
  · exact hlt
  · rw [parent?, Array.getElem?_eq_none hge] at h
    cases h

theorem parent?_zero : s.parent? 0 = none := by
  cases h : s.parent? 0 with
  | none => rfl
  | some p => exact absurd (s.parent_lt 0 p h) (Nat.not_lt_zero p)

theorem ancestor_succ {scope outer : ScopeId} (h : s.parent? scope = some outer) (d : Nat) :
    s.ancestor scope (d + 1) = s.ancestor outer d := by
  rw [ancestor, h]
  rfl

/-- The scope at a distance that binds the name holds its binding. -/
theorem holderAt?_eq {scope holder : ScopeId} {d : Nat} {name : String}
    (h : s.ancestor scope d = some holder) (hown : (s.own? holder name).isSome = true) :
    s.holderAt? scope d name = some holder := by
  rw [holderAt?, h, Option.filter_some, if_pos hown]

theorem getAt_eq {scope holder : ScopeId} {d : Nat} (h : s.ancestor scope d = some holder)
    (name : String) : s.getAt scope d name = s.own? holder name := by
  rw [getAt, h]
  rfl

theorem exists_own?_of_getAt {scope : ScopeId} {d : Nat} {name : String} {v : α}
    (h : s.getAt scope d name = some v) : ∃ k, s.own? k name = some v := by
  rw [getAt] at h
  obtain ⟨k, -, hk⟩ := Option.bind_eq_some_iff.mp h
  exact ⟨k, hk⟩

end Lox.Scopes
