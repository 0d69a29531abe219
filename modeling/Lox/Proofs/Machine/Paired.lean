import Lox.Proofs.Binding.Shifted
import Lox.Proofs.Machine.Mirror
import Mathlib.Order.Basic

/-!
# Values and machines of a program and of its while form

The while form of a program opens more scopes. A scope of the one run stands for a scope of the
other one, closures lead to scopes that stand for each other, and everything else is the same.

* `Pairing`: which scopes stand for each other, in runs that go on side by side;
* `Closure.Pairs`, `ClassObject.Pairs`, `Value.Pairs`: corresponding values, which have the same
  kind and the same text;
* `BinaryOp.apply_pairs`, …: operators on corresponding values;
* `Pairing.Links`: the scopes that stand for each other bind names to corresponding values, and lie
  in scopes that do so; **`Pairing.Links.ancestor`**: related distances lead to such scopes;
* `Pairing.Joins`: two machines with corresponding contents, and so with corresponding globals:
  **`Pairing.Joins.global?`**.
-/

namespace Lox

/-- Scopes of two runs stand for each other: behind the padding of the scopes around the first
one. -/
abbrev Pairing := List Nat → ScopeId → ScopeId → Prop

namespace Pairing

variable {W : Pairing} {pads : List Nat} {i k : ScopeId}

/-- Two further scopes stand for each other. -/
def add (W : Pairing) (pads : List Nat) (i k : ScopeId) : Pairing := fun pads' i' k' =>
  W pads' i' k' ∨ pads' = pads ∧ i' = i ∧ k' = k

theorem le_add : W ≤ W.add pads i k := fun _ _ _ => Or.inl

theorem add_self : W.add pads i k pads i k := .inr ⟨rfl, rfl, rfl⟩

end Pairing

/-! ## Corresponding values -/

/-- The same names are bound, to corresponding things. -/
def Bindings.Rel {α : Type} (R : α → α → Prop) (b b' : Bindings α) : Prop :=
  ∀ name, Option.Rel R (b.get? name) (b'.get? name)

section Values

variable (T T' : Distances) (W : Pairing)

/-- Functions with the same text, but for `for` statements in their while form, in scopes that stand
for each other. An initializer is bound to its instance in such a scope. -/
inductive Closure.Pairs : Closure → Closure → Prop where
  | mk {pads f f' scope scope' isInitializer} : W pads scope scope' →
      Function.Matches T T' pads f f' → (isInitializer = true → ∃ outer, pads = 0 :: outer) →
      Closure.Pairs ⟨f, scope, isInitializer⟩ ⟨f', scope', isInitializer⟩

/-- Methods of corresponding classes; a call opens a scope for `this` first. -/
inductive Closure.PairsMethod : Closure → Closure → Prop where
  | mk {pads f f' scope scope' isInitializer} : W pads scope scope' →
      Function.Matches T T' (0 :: pads) f f' →
      Closure.PairsMethod ⟨f, scope, isInitializer⟩ ⟨f', scope', isInitializer⟩

/-- Classes with the same number and corresponding methods. -/
inductive ClassObject.Pairs : ClassObject → ClassObject → Prop where
  | base {id name methods methods'} :
      Bindings.Rel (Closure.PairsMethod T T' W) methods methods' →
      ClassObject.Pairs ⟨id, name, none, methods⟩ ⟨id, name, none, methods'⟩
  | derived {id name parent parent' methods methods'} : ClassObject.Pairs parent parent' →
      Bindings.Rel (Closure.PairsMethod T T' W) methods methods' →
      ClassObject.Pairs ⟨id, name, some parent, methods⟩ ⟨id, name, some parent', methods'⟩

/-- The same constant, or objects with the same number and corresponding contents. -/
inductive Value.Pairs : Value → Value → Prop where
  | nil : Value.Pairs .nil .nil
  | boolean (b) : Value.Pairs (.boolean b) (.boolean b)
  | number (x) : Value.Pairs (.number x) (.number x)
  | string (s) : Value.Pairs (.string s) (.string s)
  | function (id) {c c'} : Closure.Pairs T T' W c c' →
      Value.Pairs (.function id c) (.function id c')
  | native (f) : Value.Pairs (.native f) (.native f)
  | class {c c'} : ClassObject.Pairs T T' W c c' → Value.Pairs (.class c) (.class c')
  | instance (id) {c c'} : ClassObject.Pairs T T' W c c' →
      Value.Pairs (.instance id c) (.instance id c')

/-- Statements that ended alike. -/
inductive Completion.Pairs : Completion → Completion → Prop where
  | normal : Completion.Pairs .normal .normal
  | return {v v'} : Value.Pairs T T' W v v' → Completion.Pairs (.return v) (.return v')
  | break : Completion.Pairs .break .break
  | continue : Completion.Pairs .continue .continue

end Values

section Values

variable {T T' : Distances} {W W₁ : Pairing}

theorem rel_mono {α β : Type} {R S : α → β → Prop} {a : Option α} {b : Option β}
    (h : Option.Rel R a b) (hRS : ∀ x y, R x y → S x y) : Option.Rel S a b := by
  cases h with
  | none => exact .none
  | some hxy => exact .some (hRS _ _ hxy)

theorem Bindings.Rel.mono {α : Type} {R S : α → α → Prop} {b b' : Bindings α} (h : Rel R b b')
    (hRS : ∀ x y, R x y → S x y) : Rel S b b' := fun name => rel_mono (h name) hRS

theorem Bindings.Rel.insert {α : Type} {R : α → α → Prop} {b b' : Bindings α} {x x' : α}
    (h : Rel R b b') (hx : R x x') (name : String) :
    Rel R (b.insert name x) (b'.insert name x') := by
  intro n
  rw [get?_insert, get?_insert]
  split
  · exact .some hx
  · exact h n

/-! ### More scopes -/

theorem Closure.Pairs.mono {c c' : Closure} (h : Closure.Pairs T T' W c c') (hW : W ≤ W₁) :
    Closure.Pairs T T' W₁ c c' := by
  obtain ⟨hp, hf, hi⟩ := h
  exact .mk (hW _ _ _ hp) hf hi

theorem Closure.PairsMethod.mono {c c' : Closure} (h : Closure.PairsMethod T T' W c c')
    (hW : W ≤ W₁) : Closure.PairsMethod T T' W₁ c c' := by
  obtain ⟨hp, hf⟩ := h
  exact .mk (hW _ _ _ hp) hf

theorem ClassObject.Pairs.mono {c c' : ClassObject} (h : ClassObject.Pairs T T' W c c')
    (hW : W ≤ W₁) : ClassObject.Pairs T T' W₁ c c' := by
  induction h with
  | base hm => exact .base (hm.mono fun _ _ h => h.mono hW)
  | derived _ hm ih => exact .derived ih (hm.mono fun _ _ h => h.mono hW)

theorem Value.Pairs.mono {v v' : Value} (h : Value.Pairs T T' W v v') (hW : W ≤ W₁) :
    Value.Pairs T T' W₁ v v' := by
  cases h with
  | function id hc => exact .function id (hc.mono hW)
  | «class» hc => exact .class (hc.mono hW)
  | «instance» id hc => exact .instance id (hc.mono hW)
  | nil => exact .nil
  | boolean b => exact .boolean b
  | number x => exact .number x
  | string s => exact .string s
  | native f => exact .native f

/-! ### What corresponding values have in common -/

theorem Function.Matches.name {pads : List Nat} {f f' : Function}
    (h : Function.Matches T T' pads f f') : f'.name = f.name := by
  cases h
  rfl

theorem Function.Matches.params {pads : List Nat} {f f' : Function}
    (h : Function.Matches T T' pads f f') : f'.params = f.params := by
  cases h
  rfl

theorem Function.Matches.body {pads : List Nat} {f f' : Function}
    (h : Function.Matches T T' pads f f') : Stmt.MatchesAll T T' (0 :: pads) f.body f'.body := by
  cases h with
  | mk h => exact h

theorem Closure.Pairs.arity {c c' : Closure} (h : Closure.Pairs T T' W c c') :
    c'.arity = c.arity := by
  obtain ⟨-, hf, -⟩ := h
  exact congrArg List.length hf.params

theorem Closure.PairsMethod.arity {c c' : Closure} (h : Closure.PairsMethod T T' W c c') :
    c'.arity = c.arity := by
  obtain ⟨-, hf⟩ := h
  exact congrArg List.length hf.params

theorem ClassObject.Pairs.method? {c c' : ClassObject} (h : ClassObject.Pairs T T' W c c')
    (name : String) :
    Option.Rel (Closure.PairsMethod T T' W) (c.method? name) (c'.method? name) := by
  induction h with
  | @base id n methods methods' hm =>
    have hn := hm name
    rw [ClassObject.method?, ClassObject.method?]
    generalize methods.get? name = own, methods'.get? name = own' at hn
    cases hn with
    | none => exact .none
    | some h => exact .some h
  | @derived id n parent parent' methods methods' _ hm ih =>
    have hn := hm name
    rw [ClassObject.method?, ClassObject.method?]
    generalize methods.get? name = own, methods'.get? name = own' at hn
    cases hn with
    | none => exact ih
    | some h => exact .some h

theorem ClassObject.Pairs.arity {c c' : ClassObject} (h : ClassObject.Pairs T T' W c c') :
    c'.arity = c.arity := by
  have hinit := h.method? initializerName
  unfold ClassObject.arity ClassObject.initializer?
  generalize c.method? initializerName = own, c'.method? initializerName = own' at hinit
  cases hinit with
  | none => rfl
  | some h => exact h.arity

theorem ClassObject.Pairs.id {c c' : ClassObject} (h : ClassObject.Pairs T T' W c c') :
    c'.id = c.id := by
  cases h <;> rfl

theorem ClassObject.Pairs.name {c c' : ClassObject} (h : ClassObject.Pairs T T' W c c') :
    c'.name = c.name := by
  cases h <;> rfl

variable {v v' w w' : Value}

theorem Value.Pairs.kind (h : Value.Pairs T T' W v v') : v'.kind = v.kind := by
  cases h <;> rfl

theorem Value.Pairs.truthy (h : Value.Pairs T T' W v v') : v'.truthy = v.truthy := by
  cases h <;> rfl

/-- **Corresponding values are shown alike.** -/
theorem Value.Pairs.text (h : Value.Pairs T T' W v v') : v'.text = v.text := by
  cases h with
  | function id hc =>
    obtain ⟨-, hf, -⟩ := hc
    exact congrArg (fun t : Token => "<fn " ++ t.lexeme ++ ">") hf.name
  | «class» hc => exact congrArg (fun n => "<class " ++ n ++ ">") hc.name
  | «instance» id hc => exact congrArg (fun n => "<instance of " ++ n ++ ">") hc.name
  | _ => rfl

theorem Value.Pairs.equals (h : Value.Pairs T T' W v v') (hw : Value.Pairs T T' W w w') :
    v'.equals w' = v.equals w := by
  cases h with
  | «class» hc =>
    cases hw with
    | «class» hc' => simp only [Value.equals, hc.id, hc'.id]
    | _ => rfl
  | _ => cases hw <;> rfl

/-! ### Operators -/

/-- The same problem, or corresponding values. -/
def Value.PairsResult (T T' : Distances) (W : Pairing) (r r' : Except RuntimeProblem Value) :
    Prop :=
  match r, r' with
  | .ok v, .ok v' => Value.Pairs T T' W v v'
  | .error problem, .error problem' => problem' = problem
  | _, _ => False

theorem UnaryOp.apply_pairs (op : UnaryOp) (h : Value.Pairs T T' W v v') :
    Value.PairsResult T T' W (op.apply v) (op.apply v') := by
  cases op with
  | negate =>
    cases h with
    | number x => exact .number _
    | _ => rfl
  | not =>
    show Value.Pairs T T' W (.boolean !v.truthy) (.boolean !v'.truthy)
    rw [h.truthy]
    exact .boolean _

theorem BinaryOp.applyNumbers_pairs (op : BinaryOp) (x y : Float) :
    Value.PairsResult T T' W (op.applyNumbers x y) (op.applyNumbers x y) := by
  cases op with
  | divide =>
    rw [applyNumbers]
    split
    · rfl
    · exact .number _
  | add | subtract | multiply => exact .number _
  | _ => exact .boolean _

theorem BinaryOp.onNumbers_pairs (op : BinaryOp) (h : Value.Pairs T T' W v v')
    (hw : Value.Pairs T T' W w w') :
    Value.PairsResult T T' W (op.onNumbers v w) (op.onNumbers v' w') := by
  cases h with
  | number x =>
    cases hw with
    | number y => exact op.applyNumbers_pairs x y
    | _ => rfl
  | _ => rfl

/-- **Operators on corresponding values** have corresponding values or the same problem. -/
theorem BinaryOp.apply_pairs (op : BinaryOp) (h : Value.Pairs T T' W v v')
    (hw : Value.Pairs T T' W w w') :
    Value.PairsResult T T' W (op.apply v w) (op.apply v' w') := by
  cases op with
  | equal =>
    show Value.Pairs T T' W (.boolean (v.equals w)) (.boolean (v'.equals w'))
    rw [h.equals hw]
    exact .boolean _
  | notEqual =>
    show Value.Pairs T T' W (.boolean !v.equals w) (.boolean !v'.equals w')
    rw [h.equals hw]
    exact .boolean _
  | add =>
    cases h with
    | number x =>
      cases hw with
      | number y => exact .number _
      | _ => rfl
    | string s =>
      cases hw with
      | string t => exact .string _
      | _ => rfl
    | _ => rfl
  | _ => exact onNumbers_pairs _ h hw

theorem LogicalOp.decidedBy_pairs (op : LogicalOp) (h : Value.Pairs T T' W v v') :
    op.decidedBy v' = op.decidedBy v := by
  cases op <;> simp only [decidedBy, h.truthy]

theorem Literal.value_pairs (constant : Literal) :
    Value.Pairs T T' W constant.value constant.value := by
  cases constant with
  | number x => exact .number x
  | string s => exact .string s
  | boolean b => exact .boolean b
  | nil => exact .nil

theorem methodTable_pairs {pads : List Nat} {scope scope' : ScopeId} (hs : W pads scope scope')
    {fs fs' : List Function} (h : Function.MatchesAll T T' (0 :: pads) fs fs') :
    Bindings.Rel (Closure.PairsMethod T T' W) (Eval.methodTable scope fs)
      (Eval.methodTable scope' fs') := by
  have hrows {table table' : Bindings Closure}
      (htable : Bindings.Rel (Closure.PairsMethod T T' W) table table') :
      Bindings.Rel (Closure.PairsMethod T T' W)
        (fs.foldl (fun table f => table.insert f.name.lexeme ⟨f, scope, f.isInitializer⟩) table)
        (fs'.foldl (fun table f => table.insert f.name.lexeme ⟨f, scope', f.isInitializer⟩)
          table') := by
    induction fs generalizing fs' table table' with
    | nil =>
      cases h
      exact htable
    | cons f rest ih =>
      cases h with
      | @cons _ _ f' _ rest' hf hrest =>
        have hclosure : Closure.PairsMethod T T' W ⟨f, scope, f.isInitializer⟩
            ⟨f', scope', f'.isInitializer⟩ := by
          rw [Function.isInitializer, Function.isInitializer, hf.name]
          exact .mk hs hf
        rw [List.foldl_cons, List.foldl_cons, hf.name]
        exact ih hrest (htable.insert hclosure _)
  exact hrows fun _ => .none

end Values

/-! ## Scopes that stand for each other -/

/-- From the first scope a name is looked up in this scope alone. -/
theorem Scopes.holder?_zero {α : Type} (s : Scopes α) (name : String) :
    s.holder? 0 name = if (s.own? 0 name).isSome then some 0 else none := by
  rw [holder?]
  split
  · rfl
  · split
    · rfl
    · rename_i outer hp
      rw [s.parent?_zero] at hp
      cases hp

/-- What scopes that stand for each other have in common in two runs. -/
structure Pairing.Links (T T' : Distances) (W : Pairing) (s s' : Scopes Value) : Prop where
  lt_size : ∀ {pads i k}, W pads i k → i < s.size ∧ k < s'.size
  globals : W [0] 0 0
  /-- Scopes of the second run alone lie in scopes that stand for the same scope. -/
  pad : ∀ {n pads i k}, W ((n + 1) :: pads) i k → ∃ k', s'.parent? k = some k' ∧ W (n :: pads) i k'
  outer : ∀ {n pads i k}, W (0 :: n :: pads) i k →
    ∃ i' k', s.parent? i = some i' ∧ s'.parent? k = some k' ∧ W (n :: pads) i' k'
  own : ∀ {pads i k}, W (0 :: pads) i k → ∀ name,
    Option.Rel (Value.Pairs T T' W) (s.own? i name) (s'.own? k name)
  unique : ∀ {pads pads' i k i' k'}, W (0 :: pads) i k → W (0 :: pads') i' k' → (i = i' ↔ k = k')

namespace Pairing.Links

variable {T T' : Distances} {W : Pairing} {s s' : Scopes Value} {pads : List Nat} {i k : ScopeId}

/-- **Related distances lead to scopes that stand for each other.** -/
theorem ancestor (h : W.Links T T' s s') {d d' : Nat} (hd : Shifts pads d d') (hp : W pads i k) :
    ∃ outer a a', s.ancestor i d = some a ∧ s'.ancestor k d' = some a' ∧ W (0 :: outer) a a' := by
  induction hd generalizing i k with
  | here => exact ⟨_, i, k, rfl, rfl, hp⟩
  | @out pads d d' hd ih =>
    obtain ⟨n, rest, rfl⟩ : ∃ n rest, pads = n :: rest := by
      cases hd <;> exact ⟨_, _, rfl⟩
    obtain ⟨i', k', hi, hk, hp'⟩ := h.outer hp
    rw [s.ancestor_succ hi, s'.ancestor_succ hk]
    exact ih hp'
  | pad _ ih =>
    obtain ⟨k', hk, hp'⟩ := h.pad hp
    rw [s'.ancestor_succ hk]
    exact ih hp'

theorem getAt (h : W.Links T T' s s') {d d' : Nat} (hd : Shifts pads d d') (hp : W pads i k)
    (name : String) :
    Option.Rel (Value.Pairs T T' W) (s.getAt i d name) (s'.getAt k d' name) := by
  obtain ⟨outer, a, a', ha, ha', hp'⟩ := h.ancestor hd hp
  rw [s.getAt_eq ha, s'.getAt_eq ha']
  exact h.own hp' name

theorem holderAt? (h : W.Links T T' s s') {d d' : Nat} (hd : Shifts pads d d') (hp : W pads i k)
    (name : String) :
    Option.Rel (fun a a' => ∃ outer, W (0 :: outer) a a') (s.holderAt? i d name)
      (s'.holderAt? k d' name) := by
  obtain ⟨outer, a, a', ha, ha', hp'⟩ := h.ancestor hd hp
  have hown := h.own hp' name
  rw [Scopes.holderAt?, Scopes.holderAt?, ha, ha', Option.filter_some, Option.filter_some]
  generalize s.own? a name = own, s'.own? a' name = own' at hown
  cases hown with
  | none => exact .none
  | some _ => exact .some ⟨outer, hp'⟩

theorem holder?_globals (h : W.Links T T' s s') (name : String) :
    Option.Rel (fun a a' => ∃ outer, W (0 :: outer) a a') (s.holder? 0 name)
      (s'.holder? 0 name) := by
  have hown := h.own h.globals name
  rw [Scopes.holder?_zero, Scopes.holder?_zero]
  generalize s.own? 0 name = own, s'.own? 0 name = own' at hown
  cases hown with
  | none => exact .none
  | some _ => exact .some ⟨[], h.globals⟩

theorem opened (h : W.Links T T' s s') (hp : W pads i k) :
    (W.add (0 :: pads) s.size s'.size).Links T T' (s.push (some i)).2 (s'.push (some k)).2 where
  lt_size := by
    rintro pads' i' k' (hp' | ⟨-, rfl, rfl⟩) <;> rw [Scopes.size_push, Scopes.size_push]
    · exact ⟨Nat.lt_succ_of_lt (h.lt_size hp').1, Nat.lt_succ_of_lt (h.lt_size hp').2⟩
    · exact ⟨Nat.lt_succ_self _, Nat.lt_succ_self _⟩
  globals := .inl h.globals
  pad := by
    rintro n pads' i' k' (hp' | ⟨hpads, -, -⟩)
    · rw [Scopes.parent?_push _ _ (h.lt_size hp').2]
      obtain ⟨k'', hk, hp''⟩ := h.pad hp'
      exact ⟨k'', hk, .inl hp''⟩
    · cases hpads
  outer := by
    rintro n pads' i' k' (hp' | ⟨hpads, rfl, rfl⟩)
    · rw [Scopes.parent?_push _ _ (h.lt_size hp').1, Scopes.parent?_push _ _ (h.lt_size hp').2]
      obtain ⟨i'', k'', hi, hk, hp''⟩ := h.outer hp'
      exact ⟨i'', k'', hi, hk, .inl hp''⟩
    · cases hpads
      exact ⟨i, k, Scopes.parent?_push_size _ (h.lt_size hp).1,
        Scopes.parent?_push_size _ (h.lt_size hp).2, .inl hp⟩
  own := by
    rintro pads' i' k' (hp' | ⟨-, rfl, rfl⟩) name <;> rw [Scopes.own?_push, Scopes.own?_push]
    · exact rel_mono (h.own hp' name) fun _ _ hv => hv.mono le_add
    · rw [s.own?_eq_none (Nat.le_refl _), s'.own?_eq_none (Nat.le_refl _)]
      exact .none
  unique := by
    rintro pads₁ pads₂ i₁ k₁ i₂ k₂ (h₁ | ⟨-, rfl, rfl⟩) (h₂ | ⟨-, rfl, rfl⟩)
    · exact h.unique h₁ h₂
    · exact iff_of_false (Nat.ne_of_lt (h.lt_size h₁).1) (Nat.ne_of_lt (h.lt_size h₁).2)
    · exact iff_of_false (Nat.ne_of_gt (h.lt_size h₂).1) (Nat.ne_of_gt (h.lt_size h₂).2)
    · exact iff_of_true rfl rfl

/-- A scope is opened in the second run alone. -/
theorem padded (h : W.Links T T' s s') {n : Nat} (hp : W (n :: pads) i k) :
    (W.add ((n + 1) :: pads) i s'.size).Links T T' s (s'.push (some k)).2 where
  lt_size := by
    rintro pads' i' k' (hp' | ⟨-, rfl, rfl⟩) <;> rw [Scopes.size_push]
    · exact ⟨(h.lt_size hp').1, Nat.lt_succ_of_lt (h.lt_size hp').2⟩
    · exact ⟨(h.lt_size hp).1, Nat.lt_succ_self _⟩
  globals := .inl h.globals
  pad := by
    rintro n' pads' i' k' (hp' | ⟨hpads, rfl, rfl⟩)
    · rw [Scopes.parent?_push _ _ (h.lt_size hp').2]
      obtain ⟨k'', hk, hp''⟩ := h.pad hp'
      exact ⟨k'', hk, .inl hp''⟩
    · cases hpads
      exact ⟨k, Scopes.parent?_push_size _ (h.lt_size hp).2, .inl hp⟩
  outer := by
    rintro n' pads' i' k' (hp' | ⟨hpads, -, -⟩)
    · rw [Scopes.parent?_push _ _ (h.lt_size hp').2]
      obtain ⟨i'', k'', hi, hk, hp''⟩ := h.outer hp'
      exact ⟨i'', k'', hi, hk, .inl hp''⟩
    · cases hpads
  own := by
    rintro pads' i' k' (hp' | ⟨hpads, -, -⟩) name
    · rw [Scopes.own?_push]
      exact rel_mono (h.own hp' name) fun _ _ hv => hv.mono le_add
    · cases hpads
  unique := by
    rintro pads₁ pads₂ i₁ k₁ i₂ k₂ (h₁ | ⟨hpads, -, -⟩) (h₂ | ⟨hpads, -, -⟩)
    · exact h.unique h₁ h₂
    all_goals cases hpads

theorem defined (h : W.Links T T' s s') (hp : W (0 :: pads) i k) (name : String) {v v' : Value}
    (hv : Value.Pairs T T' W v v') : W.Links T T' (s.define i name v) (s'.define k name v') where
  lt_size := by
    rw [Scopes.size_define, Scopes.size_define]
    exact h.lt_size
  globals := h.globals
  pad := by
    intro n pads' i' k' hp'
    rw [Scopes.parent?_define]
    exact h.pad hp'
  outer := by
    intro n pads' i' k' hp'
    rw [Scopes.parent?_define, Scopes.parent?_define]
    exact h.outer hp'
  own := by
    intro pads' i' k' hp' name'
    rw [Scopes.own?_define _ (h.lt_size hp).1, Scopes.own?_define _ (h.lt_size hp).2]
    simp only [h.unique hp hp']
    split
    · exact .some hv
    · exact h.own hp' name'
  unique := h.unique

end Pairing.Links

/-! ## Machines -/

/-- Two machines that stand in scopes that stand for each other and have corresponding contents. -/
structure Pairing.Joins (T T' : Distances) (W : Pairing) (i k : ScopeId) (m m' : Machine) :
    Prop where
  links : W.Links T T' m.scopes m'.scopes
  size : m'.fields.size = m.fields.size
  fields : ∀ id : InstanceId,
    Option.Rel (Bindings.Rel (Value.Pairs T T' W)) m.fields[id]? m'.fields[id]?
  current : m.current = i
  current' : m'.current = k
  globals : m.globals = 0
  globals' : m'.globals = 0
  distances : m.distances = T
  distances' : m'.distances = T'
  nextObject : m'.nextObject = m.nextObject
  printed : m'.printed = m.printed
  printer : m'.printer = m.printer
  writes : m'.writes = m.writes
  clock : m'.clock = m.clock
  readings : m'.readings = m.readings

namespace Pairing.Joins

variable {T T' : Distances} {W W₁ : Pairing} {m m' : Machine} {pads : List Nat}
  {i k i' k' : ScopeId}

theorem move (h : W.Joins T T' i k m m') (i' k' : ScopeId) :
    W.Joins T T' i' k' { m with current := i' } { m' with current := k' } :=
  { h with current := rfl, current' := rfl }

theorem rescoped (h : W.Joins T T' i k m m') (hW : W ≤ W₁) {s s' : Scopes Value}
    (hs : W₁.Links T T' s s') :
    W₁.Joins T T' i k { m with scopes := s } { m' with scopes := s' } :=
  { h with
    links := hs
    fields := fun id => rel_mono (h.fields id) fun _ _ hb => hb.mono fun _ _ hv => hv.mono hW }

theorem opened (h : W.Joins T T' i k m m') (hp : W pads i' k') :
    (W.add (0 :: pads) m.scopes.size m'.scopes.size).Joins T T' i k (m.opened i') (m'.opened k') :=
  h.rescoped le_add (h.links.opened hp)

theorem padded (h : W.Joins T T' i k m m') {n : Nat} (hp : W (n :: pads) i' k') :
    (W.add ((n + 1) :: pads) i' m'.scopes.size).Joins T T' i k m (m'.opened k') :=
  h.rescoped le_add (h.links.padded hp)

theorem defined (h : W.Joins T T' i k m m') (hp : W (0 :: pads) i' k') (name : String)
    {v v' : Value} (hv : Value.Pairs T T' W v v') :
    W.Joins T T' i k (m.defined i' name v) (m'.defined k' name v') :=
  h.rescoped (le_refl W) (h.links.defined hp name hv)

theorem instantiated (h : W.Joins T T' i k m m') :
    W.Joins T T' i k m.instantiated m'.instantiated :=
  { h with
    size := by
      show (m'.fields.push _).size = (m.fields.push _).size
      rw [Array.size_push, Array.size_push, h.size]
    fields := fun id => by
      show Option.Rel _ (m.fields.push .empty)[id]? (m'.fields.push .empty)[id]?
      rw [Array.getElem?_push, Array.getElem?_push, h.size]
      split
      · exact .some fun _ => .none
      · exact h.fields id }

theorem written (h : W.Joins T T' i k m m') (id : InstanceId) (name : String) {v v' : Value}
    (hv : Value.Pairs T T' W v v') :
    W.Joins T T' i k { m with fields := m.fields.modify id (·.insert name v) }
      { m' with fields := m'.fields.modify id (·.insert name v') } :=
  { h with
    size := by rw [Array.size_modify, Array.size_modify, h.size]
    fields := fun id' => by
      rw [Array.getElem?_modify, Array.getElem?_modify]
      split
      · exact rel_map (h.fields id') fun _ _ hb => hb.insert hv name
      · exact h.fields id' }

theorem field (h : W.Joins T T' i k m m') (id : InstanceId) (name : String) :
    Option.Rel (Value.Pairs T T' W) (m.fields[id]?.bind (·.get? name))
      (m'.fields[id]?.bind (·.get? name)) := by
  have hfields := h.fields id
  generalize m.fields[id]? = b, m'.fields[id]? = b' at hfields
  cases hfields with
  | none => exact .none
  | some hb => exact hb name

/-- **Machines with corresponding contents have corresponding globals.** -/
theorem global? (h : W.Joins T T' i k m m') (name : String) :
    Option.Rel (Value.Pairs T T' W) (m.global? name) (m'.global? name) := by
  unfold Machine.global?
  rw [h.globals, h.globals']
  exact h.links.getAt .here h.links.globals name

theorem output (h : W.Joins T T' i k m m') : m'.output = m.output := by
  rw [Machine.output, h.printed]
  rfl

theorem clearOutput (h : W.Joins T T' i k m m') :
    W.Joins T T' i k m.clearOutput m'.clearOutput :=
  { h with printed := rfl }

end Pairing.Joins

end Lox
