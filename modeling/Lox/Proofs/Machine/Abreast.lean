import Lox.Proofs.Machine.Paired

/-!
# Runs that go on abreast

A program and its while form do the same at every step, in scopes that stand for each other. The one
of them that may be the deeper run never reaches its bound before the other one does.

* `Pace`: which run may be the deeper one;
* `Ends`, `Abreast`: two actions end alike wherever they begin alike;
* **`Abreast.bind`**, `Abreast.map`, …: actions made up of parts that go on abreast;
* **`Abreast.within`**, **`Abreast.padded`**: actions in a scope that both runs open, or the second
  one alone;
* `abreast_read`, `abreast_define`, …: single steps.
-/

namespace Lox

/-- Which of two runs may be the deeper one. -/
inductive Pace where
  /-- The while form has depth enough for whatever the program does. -/
  | ahead
  /-- The program has depth enough for whatever its while form does. -/
  | behind

section Definitions

variable (T T' : Distances) (pace : Pace) {α β : Type}

/-- Two actions ended with corresponding values or the same failure, or the one that may not be the
deeper one reached its bound. -/
inductive Ends (W : Pairing) (i k : ScopeId) (R : Pairing → α → β → Prop) :
    EStateM.Result Interrupt Machine α → EStateM.Result Interrupt Machine β → Prop where
  | ok {W₁ a b m m'} : W ≤ W₁ → W₁.Joins T T' i k m m' → R W₁ a b →
      Ends W i k R (.ok a m) (.ok b m')
  | failure {W₁ f m m'} : W ≤ W₁ → W₁.Joins T T' i k m m' →
      Ends W i k R (.error (.failure f) m) (.error (.failure f) m')
  | original {m r} : pace = .ahead → Ends W i k R (.error .outOfFuel m) r
  | lowered {r m'} : pace = .behind → Ends W i k R r (.error .outOfFuel m')

/-- Two actions end alike wherever they begin alike, in scopes that stand for each other. -/
def Abreast (W : Pairing) (i k : ScopeId) (R : Pairing → α → β → Prop) (x : Eval α) (y : Eval β) :
    Prop :=
  ∀ W₁, W ≤ W₁ → ∀ m m', W₁.Joins T T' i k m m' → Ends T T' pace W₁ i k R (x m) (y m')

end Definitions

section Laws

variable {T T' : Distances} {pace : Pace} {α β γ δ : Type} {W W₁ : Pairing} {i k : ScopeId}
  {R : Pairing → α → β → Prop} {S : Pairing → γ → δ → Prop} {x : Eval α} {y : Eval β}

theorem Ends.mono {r : EStateM.Result Interrupt Machine α} {r' : EStateM.Result Interrupt Machine β}
    (h : Ends T T' pace W₁ i k R r r') (hW : W ≤ W₁) : Ends T T' pace W i k R r r' := by
  cases h with
  | ok h hj hab => exact .ok (hW.trans h) hj hab
  | failure h hj => exact .failure (hW.trans h) hj
  | original hp => exact .original hp
  | lowered hp => exact .lowered hp

namespace Abreast

theorem mono (h : Abreast T T' pace W i k R x y) (hW : W ≤ W₁) : Abreast T T' pace W₁ i k R x y :=
  fun W₂ hW₂ => h W₂ (hW.trans hW₂)

theorem pure {a : α} {b : β} (h : ∀ W₁, W ≤ W₁ → R W₁ a b) :
    Abreast T T' pace W i k R (Pure.pure a) (Pure.pure b) :=
  fun W₁ hW _ _ hj => .ok (le_refl W₁) hj (h W₁ hW)

theorem fail (problem : RuntimeProblem) (place : Token) :
    Abreast T T' pace W i k R (Eval.fail problem place) (Eval.fail problem place) :=
  fun W₁ _ _ _ hj => .failure (le_refl W₁) hj

/-- **Parts that go on abreast make up actions that do.** -/
theorem bind {f : α → Eval γ} {f' : β → Eval δ} (h : Abreast T T' pace W i k R x y)
    (hf : ∀ W₁, W ≤ W₁ → ∀ a b, R W₁ a b → Abreast T T' pace W₁ i k S (f a) (f' b)) :
    Abreast T T' pace W i k S (x >>= f) (y >>= f') := by
  intro W₁ hW m m' hj
  have hxy := h W₁ hW m m' hj
  generalize hx : x m = r, hy : y m' = r' at hxy
  cases hxy with
  | @ok W₂ a b m₁ m₁' hW₂ hj₂ hab =>
    rw [bind_of_ok hx, bind_of_ok hy]
    exact (hf W₂ (hW.trans hW₂) a b hab W₂ (le_refl W₂) m₁ m₁' hj₂).mono hW₂
  | failure hW₂ hj₂ =>
    rw [bind_of_error hx, bind_of_error hy]
    exact .failure hW₂ hj₂
  | original hp =>
    rw [bind_of_error hx]
    exact .original hp
  | lowered hp =>
    rw [bind_of_error hy]
    exact .lowered hp

theorem map {f : α → γ} {f' : β → γ} (h : Abreast T T' pace W i k R x y)
    (hf : ∀ W a b, R W a b → f a = f' b) :
    Abreast T T' pace W i k (fun _ => Eq) (f <$> x) (f' <$> y) :=
  h.bind fun W₁ _ a b hab => pure fun _ _ => hf W₁ a b hab

theorem get {f : Machine → Eval γ} {f' : Machine → Eval δ}
    (hf : ∀ W₁, W ≤ W₁ → ∀ m m', W₁.Joins T T' i k m m' →
      Abreast T T' pace W₁ i k S (f m) (f' m')) :
    Abreast T T' pace W i k S (MonadState.get >>= f) (MonadState.get >>= f') :=
  fun W₁ hW m m' hj => hf W₁ hW m m' hj W₁ (le_refl W₁) m m' hj

theorem within {i' k' : ScopeId} (h : Abreast T T' pace W i' k' R x y) :
    Abreast T T' pace W i k R (Eval.within i' x) (Eval.within k' y) := by
  intro W₁ hW m m' hj
  have hxy := h W₁ hW _ _ (hj.move i' k')
  unfold Eval.within
  generalize x { m with current := i' } = r, y { m' with current := k' } = r' at hxy
  cases hxy with
  | ok hW₂ hj₂ hab => exact .ok hW₂ (hj.current ▸ hj.current' ▸ hj₂.move _ _) hab
  | failure hW₂ hj₂ => exact .failure hW₂ (hj.current ▸ hj.current' ▸ hj₂.move _ _)
  | original hp => exact .original hp
  | @lowered r m₁ hp => cases r <;> exact .lowered hp

theorem strengthen {P : α → Prop} (h : Abreast T T' pace W i k R x y)
    (hx : ∀ m, Ensures x m (fun a _ => P a) fun _ _ => True) :
    Abreast T T' pace W i k (fun W a b => R W a b ∧ P a) x y := by
  intro W₁ hW m m' hj
  have hxy := h W₁ hW m m' hj
  have hP := hx m
  unfold Ensures at hP
  generalize x m = r, y m' = r' at hxy hP
  cases hxy with
  | ok hW₂ hj₂ hab => exact .ok hW₂ hj₂ ⟨hab, hP⟩
  | failure hW₂ hj₂ => exact .failure hW₂ hj₂
  | original hp => exact .original hp
  | lowered hp => exact .lowered hp

/-- **An action of the second run in a scope of its own**, in which nothing is declared. -/
theorem padded {pads : List Nat} {n : Nat} (hp : W (n :: pads) i k)
    (h : ∀ W₁, W ≤ W₁ → ∀ k', W₁ ((n + 1) :: pads) i k' → Abreast T T' pace W₁ i k' R x y) :
    Abreast T T' pace W i k R x
      (MonadState.get >>= fun m => Eval.openScope m.current >>= fun scope =>
        Eval.within scope y) := by
  intro W₁ hW m m' hj
  have hinner := hj.padded (hW _ _ _ hp)
  have hxy := h _ (hW.trans Pairing.le_add) _ Pairing.add_self _ (le_refl _) _ _
    (hinner.move i m'.scopes.size)
  have hm : ({ m with current := i } : Machine) = m := by rw [← hj.current]
  have hy : (MonadState.get >>= fun m => Eval.openScope m.current >>= fun scope =>
      Eval.within scope y) m' = Eval.within m'.scopes.size y (m'.opened k) := by
    rw [← hj.current']
    rfl
  rw [hm] at hxy
  rw [hy, Eval.within]
  generalize x m = r, y { m'.opened k with current := m'.scopes.size } = r' at hxy
  cases hxy with
  | ok hW₂ hj₂ hab =>
    exact .ok (Pairing.le_add.trans hW₂) { hj₂ with current' := hj.current' } hab
  | failure hW₂ hj₂ =>
    exact .failure (Pairing.le_add.trans hW₂) { hj₂ with current' := hj.current' }
  | original hp => exact .original hp
  | @lowered r m₁ hp => exact .lowered hp

theorem mapM {f f' : γ → Eval Value} {l : List γ}
    (h : ∀ c ∈ l, ∀ W₁, W ≤ W₁ → Abreast T T' pace W₁ i k (Value.Pairs T T') (f c) (f' c)) :
    Abreast T T' pace W i k (fun W => List.Forall₂ (Value.Pairs T T' W)) (l.mapM f)
      (l.mapM f') := by
  induction l generalizing W with
  | nil => exact pure fun _ _ => .nil
  | cons c l ih =>
    rw [List.mapM_cons, List.mapM_cons]
    refine (h c List.mem_cons_self W (le_refl W)).bind fun W₁ hW v v' hv => ?_
    refine (ih fun c hc W₂ hW₂ => h c (List.mem_cons_of_mem _ hc) W₂ (hW.trans hW₂)).bind
      fun W₂ hW₂ vs vs' hvs => pure fun W₃ hW₃ => ?_
    exact .cons (hv.mono (hW₂.trans hW₃)) (hvs.imp fun _ _ h => h.mono hW₃)

theorem ofExcept {place : Token} {r r' : Except RuntimeProblem Value}
    (h : Value.PairsResult T T' W r r') :
    Abreast T T' pace W i k (Value.Pairs T T') (Eval.ofExcept place r)
      (Eval.ofExcept place r') := by
  cases r with
  | ok v =>
    cases r' with
    | ok v' => exact pure fun _ hW => Value.Pairs.mono h hW
    | error problem => exact h.elim
  | error problem =>
    cases r' with
    | ok v' => exact h.elim
    | error problem' =>
      cases h
      exact fail problem place

end Abreast

end Laws

/-! ## Single steps -/

section Steps

variable {T T' : Distances} {pace : Pace} {W : Pairing} {i k : ScopeId} {pads : List Nat}

theorem Abreast.step {α β : Type} {R : Pairing → α → β → Prop} {x : Eval α} {y : Eval β}
    (h : ∀ W₁, W ≤ W₁ → ∀ m m', W₁.Joins T T' i k m m' →
      ∃ W₂ a b m₁ m₁', W₁ ≤ W₂ ∧ x m = .ok a m₁ ∧ y m' = .ok b m₁' ∧ W₂.Joins T T' i k m₁ m₁' ∧
        R W₂ a b) : Abreast T T' pace W i k R x y := by
  intro W₁ hW m m' hj
  obtain ⟨W₂, a, b, m₁, m₁', hW₂, hx, hy, hj₂, hab⟩ := h W₁ hW m m' hj
  rw [hx, hy]
  exact .ok hW₂ hj₂ hab

theorem abreast_openScope {i' k' : ScopeId} (hp : W pads i' k') :
    Abreast T T' pace W i k (fun W => W (0 :: pads)) (Eval.openScope i') (Eval.openScope k') :=
  .step fun _ hW _ _ hj => ⟨_, _, _, _, _, Pairing.le_add, rfl, rfl, hj.opened (hW _ _ _ hp),
    Pairing.add_self⟩

theorem abreast_define {i' k' : ScopeId} (hp : W (0 :: pads) i' k') (name : String) {v v' : Value}
    (hv : Value.Pairs T T' W v v') :
    Abreast T T' pace W i k (fun _ => Eq) (Eval.define i' name v) (Eval.define k' name v') :=
  .step fun W₁ hW _ _ hj => ⟨W₁, _, _, _, _, le_refl W₁, rfl, rfl,
    hj.defined (hW _ _ _ hp) name (hv.mono hW), rfl⟩

theorem abreast_defineHere (hp : W (0 :: pads) i k) (name : String) {v v' : Value}
    (hv : Value.Pairs T T' W v v') :
    Abreast T T' pace W i k (fun _ => Eq) (Eval.defineHere name v) (Eval.defineHere name v') := by
  refine .get fun W₁ hW m m' hj => ?_
  rw [hj.current, hj.current']
  exact abreast_define (hW _ _ _ hp) name (hv.mono hW)

theorem abreast_freshObject :
    Abreast T T' pace W i k (fun _ => Eq) Eval.freshObject Eval.freshObject :=
  .step fun W₁ _ _ _ hj => ⟨W₁, _, _, _, _, le_refl W₁, rfl, rfl,
    { hj with nextObject := congrArg (· + 1) hj.nextObject }, hj.nextObject.symm⟩

theorem abreast_freshInstance {c c' : ClassObject} (hc : ClassObject.Pairs T T' W c c') :
    Abreast T T' pace W i k (Value.Pairs T T') (Eval.freshInstance c) (Eval.freshInstance c') :=
  .step fun W₁ hW _ _ hj => ⟨W₁, _, _, _, _, le_refl W₁, rfl, rfl, hj.instantiated,
    hj.size ▸ .instance _ (hc.mono hW)⟩

theorem abreast_setField (id : InstanceId) (name : String) {v v' : Value}
    (hv : Value.Pairs T T' W v v') :
    Abreast T T' pace W i k (fun _ => Eq) (Eval.setField id name v) (Eval.setField id name v') :=
  .step fun W₁ hW _ _ hj => ⟨W₁, _, _, _, _, le_refl W₁, rfl, rfl, hj.written id name (hv.mono hW),
    rfl⟩

theorem abreast_write (text : String) :
    Abreast T T' pace W i k (fun _ => Eq) (Eval.write text) (Eval.write text) :=
  .step fun W₁ _ m m' hj => by
    have hanswer : m.printer m.writes = m'.printer m'.writes := by rw [hj.printer, hj.writes]
    refine ⟨W₁, _, _, _, _, le_refl W₁, rfl, rfl, { hj with printed := ?_, writes := ?_ }, hanswer⟩
    · show m'.printed.push _ = m.printed.push _
      rw [hanswer, hj.printed]
    · exact congrArg (· + 1) hj.writes

theorem abreast_print (line : String) :
    Abreast T T' pace W i k (fun _ => Eq) (Eval.print line) (Eval.print line) := by
  refine (abreast_write _).bind fun W₁ _ answer answer' h => ?_
  subst h
  cases answer with
  | none => exact .pure fun _ _ => rfl
  | some refusal => exact fun W₂ _ _ _ hj => .failure (le_refl W₂) hj

theorem abreast_readClock :
    Abreast T T' pace W i k (Value.Pairs T T') Eval.readClock Eval.readClock :=
  .step fun W₁ _ m m' hj => ⟨W₁, _, _, _, _, le_refl W₁, rfl, rfl,
    { hj with readings := congrArg (· + 1) hj.readings }, by
      rw [hj.clock, hj.readings]
      exact .number _⟩

/-! ### Variables -/

/-- The same problem is named when an occurrence has no binding. -/
theorem Pairing.Joins.missing {m m' : Machine} (hj : W.Joins T T' i k m m') {use : Occurrence}
    (hu : Option.Rel (Shifts pads) T[use.id]? T'[use.id]?) : m'.missing use = m.missing use := by
  unfold Machine.missing
  rw [hj.distances, hj.distances']
  generalize T[use.id]? = d, T'[use.id]? = d' at hu
  cases hu <;> rfl

variable {use : Occurrence} (hp : W pads i k)
  (hu : Option.Rel (Shifts pads) T[use.id]? T'[use.id]?)

include hp hu

theorem Pairing.Joins.holder? {m m' : Machine} (hj : W.Joins T T' i k m m') :
    Option.Rel (fun a a' => ∃ outer, W (0 :: outer) a a') (m.holder? use) (m'.holder? use) := by
  unfold Machine.holder?
  rw [hj.distances, hj.distances', hj.current, hj.current', hj.globals, hj.globals']
  generalize T[use.id]? = d, T'[use.id]? = d' at hu
  cases hu with
  | none => exact hj.links.holder?_globals _
  | some hd => exact hj.links.holderAt? hd hp _

theorem abreast_locate :
    Abreast T T' pace W i k (fun W a a' => ∃ outer, W (0 :: outer) a a') (Eval.locate use)
      (Eval.locate use) := by
  refine .get fun W₁ hW m m' hj => ?_
  have hholder := hj.holder? (hW _ _ _ hp) hu
  rw [hj.missing hu]
  generalize m.holder? use = a, m'.holder? use = a' at hholder
  cases hholder with
  | none => exact .fail _ _
  | some ha =>
    obtain ⟨outer, ha⟩ := ha
    exact .pure fun _ hW => ⟨outer, hW _ _ _ ha⟩

theorem abreast_read :
    Abreast T T' pace W i k (Value.Pairs T T') (Eval.read use) (Eval.read use) := by
  refine (abreast_locate hp hu).bind fun W₁ hW a a' ⟨outer, ha⟩ => .get fun W₂ hW₂ m m' hj => ?_
  have hown := hj.links.own (hW₂ _ _ _ ha) use.name.lexeme
  rw [hj.missing hu]
  generalize m.scopes.own? a use.name.lexeme = v, m'.scopes.own? a' use.name.lexeme = v' at hown
  cases hown with
  | none => exact .fail _ _
  | some hv => exact .pure fun _ hW => hv.mono hW

theorem abreast_assign {v v' : Value} (hv : Value.Pairs T T' W v v') :
    Abreast T T' pace W i k (fun _ => Eq) (Eval.assign use v) (Eval.assign use v') :=
  (abreast_locate hp hu).bind fun _ hW _ _ ⟨_, ha⟩ => abreast_define ha _ (hv.mono hW)

end Steps

end Lox
