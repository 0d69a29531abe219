import Lox.Proofs.Syntax.ReadExpression
import Lox.Proofs.Syntax.Transfer

/-!
# Two texts read in lockstep

Two cursors stand in front of the same tokens at other places, and the same rule is run from both.
Nothing but the token in view decides what a rule does, so both runs do the same for as long as the
tokens agree. How long that is, is left open: a cursor that is lost has seen more than what agrees.

* `Lockstep`: which cursors are aligned and which are lost, and that the steps of a rule keep this;
* `Tracks`: what a rule does from one cursor, another rule does from an aligned one, as long as the
  first one is not lost;
* `Tracks.bind`, `Tracks.pass`, …: rules that are put together from such rules;
* **`tracks_expression`**: the rule for expressions tracks itself, whatever bounds it is given.
-/

namespace Lox

open Lox.Parser

/-- Cursors that stand in front of the same tokens at other places. -/
structure Lockstep where
  transfer : Transfer
  Aligned : Cursor → Cursor → Prop
  /-- The cursor has seen more than what the two texts have in common. -/
  Lost : Cursor → Prop
  current {c d : Cursor} : Aligned c d → d.current = transfer.token c.current
  nextId {c d : Cursor} : Aligned c d → d.nextId = c.nextId + transfer.numbers
  advance {c d : Cursor} : Aligned c d → Lost c.advance ∨ Aligned c.advance d.advance
  note {c d : Cursor} (problem : SyntaxProblem) (place : Position) : Aligned c d →
    Lost (c.note problem place) ∨
      Aligned (c.note problem place) (d.note problem (place.relocate transfer.places))
  number {c d : Cursor} : Aligned c d →
    Aligned { c with nextId := c.nextId + 1 } { d with nextId := d.nextId + 1 }
  lost_advance {c : Cursor} : Lost c → Lost c.advance
  lost_note {c : Cursor} (problem : SyntaxProblem) (place : Position) : Lost c →
    Lost (c.note problem place)
  lost_number {c : Cursor} : Lost c → Lost { c with nextId := c.nextId + 1 }

/-- From aligned cursors both rules do the same, and a cursor that is lost stays lost. Nothing is
said of a first rule that runs out of fuel. -/
structure Tracks {α β : Type} (L : Lockstep) (x : Parser α) (y : Parser β) (image : α → β) : Prop where
  lost (c : Cursor) : L.Lost c →
    Ensures x c (fun _ c' => L.Lost c') fun h c' => h = .syntaxProblem → L.Lost c'
  aligned (c d : Cursor) : L.Aligned c d →
    Ensures x c (fun a c' => L.Lost c' ∨ ∃ d', y d = .ok (image a) d' ∧ L.Aligned c' d')
      fun h c' => h = .syntaxProblem → L.Lost c' ∨ ∃ d', y d = .error h d' ∧ L.Aligned c' d'

namespace Tracks

variable {L : Lockstep} {α β γ δ : Type} {x : Parser α} {y : Parser β} {image : α → β}

theorem pure {a : α} {b : β} (h : b = image a) : Tracks L (Pure.pure a) (Pure.pure b) image where
  lost _ hc := hc
  aligned _ d hcd := .inr ⟨d, by rw [h]; rfl, hcd⟩

theorem outOfFuel : Tracks L Parser.outOfFuel y image where
  lost _ _ h := by cases h
  aligned _ _ _ h := by cases h

/-- **Rules that go on alike track each other.** -/
theorem bind {f : α → Parser γ} {g : β → Parser δ} {image' : γ → δ} (hx : Tracks L x y image)
    (hf : ∀ a, Tracks L (f a) (g (image a)) image') : Tracks L (x >>= f) (y >>= g) image' where
  lost c hc := (hx.lost c hc).bind (fun a c' _ hc' => (hf a).lost c' hc') fun _ _ h => h
  aligned c d hcd := by
    refine (hx.aligned c d hcd).bind (fun a c' _ hc' => ?_) fun h c' hc' hh => ?_
    · rcases hc' with hlost | ⟨d', hd, hcd'⟩
      · exact ((hf a).lost c' hlost).mono (fun _ _ _ h => .inl h) fun _ _ h hh => .inl (h hh)
      · refine ((hf a).aligned c' d' hcd').mono (fun b e _ h => ?_) fun _ _ h => ?_
        · rwa [bind_of_ok hd]
        · rwa [bind_of_ok hd]
    · rcases hc' hh with hlost | ⟨d', hd, hcd'⟩
      · exact .inl hlost
      · exact .inr ⟨d', bind_of_error hd, hcd'⟩

theorem map {f : α → γ} {g : β → δ} {image' : γ → δ} (hx : Tracks L x y image)
    (h : ∀ a, g (image a) = image' (f a)) : Tracks L (f <$> x) (g <$> y) image' :=
  hx.bind (f := fun a => Pure.pure (f a)) (g := fun b => Pure.pure (g b)) fun a => .pure (h a)

theorem ite {p q : Prop} [Decidable p] [Decidable q] {x' : Parser α} {y' : Parser β} (h : p ↔ q)
    (hx : Tracks L x y image) (hx' : Tracks L x' y' image) :
    Tracks L (if p then x else x') (if q then y else y') image := by
  by_cases hp : p
  · rw [if_pos hp, if_pos (h.mp hp)]
    exact hx
  · rw [if_neg hp, if_neg (mt h.mpr hp)]
    exact hx'

/-- A rule may look at the cursor if only the token in view decides what it does. -/
theorem get {f : Cursor → Parser α} {g : Cursor → Parser β}
    (h : ∀ c d : Cursor, d.current = L.transfer.token c.current → Tracks L (f c) (g d) image) :
    Tracks L (MonadState.get >>= f) (MonadState.get >>= g) image where
  lost c hc := (h c { c with current := L.transfer.token c.current } rfl).lost c hc
  aligned c d hcd := (h c d (L.current hcd)).aligned c d hcd

theorem peek {f : Terminal → Parser α} {g : Terminal → Parser β}
    (h : ∀ seen, Tracks L (f seen) (g seen) image) :
    Tracks L (Parser.peek >>= f) (Parser.peek >>= g) image :=
  get fun c d hd => by
    rw [hd]
    exact h c.current.terminal

theorem pass {f : Token → Parser α} {g : Token → Parser β}
    (h : ∀ t, Tracks L (f t) (g (L.transfer.token t)) image) :
    Tracks L (Parser.advance >>= f) (Parser.advance >>= g) image :=
  have hadvance : Tracks L Parser.advance Parser.advance L.transfer.token :=
    { lost := fun _ hc => L.lost_advance hc
      aligned := fun _ d hcd => (L.advance hcd).imp_right fun h =>
        ⟨d.advance, congrArg (EStateM.Result.ok · d.advance) (L.current hcd), h⟩ }
  hadvance.bind h

theorem freshId {f : ExprId → Parser α} {g : ExprId → Parser β}
    (h : ∀ id, Tracks L (f id) (g (id + L.transfer.numbers)) image) :
    Tracks L (Parser.freshId >>= f) (Parser.freshId >>= g) image :=
  have hfresh : Tracks L Parser.freshId Parser.freshId (· + L.transfer.numbers) :=
    { lost := fun _ hc => L.lost_number hc
      aligned := fun _ d hcd => .inr ⟨{ d with nextId := d.nextId + 1 },
        congrArg (EStateM.Result.ok · ({ d with nextId := d.nextId + 1 } : Cursor)) (L.nextId hcd),
        L.number hcd⟩ }
  hfresh.bind h

theorem complain (problem : SyntaxProblem) (place : Token) :
    Tracks L (Parser.complain problem place) (Parser.complain problem (L.transfer.token place)) id where
  lost _ hc := L.lost_note problem place.position hc
  aligned _ d hcd := (L.note problem place.position hcd).imp_right fun h =>
    ⟨d.note problem (place.position.relocate L.transfer.places), rfl, h⟩

theorem fail (problem : SyntaxProblem) : Tracks L (Parser.fail problem) (Parser.fail problem) image :=
  get fun c d hd => by
    rw [hd]
    refine (complain problem c.current).bind fun _ => ?_
    exact ⟨fun _ hc _ => hc, fun _ d hcd _ => .inr ⟨d, rfl, hcd⟩⟩

theorem accept? {terminal : Terminal} {f : Option Token → Parser α} {g : Option Token → Parser β}
    (hnone : Tracks L (f none) (g none) image)
    (hsome : ∀ t, Tracks L (f (some t)) (g (some (L.transfer.token t))) image) :
    Tracks L (Parser.accept? terminal >>= f) (Parser.accept? terminal >>= g) image :=
  have haccept : Tracks L (Parser.accept? terminal) (Parser.accept? terminal)
      (Option.map L.transfer.token) :=
    peek fun _ => .ite .rfl (pass fun _ => .pure rfl) (.pure rfl)
  haccept.bind fun o => by
    cases o with
    | none => exact hnone
    | some t => exact hsome t

theorem expect {terminal : Terminal} {problem : SyntaxProblem} {f : Token → Parser α}
    {g : Token → Parser β} (h : ∀ t, Tracks L (f t) (g (L.transfer.token t)) image) :
    Tracks L (Parser.expect terminal problem >>= f) (Parser.expect terminal problem >>= g) image :=
  have hexpect : Tracks L (Parser.expect terminal problem) (Parser.expect terminal problem)
      L.transfer.token :=
    accept? (fail problem) fun _ => .pure rfl
  hexpect.bind h

theorem goesOnUnless {terminal : Terminal} {f : Bool → Parser α} {g : Bool → Parser β}
    (h : ∀ go, Tracks L (f go) (g go) image) :
    Tracks L (Parser.goesOnUnless terminal >>= f) (Parser.goesOnUnless terminal >>= g) image :=
  have hgo : Tracks L (Parser.goesOnUnless terminal) (Parser.goesOnUnless terminal) id :=
    peek fun _ => .pure rfl
  hgo.bind h

theorem limited {p q : Prop} [Decidable p] [Decidable q] (problem : SyntaxProblem) (h : p ↔ q)
    (hx : Tracks L x y image) :
    Tracks L (if p then do Parser.complain problem (← MonadState.get).current; x else x)
      (if q then do Parser.complain problem (← MonadState.get).current; y else y) image :=
  .ite h (get fun c d hd => by
    rw [hd]
    exact (complain problem c.current).bind fun _ => hx) hx

end Tracks

/-! ## Expressions -/

section Expressions

variable {L : Lockstep}

/-- A rule for expressions tracks another one. -/
abbrev TracksExpr (L : Lockstep) (x y : Parser Expr) : Prop := Tracks L x y L.transfer.expr

theorem tracks_chainFrom (level : Grammar.Level) {operand operand' : Parser Expr}
    (ho : TracksExpr L operand operand') (left : Expr) {fuel fuel' : Nat} (hf : fuel ≤ fuel') :
    TracksExpr L (chainFrom level.operators operand left fuel)
      (chainFrom level.operators operand' (L.transfer.expr left) fuel') := by
  induction fuel generalizing left fuel' with
  | zero => exact .outOfFuel
  | succ fuel ih =>
    obtain ⟨fuel', rfl⟩ := Nat.exists_eq_add_one_of_ne_zero (Nat.ne_of_gt (Nat.zero_lt_of_lt hf))
    rw [chainFrom, chainFrom]
    refine .peek fun seen => ?_
    cases hop : level.operators seen with
    | none => exact .pure rfl
    | some node =>
      refine .pass fun operator => ho.bind fun right => ?_
      have hnode : node (L.transfer.expr left) (L.transfer.token operator) (L.transfer.expr right) =
          L.transfer.expr (node left operator right) := by
        obtain ⟨op, -, -, rfl⟩ | ⟨op, -, -, rfl⟩ := Grammar.Level.of_operators hop <;> rfl
      rw [hnode]
      exact ih _ (Nat.le_of_succ_le_succ hf)

theorem tracks_chain (level : Grammar.Level) {operand operand' : Parser Expr}
    (ho : TracksExpr L operand operand') {fuel fuel' : Nat} (hf : fuel ≤ fuel') :
    TracksExpr L (chain level.operators operand fuel) (chain level.operators operand' fuel') :=
  ho.bind fun left => tracks_chainFrom level ho left hf

variable {nested nested' : Parser Expr} (hn : TracksExpr L nested nested')

include hn

theorem tracks_argumentsFrom (read : Array Expr) {fuel fuel' : Nat} (hf : fuel ≤ fuel') :
    Tracks L (argumentsFrom nested read fuel)
      (argumentsFrom nested' (read.map L.transfer.expr) fuel') (List.map L.transfer.expr) := by
  induction fuel generalizing read fuel' with
  | zero => exact .outOfFuel
  | succ fuel ih =>
    obtain ⟨fuel', rfl⟩ := Nat.exists_eq_add_one_of_ne_zero (Nat.ne_of_gt (Nat.zero_lt_of_lt hf))
    rw [argumentsFrom, argumentsFrom]
    refine .limited _ (by rw [Array.size_map]) (hn.bind fun argument => ?_)
    rw [← Array.map_push]
    exact .accept? (.pure Array.toList_map) fun _ => ih _ (Nat.le_of_succ_le_succ hf)

theorem tracks_arguments {fuel fuel' : Nat} (hf : fuel ≤ fuel') :
    Tracks L (arguments nested fuel) (arguments nested' fuel')
      (Prod.map (List.map L.transfer.expr) L.transfer.token) := by
  have hclose (read : List Expr) : Tracks L
      (do let paren ← expectMark .rightParen .afterArguments; return (read, paren))
      (do let paren ← expectMark .rightParen .afterArguments
          return (read.map L.transfer.expr, paren))
      (Prod.map (List.map L.transfer.expr) L.transfer.token) :=
    .expect fun _ => .pure rfl
  have hread : Tracks L (argumentsFrom nested #[] fuel) (argumentsFrom nested' #[] fuel')
      (List.map L.transfer.expr) := by
    simpa using tracks_argumentsFrom hn #[] hf
  rw [arguments, arguments]
  refine .peek fun seen => .ite .rfl ?_ ?_
  · have hnone : Tracks L (pure []) (pure []) (List.map L.transfer.expr) := .pure rfl
    exact hnone.bind fun read => hclose read
  · exact hread.bind fun read => hclose read

theorem tracks_primary : TracksExpr L (primary nested) (primary nested') := by
  rw [primary, primary]
  refine .get fun c d hd => ?_
  rw [hd, L.transfer.kind_token]
  split
  · exact .pass fun _ => .pure rfl
  · exact .pass fun _ => .pure rfl
  · exact .pass fun _ => .pure rfl
  · exact .pass fun _ => .pure rfl
  · exact .pass fun _ => .pure rfl
  · exact .pass fun _ => .freshId fun _ => .pure rfl
  · exact .pass fun _ => .freshId fun _ => .pure rfl
  · exact .pass fun _ => .expect fun _ => .expect fun _ => .freshId fun _ => .pure rfl
  · exact .pass fun _ => hn.bind fun _ => .expect fun _ => .pure rfl
  · exact .fail _

theorem tracks_callFrom (callee : Expr) {fuel fuel' : Nat} (hf : fuel ≤ fuel') :
    TracksExpr L (callFrom nested callee fuel)
      (callFrom nested' (L.transfer.expr callee) fuel') := by
  induction fuel generalizing callee fuel' with
  | zero => exact .outOfFuel
  | succ fuel ih =>
    obtain ⟨fuel', rfl⟩ := Nat.exists_eq_add_one_of_ne_zero (Nat.ne_of_gt (Nat.zero_lt_of_lt hf))
    have hle := Nat.le_of_succ_le_succ hf
    rw [callFrom, callFrom]
    refine .peek fun seen => ?_
    split
    · refine .pass fun _ => (tracks_arguments hn hle).bind fun r => ?_
      have := ih (.call callee r.1 r.2) hle
      rwa [Transfer.expr_call] at this
    · exact .pass fun _ => .expect fun name => ih (.get callee name) hle
    · exact .pure rfl

theorem tracks_unary {fuel fuel' : Nat} (hf : fuel ≤ fuel') :
    TracksExpr L (unary nested fuel) (unary nested' fuel') := by
  induction fuel generalizing fuel' with
  | zero => exact .outOfFuel
  | succ fuel ih =>
    obtain ⟨fuel', rfl⟩ := Nat.exists_eq_add_one_of_ne_zero (Nat.ne_of_gt (Nat.zero_lt_of_lt hf))
    have hle := Nat.le_of_succ_le_succ hf
    rw [unary, unary]
    refine .peek fun seen => ?_
    cases prefixOp? seen with
    | none => exact (tracks_primary hn).bind fun callee => tracks_callFrom hn callee hle
    | some op => exact .pass fun _ => (ih hle).bind fun _ => .pure rfl

omit hn in
theorem tracks_assignTo (target : Expr) (equals : Token) (value : Expr) :
    TracksExpr L (assignTo target equals value)
      (assignTo (L.transfer.expr target) (L.transfer.token equals) (L.transfer.expr value)) := by
  unfold assignTo
  cases target with
  | «variable» use => exact .freshId fun _ => .pure rfl
  | get object name => exact .pure rfl
  | _ => exact (Tracks.complain _ _).bind fun _ => .pure rfl

omit hn in
/-- **The rule for expressions tracks itself**, whatever bounds it is given. -/
theorem tracks_expression {fuel fuel' : Nat} (hf : fuel ≤ fuel') :
    TracksExpr L (expression fuel) (expression fuel') := by
  induction fuel generalizing fuel' with
  | zero => exact .outOfFuel
  | succ fuel ih =>
    obtain ⟨fuel', rfl⟩ := Nat.exists_eq_add_one_of_ne_zero (Nat.ne_of_gt (Nat.zero_lt_of_lt hf))
    have hle := Nat.le_of_succ_le_succ hf
    have hfactor := tracks_chain .product (tracks_unary (ih hle) hle) hle
    have hterm := tracks_chain .sum hfactor hle
    have hcomparison := tracks_chain .comparison hterm hle
    have hequality := tracks_chain .equality hcomparison hle
    have hconjunction := tracks_chain .conjunction hequality hle
    have hdisjunction := tracks_chain .disjunction hconjunction hle
    refine Tracks.bind hdisjunction fun target => .accept? (.pure rfl) fun equals => ?_
    exact (ih hle).bind fun value => tracks_assignTo target equals value

end Expressions

end Lox
