import Lox.Proofs.Syntax.Facing
import Lox.Proofs.Syntax.LockstepStatement
import Lox.Proofs.Syntax.Parse
import Lox.Proofs.Token.Joined

/-!
# A text parsed elsewhere

Where a text stands and which number its first occurrence has does not matter for how it is parsed,
whatever is wrong with it.

* `Cursor.transfer`: the cursor in front of the same items elsewhere; `Cursor.advance_transfer`,
  `Cursor.start_transfer`: the steps of the parser are the same there;
* `Lockstep.elsewhere`: a text and the same text elsewhere are read in lockstep;
* `exists_of_parse`: the rule for whole texts never stops early;
* **`parse_shift`**, **`parseExpression_shift`**: with another first number, a text has the same
  complaints, and the same tree with its numbers moved on.
-/

namespace Lox

open Lox.Parser

/-! ## Cursors elsewhere -/

namespace Cursor

/-- The cursor in front of the same items elsewhere. -/
def transfer (m : Transfer) (c : Cursor) : Cursor :=
  ⟨m.token c.current, c.pending.map (Item.relocate m.places), c.nextId + m.numbers,
    c.complaints.map m.complaint⟩

variable (m : Transfer)

theorem pull_transfer (last : Token) (complaints : List Complaint) (items : List Item) :
    pull (m.token last) (complaints.map m.complaint) (items.map (Item.relocate m.places)) =
      (m.token (pull last complaints items).1,
        (pull last complaints items).2.1.map (Item.relocate m.places),
        (pull last complaints items).2.2.map m.complaint) := by
  induction items generalizing complaints with
  | nil => rfl
  | cons item items ih =>
    cases item with
    | ok t => rfl
    | error p => exact ih (⟨.lexical p.value, p.position⟩ :: complaints)

/-- What stands in when no token is left does not matter as long as there is one. -/
theorem pull_of_ne_nil (last last' : Token) (complaints : List Complaint) {items : List Item}
    (h : items.filterMap Except.toOption ≠ []) :
    pull last complaints items = pull last' complaints items := by
  induction items generalizing complaints with
  | nil => exact absurd rfl h
  | cons item items ih =>
    cases item with
    | ok t => rfl
    | error p => exact ih _ h

theorem start_transfer {items : List Item} (h : items.filterMap Except.toOption ≠ [])
    (firstId : ExprId) :
    start (items.map (Item.relocate m.places)) (firstId + m.numbers) =
      (start items firstId).transfer m := by
  have hpull := pull_transfer m Token.endOfNothing [] items
  have hne : (items.map (Item.relocate m.places)).filterMap Except.toOption ≠ [] := by
    rw [filterMap_relocate]
    exact fun he => h (List.map_eq_nil_iff.mp he)
  rw [start, start, pull_of_ne_nil _ (m.token Token.endOfNothing) [] hne]
  rw [List.map_nil] at hpull
  rw [hpull]
  rfl

theorem advance_transfer (c : Cursor) : (c.transfer m).advance = c.advance.transfer m := by
  unfold advance
  have hend : (c.transfer m).atEnd = c.atEnd := rfl
  rw [hend]
  split
  · rfl
  · have hpull := pull_transfer m c.current c.complaints c.pending
    show Cursor.mk (pull (m.token c.current) (c.complaints.map m.complaint)
      (c.pending.map (Item.relocate m.places))).1 _ _ _ = _
    unfold transfer
    rw [hpull]

end Cursor

/-- A text and the same text elsewhere are read in lockstep. -/
def Lockstep.elsewhere (m : Transfer) : Lockstep where
  transfer := m
  Aligned c d := d = c.transfer m
  Lost _ := False
  current := by
    rintro c _ rfl
    rfl
  nextId := by
    rintro c _ rfl
    rfl
  advance := by
    rintro c _ rfl
    exact .inr (c.advance_transfer m)
  note := by
    rintro c _ problem place rfl
    exact .inr rfl
  number := by
    rintro c _ rfl
    rw [Cursor.transfer, Cursor.transfer, Nat.add_right_comm]
  lost_advance := id
  lost_note _ _ := id
  lost_number := id

/-- **A rule that is read in lockstep does the same elsewhere.** -/
theorem Tracks.elsewhere {α β : Type} {m : Transfer} {x : Parser α} {y : Parser β} {image : α → β}
    (h : Tracks (.elsewhere m) x y image) {c c' : Cursor} {a : α} (hx : x c = .ok a c') :
    y (c.transfer m) = .ok (image a) (c'.transfer m) := by
  obtain hlost | ⟨d', hy, rfl⟩ := (h.aligned c (c.transfer m) rfl).ok_of_eq hx
  · exact hlost.elim
  · exact hy

/-! ## Whole texts -/

theorem ensures_synchronizeFrom_recovers (skipped : Token) (fuel : Nat) (c : Cursor) :
    Ensures (synchronizeFrom skipped fuel) c (fun _ _ => True) OutOfFuel := by
  induction fuel generalizing skipped c with
  | zero => exact rfl
  | succ fuel ih =>
    rw [synchronizeFrom, ensures_bind, ensures_peek]
    split
    · trivial
    · exact ih _ _

/-- A declaration that is given up is left out, so nothing stops early for a problem. -/
theorem ensures_declaration_recovers (fuel : Nat) (c : Cursor) :
    Ensures (declaration fuel) c (fun _ _ => True) OutOfFuel := by
  cases fuel with
  | zero => exact rfl
  | succ fuel =>
    rw [declaration, Ensures, recovering_eq]
    cases declarationRule (declaration fuel) (statement fuel) fuel c with
    | ok s d => trivial
    | error e d =>
      cases e with
      | outOfFuel => exact rfl
      | syntaxProblem =>
        refine ((ensures_synchronizeFrom_recovers _ fuel _).mono (fun _ _ _ _ => trivial)
          fun _ _ h => h : Ensures (synchronize fuel) d (fun _ _ => True) OutOfFuel).bind ?_ ?_
        · exact fun _ _ _ _ => trivial
        · exact fun _ _ h => h

theorem ensures_declarationsFrom_recovers (n : Nat) (last : Terminal) (read : Array Stmt)
    (fuel : Nat) (c : Cursor) :
    Ensures (declarationsFrom (declaration n) last read fuel) c (fun _ _ => True) OutOfFuel := by
  induction fuel generalizing read c with
  | zero => exact rfl
  | succ fuel ih =>
    rw [declarationsFrom, ensures_bind, ensures_goesOnUnless]
    split
    · refine (ensures_declaration_recovers n c).bind (fun o d _ _ => ?_) fun _ _ h => h
      cases o <;> exact ih _ d
    · trivial

section

variable (source : String) (n k : ExprId)

/-- **The rule for whole texts never stops early.** -/
theorem exists_of_parse :
    ∃ d, declarations (enoughFuel (scan source)) (.start (scan source) n) =
        .ok (parse source n).tree d ∧
      (parse source n).complaints = d.complaints.reverse ∧ (parse source n).nextId = d.nextId := by
  have hreads := ensures_parse source n
  have hrecovers := ensures_declarationsFrom_recovers (enoughFuel (scan source)) .endOfInput #[]
    (enoughFuel (scan source)) (.start (scan source) n)
  unfold parse Parser.run
  cases hx : declarations (enoughFuel (scan source)) (.start (scan source) n) with
  | ok tree d => exact ⟨d, rfl, rfl, rfl⟩
  | error e d =>
    have hproblem := (hreads.halt_of_eq hx).1
    have hfuel : e = .outOfFuel := hrecovers.halt_of_eq hx
    rw [hfuel] at hproblem
    cases hproblem

theorem parse_of_run {tree : List Stmt} {d : Cursor}
    (h : declarations (enoughFuel (scan source)) (.start (scan source) n) = .ok tree d) :
    parse source n = ⟨tree, d.complaints.reverse, d.nextId⟩ := by
  unfold parse Parser.run
  rw [h]

theorem start_shift :
    Cursor.start (scan source) (n + k) = (Cursor.start (scan source) n).transfer ⟨.inPlace, k⟩ := by
  rw [← Cursor.start_transfer ⟨.inPlace, k⟩ (ended_tokens source).ne_nil n]
  have hitems : (scan source).map (Item.relocate .inPlace) = scan source := by
    refine (List.map_congr_left fun item _ => ?_).trans (List.map_id _)
    cases item <;> rfl
  rw [hitems]

theorem complaints_inPlace (complaints : List Complaint) :
    complaints.map (Transfer.complaint ⟨.inPlace, k⟩) = complaints := List.map_id complaints

/-- **The first number does not matter**: with another one a text has the same complaints, and the
same tree with its numbers moved on. -/
theorem parse_shift : parse source (n + k) =
    ⟨Stmt.shiftAll k (parse source n).tree, (parse source n).complaints,
      (parse source n).nextId + k⟩ := by
  obtain ⟨d, hrun, hcomplaints, hid⟩ := exists_of_parse source n
  have htracks := tracks_declarationsFrom (L := .elsewhere ⟨.inPlace, k⟩)
    (tracks_declaration (Nat.le_refl (enoughFuel (scan source)))).1
    (Nat.le_refl (enoughFuel (scan source))) .endOfInput [] #[] #[] rfl
  have hshifted := htracks.elsewhere hrun
  rw [← start_shift, List.nil_append, ← Transfer.stmts_eq] at hshifted
  rw [parse_of_run source (n + k) hshifted, hcomplaints, hid]
  have htree : (Lockstep.elsewhere ⟨.inPlace, k⟩).transfer.stmts (parse source n).tree =
      Stmt.shiftAll k (parse source n).tree :=
    congrArg _ (Stmt.relocateAll_inPlace _)
  rw [htree]
  show Parsed.mk _ (d.complaints.map _).reverse _ = _
  rw [complaints_inPlace]
  rfl

/-! ## Single expressions -/

theorem tracks_wholeExpression {L : Lockstep} {fuel fuel' : Nat} (hf : fuel ≤ fuel') :
    Tracks L (wholeExpression fuel) (wholeExpression fuel') (Option.map L.transfer.expr) := by
  refine (tracks_expression hf).bind fun e => .peek fun seen => ?_
  refine .ite .rfl (.pure rfl) (.get fun c d hd => ?_)
  rw [hd]
  exact (Tracks.complain _ _).bind fun _ => .pure rfl

/-- **The first number does not matter for a single expression.** -/
theorem parseExpression_shift : parseExpression source (n + k) =
    ⟨(parseExpression source n).tree.map (Expr.shift k), (parseExpression source n).complaints,
      (parseExpression source n).nextId + k⟩ := by
  have htracks := (tracks_wholeExpression (L := .elsewhere ⟨.inPlace, k⟩)
    (Nat.le_refl (enoughFuel (scan source)))).aligned (.start (scan source) n) _ (start_shift source n k)
  have hreads := ensures_parseExpression source n
  unfold parseExpression Parser.run
  cases hx : wholeExpression (enoughFuel (scan source)) (.start (scan source) n) with
  | ok tree d =>
    obtain hlost | ⟨d', hy, rfl⟩ := htracks.ok_of_eq hx
    · exact hlost.elim
    · rw [hy]
      have htree : tree.map (Lockstep.elsewhere ⟨.inPlace, k⟩).transfer.expr =
          tree.map (Expr.shift k) := by
        cases tree with
        | none => rfl
        | some e => exact congrArg (fun e => some (Expr.shift k e)) e.relocate_inPlace
      show Parsed.mk _ (d.complaints.map _).reverse _ = _
      rw [htree, complaints_inPlace]
      rfl
  | error e d =>
    obtain hlost | ⟨d', hy, rfl⟩ := htracks.halt_of_eq hx (hreads.halt_of_eq hx).1
    · exact hlost.elim
    · rw [hy]
      show Parsed.mk _ (d.complaints.map _).reverse _ = _
      rw [complaints_inPlace]
      rfl

end

end Lox
