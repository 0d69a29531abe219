import Lox.Proofs.Syntax.Relocation
import Lox.Syntax.Cursor

/-!
# Trees with their numbers moved on

The parser numbers the occurrences of a text from the first free number on, so a text that is parsed
behind another one has the same numbers, all of them moved on by as many as the other one took.

* `Expr.shift`, `Stmt.shift`, …: a tree all of whose numbers are moved on;
* `Relocation.inPlace`: all tokens stay where they are;
* `Transfer`: how the tree of a text changes when the text stands elsewhere, with its tokens at other
  places and its numbers moved on; `Transfer.expr`, `Transfer.stmt`, …: the tree there.
-/

namespace Lox

/-- The occurrence with its number moved on. -/
def Occurrence.shift (k : Nat) (use : Occurrence) : Occurrence := ⟨use.id + k, use.name⟩

mutual

/-- The expression with its numbers moved on. -/
def Expr.shift (k : Nat) : Expr → Expr
  | .literal value => .literal value
  | .grouping inner => .grouping (inner.shift k)
  | .unary op operator operand => .unary op operator (operand.shift k)
  | .binary left op operator right => .binary (left.shift k) op operator (right.shift k)
  | .logical left op operator right => .logical (left.shift k) op operator (right.shift k)
  | .variable use => .variable (use.shift k)
  | .assign target value => .assign (target.shift k) (value.shift k)
  | .call callee arguments paren => .call (callee.shift k) (Expr.shiftAll k arguments) paren
  | .get object name => .get (object.shift k) name
  | .set object name value => .set (object.shift k) name (value.shift k)
  | .this keyword => .this (keyword.shift k)
  | .super keyword method => .super (keyword.shift k) method

/-- The expressions with their numbers moved on. -/
def Expr.shiftAll (k : Nat) : List Expr → List Expr
  | [] => []
  | e :: rest => e.shift k :: Expr.shiftAll k rest

end

mutual

/-- The statement with its numbers moved on. -/
def Stmt.shift (k : Nat) : Stmt → Stmt
  | .expression e => .expression (e.shift k)
  | .print e => .print (e.shift k)
  | .var name initializer => .var name (initializer.map (Expr.shift k))
  | .block body => .block (Stmt.shiftAll k body)
  | .ifElse condition thenBranch elseBranch =>
    .ifElse (condition.shift k) (thenBranch.shift k) (Stmt.shiftOption k elseBranch)
  | .whileLoop condition body => .whileLoop (condition.shift k) (body.shift k)
  | .forLoop initializer condition increment body =>
    .forLoop (Stmt.shiftOption k initializer) (condition.map (Expr.shift k))
      (increment.map (Expr.shift k)) (body.shift k)
  | .function declaration => .function (declaration.shift k)
  | .class declaration => .class (declaration.shift k)
  | .return keyword value => .return keyword (value.map (Expr.shift k))
  | .break keyword => .break keyword
  | .continue keyword => .continue keyword

/-- The statements with their numbers moved on. -/
def Stmt.shiftAll (k : Nat) : List Stmt → List Stmt
  | [] => []
  | s :: rest => s.shift k :: Stmt.shiftAll k rest

/-- The statement with its numbers moved on, if there is one. -/
def Stmt.shiftOption (k : Nat) : Option Stmt → Option Stmt
  | none => none
  | some s => some (s.shift k)

/-- The function with its numbers moved on. -/
def Function.shift (k : Nat) : Function → Function
  | ⟨name, params, body, span⟩ => ⟨name, params, Stmt.shiftAll k body, span⟩

/-- The functions with their numbers moved on. -/
def Function.shiftAll (k : Nat) : List Function → List Function
  | [] => []
  | f :: rest => f.shift k :: Function.shiftAll k rest

/-- The class with its numbers moved on. -/
def Class.shift (k : Nat) : Class → Class
  | ⟨name, superclass, methods, span⟩ =>
    ⟨name, superclass.map (Occurrence.shift k), Function.shiftAll k methods, span⟩

end

section Lists

variable (k : Nat)

theorem Expr.shiftAll_eq (es : List Expr) : Expr.shiftAll k es = es.map (Expr.shift k) := by
  induction es with
  | nil => rfl
  | cons e es ih => rw [shiftAll, ih, List.map_cons]

theorem Stmt.shiftAll_eq (ss : List Stmt) : Stmt.shiftAll k ss = ss.map (Stmt.shift k) := by
  induction ss with
  | nil => rfl
  | cons s ss ih => rw [shiftAll, ih, List.map_cons]

theorem Function.shiftAll_eq (fs : List Function) :
    Function.shiftAll k fs = fs.map (Function.shift k) := by
  induction fs with
  | nil => rfl
  | cons f fs ih => rw [shiftAll, ih, List.map_cons]

end Lists

/-! ## Nothing changes -/

/-- All tokens stay where they are. -/
def Relocation.inPlace : Relocation := ⟨fun n => n, fun n => n, fun n => n⟩

@[simp] theorem Token.relocate_inPlace (t : Token) : t.relocate .inPlace = t := rfl

theorem Token.map_relocate_inPlace (ts : List Token) : ts.map (Token.relocate .inPlace) = ts :=
  List.map_id ts

theorem Occurrence.map_relocate_inPlace (use : Option Occurrence) :
    use.map (Occurrence.relocate .inPlace) = use := by
  cases use <;> rfl

mutual

theorem Expr.relocate_inPlace : (e : Expr) → e.relocate .inPlace = e
  | .literal _ | .variable _ | .this _ | .super _ _ => rfl
  | .grouping inner => congrArg Expr.grouping inner.relocate_inPlace
  | .unary op _ operand => congrArg (Expr.unary op _) operand.relocate_inPlace
  | .binary left _ _ right | .logical left _ _ right => by
    simp only [Expr.relocate, left.relocate_inPlace, right.relocate_inPlace,
      Token.relocate_inPlace]
  | .assign _ value => congrArg (Expr.assign _) value.relocate_inPlace
  | .call callee arguments _ => by
    simp only [Expr.relocate, callee.relocate_inPlace, Expr.relocateAll_inPlace arguments,
      Token.relocate_inPlace]
  | .get object _ => congrArg (Expr.get · _) object.relocate_inPlace
  | .set object _ value => by
    simp only [Expr.relocate, object.relocate_inPlace, value.relocate_inPlace,
      Token.relocate_inPlace]

theorem Expr.relocateAll_inPlace : (es : List Expr) → Expr.relocateAll .inPlace es = es
  | [] => rfl
  | e :: rest => by
    simp only [Expr.relocateAll, e.relocate_inPlace, Expr.relocateAll_inPlace rest]

end

theorem Expr.map_relocate_inPlace (e : Option Expr) : e.map (Expr.relocate .inPlace) = e := by
  cases e with
  | none => rfl
  | some e => exact congrArg some e.relocate_inPlace

mutual

theorem Stmt.relocate_inPlace : (s : Stmt) → s.relocate .inPlace = s
  | .expression e => congrArg Stmt.expression e.relocate_inPlace
  | .print e => congrArg Stmt.print e.relocate_inPlace
  | .var _ initializer => congrArg (Stmt.var _) (Expr.map_relocate_inPlace initializer)
  | .block body => congrArg Stmt.block (Stmt.relocateAll_inPlace body)
  | .ifElse condition thenBranch elseBranch => by
    simp only [Stmt.relocate, Expr.relocate_inPlace, thenBranch.relocate_inPlace,
      Stmt.relocateOption_inPlace elseBranch]
  | .whileLoop condition body => by
    simp only [Stmt.relocate, Expr.relocate_inPlace, body.relocate_inPlace]
  | .forLoop initializer condition increment body => by
    simp only [Stmt.relocate, Stmt.relocateOption_inPlace initializer, Expr.map_relocate_inPlace,
      body.relocate_inPlace]
  | .function declaration => congrArg Stmt.function declaration.relocate_inPlace
  | .class declaration => congrArg Stmt.class declaration.relocate_inPlace
  | .return _ value => congrArg (Stmt.return _) (Expr.map_relocate_inPlace value)
  | .break _ | .continue _ => rfl

theorem Stmt.relocateAll_inPlace : (ss : List Stmt) → Stmt.relocateAll .inPlace ss = ss
  | [] => rfl
  | s :: rest => by
    simp only [Stmt.relocateAll, s.relocate_inPlace, Stmt.relocateAll_inPlace rest]

theorem Stmt.relocateOption_inPlace : (s : Option Stmt) → Stmt.relocateOption .inPlace s = s
  | none => rfl
  | some s => congrArg some s.relocate_inPlace

theorem Function.relocate_inPlace : (f : Function) → f.relocate .inPlace = f
  | ⟨_, params, body, _⟩ => by
    simp only [Function.relocate, Token.map_relocate_inPlace, Stmt.relocateAll_inPlace body]
    rfl

theorem Function.relocateAll_inPlace : (fs : List Function) → Function.relocateAll .inPlace fs = fs
  | [] => rfl
  | f :: rest => by
    simp only [Function.relocateAll, f.relocate_inPlace, Function.relocateAll_inPlace rest]

theorem Class.relocate_inPlace : (c : Class) → c.relocate .inPlace = c
  | ⟨_, superclass, methods, _⟩ => by
    simp only [Class.relocate, Occurrence.map_relocate_inPlace, Function.relocateAll_inPlace methods]
    rfl

end

theorem Occurrence.map_shift_zero (use : Option Occurrence) : use.map (Occurrence.shift 0) = use := by
  cases use <;> rfl

mutual

theorem Expr.shift_zero : (e : Expr) → e.shift 0 = e
  | .literal _ | .variable _ | .this _ | .super _ _ => rfl
  | .grouping inner => congrArg Expr.grouping inner.shift_zero
  | .unary op _ operand => congrArg (Expr.unary op _) operand.shift_zero
  | .binary left _ _ right | .logical left _ _ right => by
    simp only [Expr.shift, left.shift_zero, right.shift_zero]
  | .assign _ value => congrArg (Expr.assign _) value.shift_zero
  | .call callee arguments _ => by
    simp only [Expr.shift, callee.shift_zero, Expr.shiftAll_zero arguments]
  | .get object _ => congrArg (Expr.get · _) object.shift_zero
  | .set object _ value => by
    simp only [Expr.shift, object.shift_zero, value.shift_zero]

theorem Expr.shiftAll_zero : (es : List Expr) → Expr.shiftAll 0 es = es
  | [] => rfl
  | e :: rest => by
    simp only [Expr.shiftAll, e.shift_zero, Expr.shiftAll_zero rest]

end

theorem Expr.map_shift_zero (e : Option Expr) : e.map (Expr.shift 0) = e := by
  cases e with
  | none => rfl
  | some e => exact congrArg some e.shift_zero

mutual

theorem Stmt.shift_zero : (s : Stmt) → s.shift 0 = s
  | .expression e => congrArg Stmt.expression e.shift_zero
  | .print e => congrArg Stmt.print e.shift_zero
  | .var _ initializer => congrArg (Stmt.var _) (Expr.map_shift_zero initializer)
  | .block body => congrArg Stmt.block (Stmt.shiftAll_zero body)
  | .ifElse condition thenBranch elseBranch => by
    simp only [Stmt.shift, Expr.shift_zero, thenBranch.shift_zero, Stmt.shiftOption_zero elseBranch]
  | .whileLoop condition body => by
    simp only [Stmt.shift, Expr.shift_zero, body.shift_zero]
  | .forLoop initializer condition increment body => by
    simp only [Stmt.shift, Stmt.shiftOption_zero initializer, Expr.map_shift_zero, body.shift_zero]
  | .function declaration => congrArg Stmt.function declaration.shift_zero
  | .class declaration => congrArg Stmt.class declaration.shift_zero
  | .return _ value => congrArg (Stmt.return _) (Expr.map_shift_zero value)
  | .break _ | .continue _ => rfl

theorem Stmt.shiftAll_zero : (ss : List Stmt) → Stmt.shiftAll 0 ss = ss
  | [] => rfl
  | s :: rest => by
    simp only [Stmt.shiftAll, s.shift_zero, Stmt.shiftAll_zero rest]

theorem Stmt.shiftOption_zero : (s : Option Stmt) → Stmt.shiftOption 0 s = s
  | none => rfl
  | some s => congrArg some s.shift_zero

theorem Function.shift_zero : (f : Function) → f.shift 0 = f
  | ⟨_, _, body, _⟩ => by
    simp only [Function.shift, Stmt.shiftAll_zero body]

theorem Function.shiftAll_zero : (fs : List Function) → Function.shiftAll 0 fs = fs
  | [] => rfl
  | f :: rest => by
    simp only [Function.shiftAll, f.shift_zero, Function.shiftAll_zero rest]

theorem Class.shift_zero : (c : Class) → c.shift 0 = c
  | ⟨_, superclass, methods, _⟩ => by
    simp only [Class.shift, Occurrence.map_shift_zero, Function.shiftAll_zero methods]

end

/-! ## A text that stands elsewhere -/

/-- The complaint about the relocated text. -/
def Complaint.relocate (r : Relocation) (x : Complaint) : Complaint :=
  ⟨x.value, x.position.relocate r⟩

/-- How the tree of a text changes when the text stands elsewhere. -/
structure Transfer where
  places : Relocation
  /-- By how many the numbers of occurrences are moved on. -/
  numbers : Nat

namespace Transfer

variable (m : Transfer)

/-- The token there. -/
def token (t : Token) : Token := t.relocate m.places

/-- The occurrence there. -/
def occurrence (use : Occurrence) : Occurrence := (use.relocate m.places).shift m.numbers

/-- The expression there. -/
def expr (e : Expr) : Expr := (e.relocate m.places).shift m.numbers

/-- The statement there. -/
def stmt (s : Stmt) : Stmt := (s.relocate m.places).shift m.numbers

/-- The statements there. -/
def stmts (ss : List Stmt) : List Stmt := Stmt.shiftAll m.numbers (Stmt.relocateAll m.places ss)

/-- The function there. -/
def function (f : Function) : Function := (f.relocate m.places).shift m.numbers

/-- The complaint there. -/
def complaint (x : Complaint) : Complaint := x.relocate m.places

@[simp] theorem terminal_token (t : Token) : (m.token t).terminal = t.terminal := rfl

@[simp] theorem kind_token (t : Token) : (m.token t).kind = t.kind := rfl

theorem stmts_eq (ss : List Stmt) : m.stmts ss = ss.map m.stmt := by
  rw [stmts, Stmt.shiftAll_eq, Stmt.relocateAll_eq, List.map_map]
  rfl

theorem expr_call (callee : Expr) (arguments : List Expr) (paren : Token) :
    m.expr (.call callee arguments paren) =
      .call (m.expr callee) (arguments.map m.expr) (m.token paren) := by
  rw [expr, Expr.relocate, Expr.shift, Expr.shiftAll_eq, Expr.relocateAll_eq, List.map_map]
  rfl

theorem stmt_block (body : List Stmt) : m.stmt (.block body) = .block (body.map m.stmt) := by
  rw [← stmts_eq]
  rfl

theorem stmt_var (name : Token) (initializer : Option Expr) :
    m.stmt (.var name initializer) = .var (m.token name) (initializer.map m.expr) := by
  cases initializer <;> rfl

theorem stmt_return (keyword : Token) (value : Option Expr) :
    m.stmt (.return keyword value) = .return (m.token keyword) (value.map m.expr) := by
  cases value <;> rfl

theorem stmt_forLoop (initializer : Option Stmt) (condition increment : Option Expr) (body : Stmt) :
    m.stmt (.forLoop initializer condition increment body) =
      .forLoop (initializer.map m.stmt) (condition.map m.expr) (increment.map m.expr)
        (m.stmt body) := by
  cases initializer <;> cases condition <;> cases increment <;> rfl

theorem function_mk (name : Token) (params : List Token) (body : List Stmt) (span : Position) :
    m.function ⟨name, params, body, span⟩ =
      ⟨m.token name, params.map m.token, body.map m.stmt, span.relocate m.places⟩ := by
  rw [← stmts_eq]
  rfl

theorem stmt_class (name : Token) (superclass : Option Occurrence) (methods : List Function)
    (span : Position) :
    m.stmt (.class ⟨name, superclass, methods, span⟩) =
      .class ⟨m.token name, superclass.map m.occurrence, methods.map m.function,
        span.relocate m.places⟩ := by
  rw [stmt, Stmt.relocate, Class.relocate, Stmt.shift, Class.shift, Function.shiftAll_eq,
    Function.relocateAll_eq, List.map_map, Option.map_map]
  rfl

/-- The text stays where it is, and so do its numbers. -/
def stay : Transfer := ⟨.inPlace, 0⟩

@[simp] theorem stmt_stay (s : Stmt) : stay.stmt s = s := by
  show (s.relocate .inPlace).shift 0 = s
  rw [s.relocate_inPlace, s.shift_zero]

end Transfer

end Lox
