import Lox.Proofs.Syntax.Relocation
import Lox.Proofs.Syntax.Unnumbered

/-!
# How the parser numbers occurrences

The parser numbers the occurrences of a tree in the order in which it meets them. The variable in
front of an assignment is met twice, first as an expression and again as the target.

* `Expr.count`, `Stmt.count`, …: a tree whose occurrences are numbered from a number on, and the
  number with which numbering goes on behind it;
* `Stmt.countAll_unnumbered`, `Stmt.countAll_relocate`: neither the numbers a tree has nor the places
  of its tokens matter for how it is numbered.
-/

namespace Lox

/-! ## Numbering a tree -/

/-- An occurrence with the number `n`. -/
def Occurrence.count (n : ExprId) (use : Occurrence) : Occurrence × ExprId := (⟨n, use.name⟩, n + 1)

/-- Number a part that may be missing. -/
def countOption {α : Type} (count : ExprId → α → α × ExprId) (n : ExprId) :
    Option α → Option α × ExprId
  | none => (none, n)
  | some a => (some (count n a).1, (count n a).2)

mutual

/-- An expression whose occurrences are numbered from `n` on, and the number behind it. -/
def Expr.count (n : ExprId) : Expr → Expr × ExprId
  | .literal value => (.literal value, n)
  | .grouping inner => (.grouping (inner.count n).1, (inner.count n).2)
  | .unary op operator operand => (.unary op operator (operand.count n).1, (operand.count n).2)
  | .binary left op operator right =>
    let (left, n) := left.count n
    let (right, n) := right.count n
    (.binary left op operator right, n)
  | .logical left op operator right =>
    let (left, n) := left.count n
    let (right, n) := right.count n
    (.logical left op operator right, n)
  | .variable use => (.variable (use.count n).1, (use.count n).2)
  | .assign target value =>
    let (value, n) := value.count (n + 1)
    (.assign (target.count n).1 value, (target.count n).2)
  | .call callee arguments paren =>
    let (callee, n) := callee.count n
    let (arguments, n) := Expr.countAll n arguments
    (.call callee arguments paren, n)
  | .get object name => (.get (object.count n).1 name, (object.count n).2)
  | .set object name value =>
    let (object, n) := object.count n
    let (value, n) := value.count n
    (.set object name value, n)
  | .this keyword => (.this (keyword.count n).1, (keyword.count n).2)
  | .super keyword method => (.super (keyword.count n).1 method, (keyword.count n).2)

/-- Expressions whose occurrences are numbered from `n` on, and the number behind them. -/
def Expr.countAll (n : ExprId) : List Expr → List Expr × ExprId
  | [] => ([], n)
  | e :: rest =>
    let (e, n) := e.count n
    let (rest, n) := Expr.countAll n rest
    (e :: rest, n)

end

mutual

/-- A statement whose occurrences are numbered from `n` on, and the number behind it. -/
def Stmt.count (n : ExprId) : Stmt → Stmt × ExprId
  | .expression e => (.expression (e.count n).1, (e.count n).2)
  | .print e => (.print (e.count n).1, (e.count n).2)
  | .var name initializer =>
    (.var name (countOption Expr.count n initializer).1, (countOption Expr.count n initializer).2)
  | .block body => (.block (Stmt.countAll n body).1, (Stmt.countAll n body).2)
  | .ifElse condition thenBranch elseBranch =>
    let (condition, n) := condition.count n
    let (thenBranch, n) := thenBranch.count n
    let (elseBranch, n) := Stmt.countOption n elseBranch
    (.ifElse condition thenBranch elseBranch, n)
  | .whileLoop condition body =>
    let (condition, n) := condition.count n
    let (body, n) := body.count n
    (.whileLoop condition body, n)
  | .forLoop initializer condition increment body =>
    let (initializer, n) := Stmt.countOption n initializer
    let (condition, n) := countOption Expr.count n condition
    let (increment, n) := countOption Expr.count n increment
    let (body, n) := body.count n
    (.forLoop initializer condition increment body, n)
  | .function declaration => (.function (declaration.count n).1, (declaration.count n).2)
  | .class declaration => (.class (declaration.count n).1, (declaration.count n).2)
  | .return keyword value =>
    (.return keyword (countOption Expr.count n value).1, (countOption Expr.count n value).2)
  | .break keyword => (.break keyword, n)
  | .continue keyword => (.continue keyword, n)

/-- Statements whose occurrences are numbered from `n` on, and the number behind them. -/
def Stmt.countAll (n : ExprId) : List Stmt → List Stmt × ExprId
  | [] => ([], n)
  | s :: rest =>
    let (s, n) := s.count n
    let (rest, n) := Stmt.countAll n rest
    (s :: rest, n)

/-- A statement that may be missing, and the number behind it. -/
def Stmt.countOption (n : ExprId) : Option Stmt → Option Stmt × ExprId
  | none => (none, n)
  | some s => (some (s.count n).1, (s.count n).2)

/-- A function whose occurrences are numbered from `n` on, and the number behind it. -/
def Function.count (n : ExprId) : Function → Function × ExprId
  | ⟨name, params, body, span⟩ =>
    (⟨name, params, (Stmt.countAll n body).1, span⟩, (Stmt.countAll n body).2)

/-- Functions whose occurrences are numbered from `n` on, and the number behind them. -/
def Function.countAll (n : ExprId) : List Function → List Function × ExprId
  | [] => ([], n)
  | f :: rest =>
    let (f, n) := f.count n
    let (rest, n) := Function.countAll n rest
    (f :: rest, n)

/-- A class whose occurrences are numbered from `n` on, and the number behind it. -/
def Class.count (n : ExprId) : Class → Class × ExprId
  | ⟨name, superclass, methods, span⟩ =>
    let (superclass, n) := countOption Occurrence.count n superclass
    let (methods, n) := Function.countAll n methods
    (⟨name, superclass, methods, span⟩, n)

end

/-! ## Numbers do not matter -/

theorem countOption_map {α : Type} {count : ExprId → α → α × ExprId} {f : α → α}
    (h : ∀ n a, count n (f a) = count n a) (n : ExprId) (o : Option α) :
    countOption count n (o.map f) = countOption count n o := by
  cases o with
  | none => rfl
  | some a => simp only [Option.map_some, countOption, h]

theorem Occurrence.count_unnumbered (n : ExprId) (use : Occurrence) :
    use.unnumbered.count n = use.count n := rfl

mutual

theorem Expr.count_unnumbered (n : ExprId) : (e : Expr) → e.unnumbered.count n = e.count n
  | .literal _ | .variable _ | .this _ | .super _ _ => rfl
  | .grouping e | .unary _ _ e | .get e _ | .assign _ e => by
    simp only [Expr.unnumbered, Expr.count, e.count_unnumbered, Occurrence.count_unnumbered]
  | .binary a _ _ b | .logical a _ _ b | .set a _ b => by
    simp only [Expr.unnumbered, Expr.count, a.count_unnumbered, b.count_unnumbered]
  | .call e es _ => by
    simp only [Expr.unnumbered, Expr.count, e.count_unnumbered, Expr.countAll_unnumbered _ es]

theorem Expr.countAll_unnumbered (n : ExprId) : (es : List Expr) →
    Expr.countAll n (Expr.unnumberedAll es) = Expr.countAll n es
  | [] => rfl
  | e :: rest => by
    simp only [Expr.unnumberedAll, Expr.countAll, e.count_unnumbered, Expr.countAll_unnumbered _ rest]

end

mutual

theorem Stmt.count_unnumbered (n : ExprId) : (s : Stmt) → s.unnumbered.count n = s.count n
  | .break _ | .continue _ => rfl
  | .expression e | .print e => by simp only [Stmt.unnumbered, Stmt.count, e.count_unnumbered]
  | .var _ _ | .return _ _ => by
    simp only [Stmt.unnumbered, Stmt.count, countOption_map Expr.count_unnumbered]
  | .block body => by simp only [Stmt.unnumbered, Stmt.count, Stmt.countAll_unnumbered _ body]
  | .ifElse c s o => by
    simp only [Stmt.unnumbered, Stmt.count, c.count_unnumbered, s.count_unnumbered,
      Stmt.countOption_unnumbered _ o]
  | .whileLoop c s => by
    simp only [Stmt.unnumbered, Stmt.count, c.count_unnumbered, s.count_unnumbered]
  | .forLoop o _ _ s => by
    simp only [Stmt.unnumbered, Stmt.count, countOption_map Expr.count_unnumbered,
      s.count_unnumbered, Stmt.countOption_unnumbered _ o]
  | .function f => by simp only [Stmt.unnumbered, Stmt.count, f.count_unnumbered]
  | .class k => by simp only [Stmt.unnumbered, Stmt.count, k.count_unnumbered]

theorem Stmt.countAll_unnumbered (n : ExprId) : (ss : List Stmt) →
    Stmt.countAll n (Stmt.unnumberedAll ss) = Stmt.countAll n ss
  | [] => rfl
  | s :: rest => by
    simp only [Stmt.unnumberedAll, Stmt.countAll, s.count_unnumbered, Stmt.countAll_unnumbered _ rest]

theorem Stmt.countOption_unnumbered (n : ExprId) : (s : Option Stmt) →
    Stmt.countOption n (Stmt.unnumberedOption s) = Stmt.countOption n s
  | none => rfl
  | some s => by simp only [Stmt.unnumberedOption, Stmt.countOption, s.count_unnumbered]

theorem Function.count_unnumbered (n : ExprId) : (f : Function) → f.unnumbered.count n = f.count n
  | ⟨_, _, body, _⟩ => by
    simp only [Function.unnumbered, Function.count, Stmt.countAll_unnumbered _ body]

theorem Function.countAll_unnumbered (n : ExprId) : (fs : List Function) →
    Function.countAll n (Function.unnumberedAll fs) = Function.countAll n fs
  | [] => rfl
  | f :: rest => by
    simp only [Function.unnumberedAll, Function.countAll, f.count_unnumbered,
      Function.countAll_unnumbered _ rest]

theorem Class.count_unnumbered (n : ExprId) : (k : Class) → k.unnumbered.count n = k.count n
  | ⟨_, _, methods, _⟩ => by
    simp only [Class.unnumbered, Class.count, countOption_map Occurrence.count_unnumbered,
      Function.countAll_unnumbered _ methods]

end

/-! ## Places do not matter -/

section Places

variable (r : Relocation)

theorem countOption_relocate {α : Type} {count : ExprId → α → α × ExprId} {f : α → α}
    (h : ∀ n a, count n (f a) = (f (count n a).1, (count n a).2)) (n : ExprId) (o : Option α) :
    countOption count n (o.map f) = ((countOption count n o).1.map f, (countOption count n o).2) := by
  cases o with
  | none => rfl
  | some a => simp only [Option.map_some, countOption, h]

theorem Occurrence.count_relocate (n : ExprId) (use : Occurrence) :
    (use.relocate r).count n = ((use.count n).1.relocate r, (use.count n).2) := rfl

mutual

theorem Expr.count_relocate (n : ExprId) : (e : Expr) →
    (e.relocate r).count n = ((e.count n).1.relocate r, (e.count n).2)
  | .literal _ | .variable _ | .this _ | .super _ _ => rfl
  | .grouping e | .unary _ _ e | .get e _ | .assign _ e => by
    simp only [Expr.relocate, Expr.count, e.count_relocate, Occurrence.count_relocate]
  | .binary a _ _ b | .logical a _ _ b | .set a _ b => by
    simp only [Expr.relocate, Expr.count, a.count_relocate, b.count_relocate]
  | .call e es _ => by
    simp only [Expr.relocate, Expr.count, e.count_relocate, Expr.countAll_relocate _ es]

theorem Expr.countAll_relocate (n : ExprId) : (es : List Expr) →
    Expr.countAll n (Expr.relocateAll r es) =
      (Expr.relocateAll r (Expr.countAll n es).1, (Expr.countAll n es).2)
  | [] => rfl
  | e :: rest => by
    simp only [Expr.relocateAll, Expr.countAll, e.count_relocate, Expr.countAll_relocate _ rest]

end

mutual

theorem Stmt.count_relocate (n : ExprId) : (s : Stmt) →
    (s.relocate r).count n = ((s.count n).1.relocate r, (s.count n).2)
  | .break _ | .continue _ => rfl
  | .expression e | .print e => by simp only [Stmt.relocate, Stmt.count, e.count_relocate r]
  | .var _ _ | .return _ _ => by
    simp only [Stmt.relocate, Stmt.count, countOption_relocate (Expr.count_relocate r)]
  | .block body => by simp only [Stmt.relocate, Stmt.count, Stmt.countAll_relocate _ body]
  | .ifElse c s o => by
    simp only [Stmt.relocate, Stmt.count, c.count_relocate r, s.count_relocate,
      Stmt.countOption_relocate _ o]
  | .whileLoop c s => by
    simp only [Stmt.relocate, Stmt.count, c.count_relocate r, s.count_relocate]
  | .forLoop o _ _ s => by
    simp only [Stmt.relocate, Stmt.count, countOption_relocate (Expr.count_relocate r),
      s.count_relocate, Stmt.countOption_relocate _ o]
  | .function f => by simp only [Stmt.relocate, Stmt.count, f.count_relocate]
  | .class k => by simp only [Stmt.relocate, Stmt.count, k.count_relocate]

theorem Stmt.countAll_relocate (n : ExprId) : (ss : List Stmt) →
    Stmt.countAll n (Stmt.relocateAll r ss) =
      (Stmt.relocateAll r (Stmt.countAll n ss).1, (Stmt.countAll n ss).2)
  | [] => rfl
  | s :: rest => by
    simp only [Stmt.relocateAll, Stmt.countAll, s.count_relocate, Stmt.countAll_relocate _ rest]

theorem Stmt.countOption_relocate (n : ExprId) : (s : Option Stmt) →
    Stmt.countOption n (Stmt.relocateOption r s) =
      (Stmt.relocateOption r (Stmt.countOption n s).1, (Stmt.countOption n s).2)
  | none => rfl
  | some s => by simp only [Stmt.relocateOption, Stmt.countOption, s.count_relocate]

theorem Function.count_relocate (n : ExprId) : (f : Function) →
    (f.relocate r).count n = ((f.count n).1.relocate r, (f.count n).2)
  | ⟨_, _, body, _⟩ => by
    simp only [Function.relocate, Function.count, Stmt.countAll_relocate _ body]

theorem Function.countAll_relocate (n : ExprId) : (fs : List Function) →
    Function.countAll n (Function.relocateAll r fs) =
      (Function.relocateAll r (Function.countAll n fs).1, (Function.countAll n fs).2)
  | [] => rfl
  | f :: rest => by
    simp only [Function.relocateAll, Function.countAll, f.count_relocate,
      Function.countAll_relocate _ rest]

theorem Class.count_relocate (n : ExprId) : (k : Class) →
    (k.relocate r).count n = ((k.count n).1.relocate r, (k.count n).2)
  | ⟨_, _, methods, _⟩ => by
    simp only [Class.relocate, Class.count, countOption_relocate (Occurrence.count_relocate r),
      Function.countAll_relocate _ methods]

end

end Places

end Lox
