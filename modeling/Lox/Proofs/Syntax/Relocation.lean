import Lox.Proofs.Syntax.Grammar

/-!
# The same text at another place

A text that stands behind another one has the same tokens as when it stands alone, but for their
lines, offsets and numbers. Where a token stands does not matter for the grammar.

* `Relocation`: how lines, offsets and numbers of tokens are changed; `Relocation.nowhere` makes
  tokens equal that differ in their places alone;
* `Token.relocate`, `Expr.relocate`, `Stmt.relocate`, …: tokens and trees with their places changed;
* **`Grammar.Declarations.relocate`**: the grammar has the same trees for relocated tokens.
-/

namespace Lox

/-- How the places of tokens are changed. -/
structure Relocation where
  line : Nat → Nat
  offset : Nat → Nat
  id : TokenId → TokenId

namespace Relocation

/-- All tokens stand at one place. -/
def nowhere : Relocation := ⟨fun _ => 0, fun _ => 0, fun _ => 0⟩

/-- The text stands behind another one. -/
def behind (lines bytes tokens : Nat) : Relocation := ⟨(lines + ·), (bytes + ·), (tokens + ·)⟩

/-- The text in front is taken away again. -/
def backFrom (lines bytes tokens : Nat) : Relocation := ⟨(· - lines), (· - bytes), (· - tokens)⟩

/-- One change of places after another. -/
def andThen (r r' : Relocation) : Relocation :=
  ⟨fun n => r'.line (r.line n), fun n => r'.offset (r.offset n), fun n => r'.id (r.id n)⟩

end Relocation

/-! ## Tokens and trees -/

/-- The position in the relocated text. -/
def Position.relocate (r : Relocation) (p : Position) : Position :=
  ⟨r.line p.line, r.offset p.start, r.offset p.stop⟩

/-- The token of the relocated text. -/
def Token.relocate (r : Relocation) (t : Token) : Token :=
  ⟨t.kind, t.lexeme, t.position.relocate r, r.id t.id⟩

namespace Token

variable (r : Relocation) (t : Token)

@[simp] theorem lexeme_relocate : (t.relocate r).lexeme = t.lexeme := rfl

/-- The text in front is put there and taken away again. -/
theorem relocate_backFrom (lines bytes tokens : Nat) :
    (t.relocate (.behind lines bytes tokens)).relocate (.backFrom lines bytes tokens) = t := by
  simp [relocate, Position.relocate, Relocation.behind, Relocation.backFrom]

theorem map_relocate_backFrom (lines bytes tokens : Nat) (ts : List Token) :
    (ts.map (relocate (.behind lines bytes tokens))).map (relocate (.backFrom lines bytes tokens)) =
      ts := by
  rw [List.map_map]
  exact (List.map_congr_left fun t _ => t.relocate_backFrom lines bytes tokens).trans (List.map_id' ts)

end Token

/-- The occurrence in the relocated text. -/
def Occurrence.relocate (r : Relocation) (use : Occurrence) : Occurrence := ⟨use.id, use.name.relocate r⟩

mutual

/-- The expression of the relocated text. -/
def Expr.relocate (r : Relocation) : Expr → Expr
  | .literal value => .literal value
  | .grouping inner => .grouping (inner.relocate r)
  | .unary op operator operand => .unary op (operator.relocate r) (operand.relocate r)
  | .binary left op operator right =>
    .binary (left.relocate r) op (operator.relocate r) (right.relocate r)
  | .logical left op operator right =>
    .logical (left.relocate r) op (operator.relocate r) (right.relocate r)
  | .variable use => .variable (use.relocate r)
  | .assign target value => .assign (target.relocate r) (value.relocate r)
  | .call callee arguments paren =>
    .call (callee.relocate r) (Expr.relocateAll r arguments) (paren.relocate r)
  | .get object name => .get (object.relocate r) (name.relocate r)
  | .set object name value => .set (object.relocate r) (name.relocate r) (value.relocate r)
  | .this keyword => .this (keyword.relocate r)
  | .super keyword method => .super (keyword.relocate r) (method.relocate r)

/-- The expressions of the relocated text. -/
def Expr.relocateAll (r : Relocation) : List Expr → List Expr
  | [] => []
  | e :: rest => e.relocate r :: Expr.relocateAll r rest

end

mutual

/-- The statement of the relocated text. -/
def Stmt.relocate (r : Relocation) : Stmt → Stmt
  | .expression e => .expression (e.relocate r)
  | .print e => .print (e.relocate r)
  | .var name initializer => .var (name.relocate r) (initializer.map (Expr.relocate r))
  | .block body => .block (Stmt.relocateAll r body)
  | .ifElse condition thenBranch elseBranch =>
    .ifElse (condition.relocate r) (thenBranch.relocate r) (Stmt.relocateOption r elseBranch)
  | .whileLoop condition body => .whileLoop (condition.relocate r) (body.relocate r)
  | .forLoop initializer condition increment body =>
    .forLoop (Stmt.relocateOption r initializer) (condition.map (Expr.relocate r))
      (increment.map (Expr.relocate r)) (body.relocate r)
  | .function declaration => .function (declaration.relocate r)
  | .class declaration => .class (declaration.relocate r)
  | .return keyword value => .return (keyword.relocate r) (value.map (Expr.relocate r))
  | .break keyword => .break (keyword.relocate r)
  | .continue keyword => .continue (keyword.relocate r)

/-- The statements of the relocated text. -/
def Stmt.relocateAll (r : Relocation) : List Stmt → List Stmt
  | [] => []
  | s :: rest => s.relocate r :: Stmt.relocateAll r rest

/-- The statement of the relocated text, if there is one. -/
def Stmt.relocateOption (r : Relocation) : Option Stmt → Option Stmt
  | none => none
  | some s => some (s.relocate r)

/-- The function of the relocated text. -/
def Function.relocate (r : Relocation) : Function → Function
  | ⟨name, params, body, span⟩ =>
    ⟨name.relocate r, params.map (Token.relocate r), Stmt.relocateAll r body, span.relocate r⟩

/-- The functions of the relocated text. -/
def Function.relocateAll (r : Relocation) : List Function → List Function
  | [] => []
  | f :: rest => f.relocate r :: Function.relocateAll r rest

/-- The class of the relocated text. -/
def Class.relocate (r : Relocation) : Class → Class
  | ⟨name, superclass, methods, span⟩ =>
    ⟨name.relocate r, superclass.map (Occurrence.relocate r), Function.relocateAll r methods,
      span.relocate r⟩

end

section Lists

variable (r : Relocation)

theorem Expr.relocateAll_eq (es : List Expr) : Expr.relocateAll r es = es.map (Expr.relocate r) := by
  induction es with
  | nil => rfl
  | cons e es ih => rw [relocateAll, ih, List.map_cons]

theorem Stmt.relocateAll_eq (ss : List Stmt) : Stmt.relocateAll r ss = ss.map (Stmt.relocate r) := by
  induction ss with
  | nil => rfl
  | cons s ss ih => rw [relocateAll, ih, List.map_cons]

theorem Function.relocateAll_eq (fs : List Function) :
    Function.relocateAll r fs = fs.map (Function.relocate r) := by
  induction fs with
  | nil => rfl
  | cons f fs ih => rw [relocateAll, ih, List.map_cons]

@[simp] theorem Function.name_relocate (f : Function) : (f.relocate r).name = f.name.relocate r := by
  cases f
  rfl

@[simp] theorem Function.params_relocate (f : Function) :
    (f.relocate r).params = f.params.map (Token.relocate r) := by
  cases f
  rfl

@[simp] theorem Function.body_relocate (f : Function) :
    (f.relocate r).body = Stmt.relocateAll r f.body := by
  cases f
  rfl

@[simp] theorem Function.isInitializer_relocate (f : Function) :
    (f.relocate r).isInitializer = f.isInitializer := by
  rw [isInitializer, name_relocate, Token.lexeme_relocate, isInitializer]

@[simp] theorem Class.name_relocate (c : Class) : (c.relocate r).name = c.name.relocate r := by
  cases c
  rfl

@[simp] theorem Class.superclass_relocate (c : Class) :
    (c.relocate r).superclass = c.superclass.map (Occurrence.relocate r) := by
  cases c
  rfl

@[simp] theorem Class.methods_relocate (c : Class) :
    (c.relocate r).methods = c.methods.map (Function.relocate r) := by
  cases c
  exact Function.relocateAll_eq r _

end Lists

/-! ## One change of places after another -/

section Twice

variable (r r' : Relocation)

theorem Occurrence.relocate_relocate (use : Option Occurrence) :
    (use.map (Occurrence.relocate r)).map (Occurrence.relocate r') =
      use.map (Occurrence.relocate (r.andThen r')) := by
  cases use <;> rfl

theorem Token.map_relocate_relocate (ts : List Token) :
    (ts.map (Token.relocate r)).map (Token.relocate r') = ts.map (Token.relocate (r.andThen r')) :=
  List.map_map

mutual

theorem Expr.relocate_relocate : (e : Expr) → (e.relocate r).relocate r' = e.relocate (r.andThen r')
  | .literal _ | .variable _ | .this _ | .super _ _ => rfl
  | .grouping inner => congrArg Expr.grouping inner.relocate_relocate
  | .unary op _ operand => congrArg (Expr.unary op _) operand.relocate_relocate
  | .binary left op _ right => by
    simp only [Expr.relocate, left.relocate_relocate, right.relocate_relocate]
    rfl
  | .logical left op _ right => by
    simp only [Expr.relocate, left.relocate_relocate, right.relocate_relocate]
    rfl
  | .assign _ value => congrArg (Expr.assign _) value.relocate_relocate
  | .call callee arguments _ => by
    simp only [Expr.relocate, callee.relocate_relocate, Expr.relocateAll_relocateAll arguments]
    rfl
  | .get object _ => congrArg (Expr.get · _) object.relocate_relocate
  | .set object _ value => by
    simp only [Expr.relocate, object.relocate_relocate, value.relocate_relocate]
    rfl

theorem Expr.relocateAll_relocateAll : (es : List Expr) →
    Expr.relocateAll r' (Expr.relocateAll r es) = Expr.relocateAll (r.andThen r') es
  | [] => rfl
  | e :: rest => by
    simp only [Expr.relocateAll, e.relocate_relocate, Expr.relocateAll_relocateAll rest]

end

theorem Expr.map_relocate_relocate (e : Option Expr) :
    (e.map (Expr.relocate r)).map (Expr.relocate r') = e.map (Expr.relocate (r.andThen r')) := by
  cases e with
  | none => rfl
  | some e => exact congrArg some (e.relocate_relocate r r')

mutual

theorem Stmt.relocate_relocate : (s : Stmt) → (s.relocate r).relocate r' = s.relocate (r.andThen r')
  | .expression e => congrArg Stmt.expression (e.relocate_relocate r r')
  | .print e => congrArg Stmt.print (e.relocate_relocate r r')
  | .var _ initializer => congrArg (Stmt.var _) (Expr.map_relocate_relocate r r' initializer)
  | .block body => congrArg Stmt.block (Stmt.relocateAll_relocateAll body)
  | .ifElse condition thenBranch elseBranch => by
    simp only [Stmt.relocate, Expr.relocate_relocate, thenBranch.relocate_relocate,
      Stmt.relocateOption_relocateOption elseBranch]
  | .whileLoop condition body => by
    simp only [Stmt.relocate, Expr.relocate_relocate, body.relocate_relocate]
  | .forLoop initializer condition increment body => by
    simp only [Stmt.relocate, Stmt.relocateOption_relocateOption initializer,
      Expr.map_relocate_relocate, body.relocate_relocate]
  | .function declaration => congrArg Stmt.function declaration.relocate_relocate
  | .class declaration => congrArg Stmt.class declaration.relocate_relocate
  | .return _ value => congrArg (Stmt.return _) (Expr.map_relocate_relocate r r' value)
  | .break _ | .continue _ => rfl

theorem Stmt.relocateAll_relocateAll : (ss : List Stmt) →
    Stmt.relocateAll r' (Stmt.relocateAll r ss) = Stmt.relocateAll (r.andThen r') ss
  | [] => rfl
  | s :: rest => by
    simp only [Stmt.relocateAll, s.relocate_relocate, Stmt.relocateAll_relocateAll rest]

theorem Stmt.relocateOption_relocateOption : (s : Option Stmt) →
    Stmt.relocateOption r' (Stmt.relocateOption r s) = Stmt.relocateOption (r.andThen r') s
  | none => rfl
  | some s => congrArg some s.relocate_relocate

theorem Function.relocate_relocate :
    (f : Function) → (f.relocate r).relocate r' = f.relocate (r.andThen r')
  | ⟨_, params, body, _⟩ => by
    simp only [Function.relocate, Token.map_relocate_relocate, Stmt.relocateAll_relocateAll body]
    rfl

theorem Function.relocateAll_relocateAll : (fs : List Function) →
    Function.relocateAll r' (Function.relocateAll r fs) = Function.relocateAll (r.andThen r') fs
  | [] => rfl
  | f :: rest => by
    simp only [Function.relocateAll, f.relocate_relocate, Function.relocateAll_relocateAll rest]

theorem Class.relocate_relocate : (c : Class) → (c.relocate r).relocate r' = c.relocate (r.andThen r')
  | ⟨_, superclass, methods, _⟩ => by
    simp only [Class.relocate, Occurrence.relocate_relocate, Function.relocateAll_relocateAll methods]
    rfl

end

theorem Stmt.relocateAll_nowhere (ss : List Stmt) :
    Stmt.relocateAll .nowhere (Stmt.relocateAll r ss) = Stmt.relocateAll .nowhere ss :=
  Stmt.relocateAll_relocateAll r .nowhere ss

theorem Stmt.relocateAll_append (ss ts : List Stmt) :
    Stmt.relocateAll r (ss ++ ts) = Stmt.relocateAll r ss ++ Stmt.relocateAll r ts := by
  simp only [Stmt.relocateAll_eq, List.map_append]

end Twice

/-! ## The grammar -/

namespace Grammar

variable (r : Relocation)

mutual

theorem Expression.relocate {rank : Rank} {ts : List Token} {e : Expr} (h : Expression rank ts e) :
    Expression rank (ts.map (Token.relocate r)) (e.relocate r) := by
  match h with
  | .literal hk => exact .literal hk
  | .variable hk => exact .variable hk
  | .this hk => exact .this hk
  | .super hk hdot hname => exact .super hk hdot hname
  | .grouping ho he hc =>
    rw [List.cons_append, List.map_cons, List.map_append]
    exact .grouping ho he.relocate hc
  | .callPrimary he => exact .callPrimary he.relocate
  | .call he ho hes hcount hc =>
    rw [List.map_append, List.map_append]
    refine .call he.relocate ho hes.relocate ?_ hc
    rwa [Expr.relocateAll_eq, List.length_map]
  | .get he hdot hname =>
    rw [List.map_append]
    exact .get he.relocate hdot hname
  | .unaryCall he => exact .unaryCall he.relocate
  | .unary ht he => exact .unary ht he.relocate
  | .operand he => exact .operand he.relocate
  | .binary hop he ht hf =>
    rw [List.map_append]
    exact .binary hop he.relocate ht hf.relocate
  | .logical hop he ht hf =>
    rw [List.map_append]
    exact .logical hop he.relocate ht hf.relocate
  | .disjunction he => exact .disjunction he.relocate
  | .assign ht hequals he => exact .assign ht hequals he.relocate
  | .set he hdot hname hequals hf =>
    rw [List.map_append]
    exact .set he.relocate hdot hname hequals hf.relocate
termination_by structural h

theorem Listed.relocate {ts : List Token} {es : List Expr} (h : Listed ts es) :
    Listed (ts.map (Token.relocate r)) (Expr.relocateAll r es) := by
  match h with
  | .one he => exact .one he.relocate
  | .more he hcomma hes =>
    rw [List.map_append]
    exact .more he.relocate hcomma hes.relocate
termination_by structural h

theorem Arguments.relocate {ts : List Token} {es : List Expr} (h : Arguments ts es) :
    Arguments (ts.map (Token.relocate r)) (Expr.relocateAll r es) := by
  match h with
  | .none => exact .none
  | .some hes => exact .some hes.relocate
termination_by structural h

end

theorem Optional.relocate {ts : List Token} {o : Option Expr} (h : Optional ts o) :
    Optional (ts.map (Token.relocate r)) (o.map (Expr.relocate r)) := by
  cases h with
  | none => exact .none
  | some he => exact .some (he.relocate r)

theorem ExpressionStatement.relocate {ts : List Token} {s : Stmt} (h : ExpressionStatement ts s) :
    ExpressionStatement (ts.map (Token.relocate r)) (s.relocate r) := by
  cases h with
  | mk he hsemicolon =>
    rw [List.map_append]
    exact .mk (he.relocate r) hsemicolon

theorem InitialValue.relocate {ts : List Token} {o : Option Expr} (h : InitialValue ts o) :
    InitialValue (ts.map (Token.relocate r)) (o.map (Expr.relocate r)) := by
  cases h with
  | none => exact .none
  | some hequals he => exact .some hequals (he.relocate r)

theorem Variable.relocate {ts : List Token} {s : Stmt} (h : Variable ts s) :
    Variable (ts.map (Token.relocate r)) (s.relocate r) := by
  cases h with
  | mk hword hname hvalue hsemicolon =>
    rw [List.map_append]
    exact .mk hword hname (hvalue.relocate r) hsemicolon

theorem Initializer.relocate {ts : List Token} {o : Option Stmt} (h : Initializer ts o) :
    Initializer (ts.map (Token.relocate r)) (Stmt.relocateOption r o) := by
  cases h with
  | none hsemicolon => exact .none hsemicolon
  | «variable» hs => exact .variable (hs.relocate r)
  | expression hs => exact .expression (hs.relocate r)

theorem Names.relocate {ts names : List Token} (h : Names ts names) :
    Names (ts.map (Token.relocate r)) (names.map (Token.relocate r)) := by
  induction h with
  | one hname => exact .one hname
  | more hname hcomma _ ih => exact .more hname hcomma ih

theorem Parameters.relocate {ts names : List Token} (h : Parameters ts names) :
    Parameters (ts.map (Token.relocate r)) (names.map (Token.relocate r)) := by
  cases h with
  | none => exact .none
  | some hnames => exact .some (hnames.relocate r)

theorem Superclass.relocate {ts : List Token} {o : Option Occurrence} (h : Superclass ts o) :
    Superclass (ts.map (Token.relocate r)) (o.map (Occurrence.relocate r)) := by
  cases h with
  | none => exact .none
  | some hless hname => exact .some hless hname

end Grammar

theorem Stmt.endsOpen_relocate (r : Relocation) : (s : Stmt) → (s.relocate r).endsOpen = s.endsOpen
  | .ifElse _ _ none => rfl
  | .ifElse _ _ (some s) | .whileLoop _ s | .forLoop _ _ _ s => s.endsOpen_relocate r
  | .expression _ | .print _ | .var _ _ | .block _ | .function _ | .class _ | .return _ _ | .break _
  | .continue _ => rfl

namespace Grammar

variable (r : Relocation)

mutual

theorem Statement.relocate {ts : List Token} {s : Stmt} (h : Statement ts s) :
    Statement (ts.map (Token.relocate r)) (s.relocate r) := by
  match h with
  | .expression hs => exact .expression (hs.relocate r)
  | .print hword he hsemicolon =>
    rw [List.map_append]
    exact .print hword (he.relocate r) hsemicolon
  | .block ho hbody hc =>
    rw [List.map_append]
    exact .block ho hbody.relocate hc
  | .ifThen hword ho he hc hthen =>
    rw [List.map_append]
    exact .ifThen hword ho (he.relocate r) hc hthen.relocate
  | .ifElse hword ho he hc hthen hopen hother helse =>
    rw [List.map_append, List.map_append]
    exact .ifElse hword ho (he.relocate r) hc hthen.relocate
      ((Stmt.endsOpen_relocate r _).trans hopen) hother helse.relocate
  | .whileLoop hword ho he hc hbody =>
    rw [List.map_append]
    exact .whileLoop hword ho (he.relocate r) hc hbody.relocate
  | .forLoop hword ho hinit hcond hsemicolon hincr hc hbody =>
    rw [List.map_append, List.map_append, List.map_append]
    exact .forLoop hword ho (hinit.relocate r) (hcond.relocate r) hsemicolon (hincr.relocate r) hc
      hbody.relocate
  | .return hword hvalue hsemicolon =>
    rw [List.map_append]
    exact .return hword (hvalue.relocate r) hsemicolon
  | .break hword hsemicolon => exact .break hword hsemicolon
  | .continue hword hsemicolon => exact .continue hword hsemicolon
termination_by structural h

theorem Declaration.relocate {ts : List Token} {s : Stmt} (h : Declaration ts s) :
    Declaration (ts.map (Token.relocate r)) (s.relocate r) := by
  match h with
  | .class hword hname hsuper ho hmethods hc =>
    rw [List.map_append, List.map_append]
    exact .class hword hname (hsuper.relocate r) ho hmethods.relocate hc
  | .function hword hf => exact .function hword hf.relocate
  | .variable hs => exact .variable (hs.relocate r)
  | .statement hs => exact .statement hs.relocate
termination_by structural h

theorem Callable.relocate {first : Token} {ts : List Token} {f : Function} (h : Callable first ts f) :
    Callable (first.relocate r) (ts.map (Token.relocate r)) (f.relocate r) := by
  match h with
  | .mk hname ho hparams hcount hc hbrace hbody hfinal =>
    rw [List.map_append, List.map_append]
    exact .mk hname ho (hparams.relocate r) (by rwa [List.length_map]) hc hbrace
      hbody.relocate hfinal
termination_by structural h

theorem Methods.relocate {ts : List Token} {fs : List Function} (h : Methods ts fs) :
    Methods (ts.map (Token.relocate r)) (Function.relocateAll r fs) := by
  match h with
  | .nil => exact .nil
  | .cons hf hfs =>
    rw [List.map_append]
    exact .cons hf.relocate hfs.relocate
termination_by structural h

/-- **The grammar does not see where tokens stand.** -/
theorem Declarations.relocate {ts : List Token} {ss : List Stmt} (h : Declarations ts ss) :
    Declarations (ts.map (Token.relocate r)) (Stmt.relocateAll r ss) := by
  match h with
  | .nil => exact .nil
  | .cons hs hss =>
    rw [List.map_append]
    exact .cons hs.relocate hss.relocate
termination_by structural h

end

end Grammar

end Lox
