import Lox.Proofs.Syntax.Counted
import Lox.Proofs.Syntax.Namings

/-!
# The same text with other names

Some of the identifiers of a text are spelled in another way, and whatever stands behind them moves.
For the grammar an identifier is as good as another one. The names of properties are left alone.

* `Respelling`: which identifiers change, the former and the new spelling, and where the offsets go;
* `Token.respelled`: the other spelling of a token;
* `Token.respell`, `Expr.respell`, `Stmt.respell`, …: tokens and trees of the other text;
* **`Grammar.Declarations.respell`**: the grammar has the respelled tree for the respelled tokens;
* **`Stmt.countAll_respell`**: names do not matter for how the occurrences are numbered.
-/

namespace Lox

/-- How identifiers are spelled in another way. -/
structure Respelling where
  chosen : TokenId → Bool
  old : String
  new : String
  offset : Nat → Nat

namespace Respelling

variable (r : Respelling)

/-- Tokens keep their lines and numbers. -/
def places : Relocation := ⟨id, r.offset, id⟩

/-- The token is an identifier that changes. -/
def picks (t : Token) : Bool := t.terminal == .identifier && r.chosen t.id

/-- No name of a property changes. -/
def Spares (ns : List Naming) : Prop := ∀ n ∈ ns, n.role = .property → r.picks n.token = false

variable {r} {ns ns' : List Naming} {n : Naming}

theorem Spares.left (h : r.Spares (ns ++ ns')) : r.Spares ns :=
  fun n hn => h n (List.mem_append_left _ hn)

theorem Spares.right (h : r.Spares (ns ++ ns')) : r.Spares ns' :=
  fun n hn => h n (List.mem_append_right _ hn)

theorem Spares.tail (h : r.Spares (n :: ns)) : r.Spares ns :=
  fun m hm => h m (List.mem_cons_of_mem _ hm)

end Respelling

/-! ## Tokens and trees -/

namespace Token

variable (r : Respelling) (t : Token)

/-- How a token is spelled in the other text. -/
def respelled : String := if r.picks t then r.new else t.lexeme

/-- The token of the other text. -/
def respell : Token := ⟨t.kind, t.respelled r, t.position.relocate r.places, t.id⟩

variable {r t}

theorem respelled_of_picks (h : r.picks t = true) : t.respelled r = r.new := if_pos h

theorem respelled_of_not_picks (h : r.picks t = false) : t.respelled r = t.lexeme :=
  if_neg (Bool.eq_false_iff.mp h)

theorem respell_of_not_picks (h : r.picks t = false) : t.respell r = t.relocate r.places := by
  rw [respell, respelled_of_not_picks h]
  rfl

theorem not_picks_of_terminal (h : t.terminal ≠ .identifier) : r.picks t = false := by
  rw [Respelling.picks, beq_eq_false_iff_ne.mpr h, Bool.false_and]

theorem IsMark.respell {p : Punct} (h : t.IsMark p) : t.respell r = t.relocate r.places :=
  respell_of_not_picks (not_picks_of_terminal (by simp [h.terminal]))

theorem IsWord.respell {k : Keyword} (h : t.IsWord k) : t.respell r = t.relocate r.places :=
  respell_of_not_picks (not_picks_of_terminal (by simp [h.terminal]))

end Token

/-- The name of a property just moves. -/
theorem Respelling.Spares.respell_property {r : Respelling} {t : Token} {ns : List Naming}
    (h : r.Spares (⟨t, .property⟩ :: ns)) : t.respell r = t.relocate r.places :=
  Token.respell_of_not_picks (h _ List.mem_cons_self rfl)

/-- The occurrence in the other text. -/
def Occurrence.respell (r : Respelling) (use : Occurrence) : Occurrence := ⟨use.id, use.name.respell r⟩

mutual

/-- The expression of the other text. -/
def Expr.respell (r : Respelling) : Expr → Expr
  | .literal value => .literal value
  | .grouping inner => .grouping (inner.respell r)
  | .unary op operator operand => .unary op (operator.relocate r.places) (operand.respell r)
  | .binary left op operator right =>
    .binary (left.respell r) op (operator.relocate r.places) (right.respell r)
  | .logical left op operator right =>
    .logical (left.respell r) op (operator.relocate r.places) (right.respell r)
  | .variable use => .variable (use.respell r)
  | .assign target value => .assign (target.respell r) (value.respell r)
  | .call callee arguments paren =>
    .call (callee.respell r) (Expr.respellAll r arguments) (paren.relocate r.places)
  | .get object name => .get (object.respell r) (name.relocate r.places)
  | .set object name value => .set (object.respell r) (name.relocate r.places) (value.respell r)
  | .this keyword => .this (keyword.respell r)
  | .super keyword method => .super (keyword.respell r) (method.relocate r.places)

/-- The expressions of the other text. -/
def Expr.respellAll (r : Respelling) : List Expr → List Expr
  | [] => []
  | e :: rest => e.respell r :: Expr.respellAll r rest

end

mutual

/-- The statement of the other text. -/
def Stmt.respell (r : Respelling) : Stmt → Stmt
  | .expression e => .expression (e.respell r)
  | .print e => .print (e.respell r)
  | .var name initializer => .var (name.respell r) (initializer.map (Expr.respell r))
  | .block body => .block (Stmt.respellAll r body)
  | .ifElse condition thenBranch elseBranch =>
    .ifElse (condition.respell r) (thenBranch.respell r) (Stmt.respellOption r elseBranch)
  | .whileLoop condition body => .whileLoop (condition.respell r) (body.respell r)
  | .forLoop initializer condition increment body =>
    .forLoop (Stmt.respellOption r initializer) (condition.map (Expr.respell r))
      (increment.map (Expr.respell r)) (body.respell r)
  | .function declaration => .function (declaration.respell r (declaration.name.respell r))
  | .class declaration => .class (declaration.respell r)
  | .return keyword value => .return (keyword.relocate r.places) (value.map (Expr.respell r))
  | .break keyword => .break (keyword.relocate r.places)
  | .continue keyword => .continue (keyword.relocate r.places)

/-- The statements of the other text. -/
def Stmt.respellAll (r : Respelling) : List Stmt → List Stmt
  | [] => []
  | s :: rest => s.respell r :: Stmt.respellAll r rest

/-- The statement of the other text, if there is one. -/
def Stmt.respellOption (r : Respelling) : Option Stmt → Option Stmt
  | none => none
  | some s => some (s.respell r)

/-- The function of the other text, under the given name: that of a method is a property. -/
def Function.respell (r : Respelling) (name : Token) : Function → Function
  | ⟨_, params, body, span⟩ =>
    ⟨name, params.map (Token.respell r), Stmt.respellAll r body, span.relocate r.places⟩

/-- The methods of the other text. -/
def Function.respellMethods (r : Respelling) : List Function → List Function
  | [] => []
  | f :: rest => f.respell r (f.name.relocate r.places) :: Function.respellMethods r rest

/-- The class of the other text. -/
def Class.respell (r : Respelling) : Class → Class
  | ⟨name, superclass, methods, span⟩ =>
    ⟨name.respell r, superclass.map (Occurrence.respell r), Function.respellMethods r methods,
      span.relocate r.places⟩

end

section Lists

variable (r : Respelling)

theorem Expr.respellAll_eq (es : List Expr) : Expr.respellAll r es = es.map (Expr.respell r) := by
  induction es with
  | nil => rfl
  | cons e es ih => rw [respellAll, ih, List.map_cons]

theorem Stmt.respellAll_eq (ss : List Stmt) : Stmt.respellAll r ss = ss.map (Stmt.respell r) := by
  induction ss with
  | nil => rfl
  | cons s ss ih => rw [respellAll, ih, List.map_cons]

/-- A method keeps its name. -/
def Function.respellMethod (f : Function) : Function := f.respell r (f.name.relocate r.places)

theorem Function.respellMethods_eq (fs : List Function) :
    Function.respellMethods r fs = fs.map (Function.respellMethod r) := by
  induction fs with
  | nil => rfl
  | cons f fs ih => rw [respellMethods, ih, List.map_cons, respellMethod]

variable (name : Token) (f : Function)

@[simp] theorem Function.name_respell : (f.respell r name).name = name := by
  cases f
  rfl

@[simp] theorem Function.params_respell :
    (f.respell r name).params = f.params.map (Token.respell r) := by
  cases f
  rfl

@[simp] theorem Function.body_respell : (f.respell r name).body = Stmt.respellAll r f.body := by
  cases f
  rfl

@[simp] theorem Function.isInitializer_respellMethod :
    (f.respellMethod r).isInitializer = f.isInitializer := by
  rw [isInitializer, respellMethod, name_respell, Token.lexeme_relocate, isInitializer]

@[simp] theorem Class.name_respell (k : Class) : (k.respell r).name = k.name.respell r := by
  cases k
  rfl

@[simp] theorem Class.superclass_respell (k : Class) :
    (k.respell r).superclass = k.superclass.map (Occurrence.respell r) := by
  cases k
  rfl

@[simp] theorem Class.methods_respell (k : Class) :
    (k.respell r).methods = k.methods.map (Function.respellMethod r) := by
  cases k
  exact Function.respellMethods_eq r _

end Lists

/-! ## The grammar -/

namespace Grammar

variable {r : Respelling}

theorem respell_operator {t : Token} {op : UnaryOp} (h : t.terminal = op.terminal) :
    t.respell r = t.relocate r.places :=
  Token.respell_of_not_picks (Token.not_picks_of_terminal (by rw [h]; cases op <;> nofun))

mutual

theorem Expression.respell {rank : Rank} {ts : List Token} {e : Expr} (h : Expression rank ts e)
    (hr : r.Spares e.namings) : Expression rank (ts.map (Token.respell r)) (e.respell r) := by
  match h with
  | .literal hk => exact .literal hk
  | .variable hk => exact .variable hk
  | .this hk => exact .this hk
  | .super hk hdot hname =>
    rw [Expr.respell, ← hr.respell_property]
    exact .super hk hdot hname
  | .grouping ho he hc =>
    rw [List.cons_append, List.map_cons, List.map_append]
    exact .grouping ho (he.respell hr) hc
  | .callPrimary he => exact .callPrimary (he.respell hr)
  | .call he ho hes hcount hc =>
    rw [List.map_append, List.map_append, Expr.respell, ← hc.respell]
    refine .call (he.respell hr.left) ho (hes.respell hr.right) ?_ hc
    rwa [Expr.respellAll_eq, List.length_map]
  | .get he hdot hname =>
    rw [List.map_append, Expr.respell, ← hr.right.respell_property]
    exact .get (he.respell hr.left) hdot hname
  | .unaryCall he => exact .unaryCall (he.respell hr)
  | .unary ht he =>
    rw [Expr.respell, ← respell_operator ht]
    exact .unary ht (he.respell hr)
  | .operand he => exact .operand (he.respell hr)
  | .binary hop he ht hf =>
    rw [List.map_append, Expr.respell, ← ht.respell]
    exact .binary hop (he.respell hr.left) ht (hf.respell hr.right)
  | .logical hop he ht hf =>
    rw [List.map_append, Expr.respell, ← ht.respell]
    exact .logical hop (he.respell hr.left) ht (hf.respell hr.right)
  | .disjunction he => exact .disjunction (he.respell hr)
  | .assign ht hequals he => exact .assign ht hequals (he.respell hr.tail)
  | .set he hdot hname hequals hf =>
    rw [List.map_append, Expr.respell, ← hr.right.respell_property]
    exact .set (he.respell hr.left) hdot hname hequals (hf.respell hr.right.tail)
termination_by structural h

theorem Listed.respell {ts : List Token} {es : List Expr} (h : Listed ts es)
    (hr : r.Spares (Expr.namingsAll es)) :
    Listed (ts.map (Token.respell r)) (Expr.respellAll r es) := by
  match h with
  | .one he => exact .one (he.respell hr.left)
  | .more he hcomma hes =>
    rw [List.map_append]
    exact .more (he.respell hr.left) hcomma (hes.respell hr.right)
termination_by structural h

theorem Arguments.respell {ts : List Token} {es : List Expr} (h : Arguments ts es)
    (hr : r.Spares (Expr.namingsAll es)) :
    Arguments (ts.map (Token.respell r)) (Expr.respellAll r es) := by
  match h with
  | .none => exact .none
  | .some hes => exact .some (hes.respell hr)
termination_by structural h

end

theorem Optional.respell {ts : List Token} {o : Option Expr} (h : Optional ts o)
    (hr : r.Spares (Expr.namingsOption o)) :
    Optional (ts.map (Token.respell r)) (o.map (Expr.respell r)) := by
  cases h with
  | none => exact .none
  | some he => exact .some (he.respell hr)

theorem ExpressionStatement.respell {ts : List Token} {s : Stmt} (h : ExpressionStatement ts s)
    (hr : r.Spares s.namings) : ExpressionStatement (ts.map (Token.respell r)) (s.respell r) := by
  cases h with
  | mk he hsemicolon =>
    rw [List.map_append]
    exact .mk (he.respell hr) hsemicolon

theorem InitialValue.respell {ts : List Token} {o : Option Expr} (h : InitialValue ts o)
    (hr : r.Spares (Expr.namingsOption o)) :
    InitialValue (ts.map (Token.respell r)) (o.map (Expr.respell r)) := by
  cases h with
  | none => exact .none
  | some hequals he => exact .some hequals (he.respell hr)

theorem Variable.respell {ts : List Token} {s : Stmt} (h : Variable ts s) (hr : r.Spares s.namings) :
    Variable (ts.map (Token.respell r)) (s.respell r) := by
  cases h with
  | mk hword hname hvalue hsemicolon =>
    rw [List.map_append]
    exact .mk hword hname (hvalue.respell hr.tail) hsemicolon

theorem Initializer.respell {ts : List Token} {o : Option Stmt} (h : Initializer ts o)
    (hr : r.Spares (Stmt.namingsOption o)) :
    Initializer (ts.map (Token.respell r)) (Stmt.respellOption r o) := by
  cases h with
  | none hsemicolon => exact .none hsemicolon
  | «variable» hs => exact .variable (hs.respell hr)
  | expression hs => exact .expression (hs.respell hr)

theorem Names.respell {ts names : List Token} (h : Names ts names) :
    Names (ts.map (Token.respell r)) (names.map (Token.respell r)) := by
  induction h with
  | one hname => exact .one hname
  | more hname hcomma _ ih => exact .more hname hcomma ih

theorem Parameters.respell {ts names : List Token} (h : Parameters ts names) :
    Parameters (ts.map (Token.respell r)) (names.map (Token.respell r)) := by
  cases h with
  | none => exact .none
  | some hnames => exact .some hnames.respell

theorem Superclass.respell {ts : List Token} {o : Option Occurrence} (h : Superclass ts o) :
    Superclass (ts.map (Token.respell r)) (o.map (Occurrence.respell r)) := by
  cases h with
  | none => exact .none
  | some hless hname => exact .some hless hname

end Grammar

theorem Stmt.endsOpen_respell (r : Respelling) : (s : Stmt) → (s.respell r).endsOpen = s.endsOpen
  | .ifElse _ _ none => rfl
  | .ifElse _ _ (some s) | .whileLoop _ s | .forLoop _ _ _ s => s.endsOpen_respell r
  | .expression _ | .print _ | .var _ _ | .block _ | .function _ | .class _ | .return _ _ | .break _
  | .continue _ => rfl

namespace Grammar

variable {r : Respelling}

mutual

theorem Statement.respell {ts : List Token} {s : Stmt} (h : Statement ts s)
    (hr : r.Spares s.namings) : Statement (ts.map (Token.respell r)) (s.respell r) := by
  match h with
  | .expression hs => exact .expression (hs.respell hr)
  | .print hword he hsemicolon =>
    rw [List.map_append]
    exact .print hword (he.respell hr) hsemicolon
  | .block ho hbody hc =>
    rw [List.map_append]
    exact .block ho (hbody.respell hr) hc
  | .ifThen hword ho he hc hthen =>
    rw [List.map_append]
    exact .ifThen hword ho (he.respell hr.left.left) hc (hthen.respell hr.left.right)
  | .ifElse hword ho he hc hthen hopen hother helse =>
    rw [List.map_append, List.map_append]
    exact .ifElse hword ho (he.respell hr.left.left) hc (hthen.respell hr.left.right)
      ((Stmt.endsOpen_respell r _).trans hopen) hother (helse.respell hr.right)
  | .whileLoop hword ho he hc hbody =>
    rw [List.map_append]
    exact .whileLoop hword ho (he.respell hr.left) hc (hbody.respell hr.right)
  | .forLoop hword ho hinit hcond hsemicolon hincr hc hbody =>
    rw [List.map_append, List.map_append, List.map_append]
    exact .forLoop hword ho (hinit.respell hr.left.left.left) (hcond.respell hr.left.left.right)
      hsemicolon (hincr.respell hr.left.right) hc (hbody.respell hr.right)
  | .return hword hvalue hsemicolon =>
    rw [List.map_append, Stmt.respell, ← hword.respell]
    exact .return hword (hvalue.respell hr) hsemicolon
  | .break hword hsemicolon =>
    rw [Stmt.respell, ← hword.respell]
    exact .break hword hsemicolon
  | .continue hword hsemicolon =>
    rw [Stmt.respell, ← hword.respell]
    exact .continue hword hsemicolon
termination_by structural h

theorem Declaration.respell {ts : List Token} {s : Stmt} (h : Declaration ts s)
    (hr : r.Spares s.namings) : Declaration (ts.map (Token.respell r)) (s.respell r) := by
  match h with
  | .class hword hname hsuper ho hmethods hc =>
    rw [List.map_append, List.map_append]
    exact .class hword hname hsuper.respell ho (hmethods.respell hr.tail.right) hc
  | .function hword hf => exact .function hword (hf.respell hr.tail)
  | .variable hs => exact .variable (hs.respell hr)
  | .statement hs => exact .statement (hs.respell hr)
termination_by structural h

theorem Callable.respell {first : Token} {ts : List Token} {f : Function} (h : Callable first ts f)
    (hr : r.Spares f.namings) :
    Callable (first.respell r) (ts.map (Token.respell r)) (f.respell r (f.name.respell r)) := by
  match h with
  | .mk hname ho hparams hcount hc hbrace hbody hfinal =>
    rw [List.map_append, List.map_append]
    exact .mk hname ho hparams.respell (by rwa [List.length_map]) hc hbrace
      (hbody.respell hr.right) hfinal
termination_by structural h

theorem Methods.respell {ts : List Token} {fs : List Function} (h : Methods ts fs)
    (hr : r.Spares (Function.namingsMethods fs)) :
    Methods (ts.map (Token.respell r)) (Function.respellMethods r fs) := by
  match h with
  | .nil => exact .nil
  | .cons hf hfs =>
    rw [List.map_append, Function.respellMethods, ← hr.respell_property]
    exact .cons (hf.respell hr.tail.left) (hfs.respell hr.tail.right)
termination_by structural h

/-- **The grammar does not see how names are spelled.** -/
theorem Declarations.respell {ts : List Token} {ss : List Stmt} (h : Declarations ts ss)
    (hr : r.Spares (Stmt.namingsAll ss)) :
    Declarations (ts.map (Token.respell r)) (Stmt.respellAll r ss) := by
  match h with
  | .nil => exact .nil
  | .cons hs hss =>
    rw [List.map_append]
    exact .cons (hs.respell hr.left) (hss.respell hr.right)
termination_by structural h

end

end Grammar

/-! ## Numbers -/

section Numbers

variable (r : Respelling)

theorem Occurrence.count_respell (n : ExprId) (use : Occurrence) :
    (use.respell r).count n = ((use.count n).1.respell r, (use.count n).2) := rfl

mutual

theorem Expr.count_respell (n : ExprId) : (e : Expr) →
    (e.respell r).count n = ((e.count n).1.respell r, (e.count n).2)
  | .literal _ | .variable _ | .this _ | .super _ _ => rfl
  | .grouping e | .unary _ _ e | .get e _ | .assign _ e => by
    simp only [Expr.respell, Expr.count, e.count_respell, Occurrence.count_respell]
  | .binary a _ _ b | .logical a _ _ b | .set a _ b => by
    simp only [Expr.respell, Expr.count, a.count_respell, b.count_respell]
  | .call e es _ => by
    simp only [Expr.respell, Expr.count, e.count_respell, Expr.countAll_respell _ es]

theorem Expr.countAll_respell (n : ExprId) : (es : List Expr) →
    Expr.countAll n (Expr.respellAll r es) =
      (Expr.respellAll r (Expr.countAll n es).1, (Expr.countAll n es).2)
  | [] => rfl
  | e :: rest => by
    simp only [Expr.respellAll, Expr.countAll, e.count_respell, Expr.countAll_respell _ rest]

end

@[simp] theorem Function.name_count (n : ExprId) (f : Function) : (f.count n).1.name = f.name := by
  cases f
  rfl

mutual

theorem Stmt.count_respell (n : ExprId) : (s : Stmt) →
    (s.respell r).count n = ((s.count n).1.respell r, (s.count n).2)
  | .break _ | .continue _ => rfl
  | .expression e | .print e => by simp only [Stmt.respell, Stmt.count, e.count_respell r]
  | .var _ _ | .return _ _ => by
    simp only [Stmt.respell, Stmt.count, countOption_relocate (Expr.count_respell r)]
  | .block body => by simp only [Stmt.respell, Stmt.count, Stmt.countAll_respell _ body]
  | .ifElse c s o => by
    simp only [Stmt.respell, Stmt.count, c.count_respell r, s.count_respell,
      Stmt.countOption_respell _ o]
  | .whileLoop c s => by
    simp only [Stmt.respell, Stmt.count, c.count_respell r, s.count_respell]
  | .forLoop o _ _ s => by
    simp only [Stmt.respell, Stmt.count, countOption_relocate (Expr.count_respell r),
      s.count_respell, Stmt.countOption_respell _ o]
  | .function f => by
    simp only [Stmt.respell, Stmt.count, f.count_respell, Function.name_count]
  | .class k => by simp only [Stmt.respell, Stmt.count, k.count_respell]

/-- **Names do not matter for how the occurrences of a program are numbered.** -/
theorem Stmt.countAll_respell (n : ExprId) : (ss : List Stmt) →
    Stmt.countAll n (Stmt.respellAll r ss) =
      (Stmt.respellAll r (Stmt.countAll n ss).1, (Stmt.countAll n ss).2)
  | [] => rfl
  | s :: rest => by
    simp only [Stmt.respellAll, Stmt.countAll, s.count_respell, Stmt.countAll_respell _ rest]

theorem Stmt.countOption_respell (n : ExprId) : (s : Option Stmt) →
    Stmt.countOption n (Stmt.respellOption r s) =
      (Stmt.respellOption r (Stmt.countOption n s).1, (Stmt.countOption n s).2)
  | none => rfl
  | some s => by simp only [Stmt.respellOption, Stmt.countOption, s.count_respell]

theorem Function.count_respell (n : ExprId) (name : Token) : (f : Function) →
    (f.respell r name).count n = ((f.count n).1.respell r name, (f.count n).2)
  | ⟨_, _, body, _⟩ => by
    simp only [Function.respell, Function.count, Stmt.countAll_respell _ body]

theorem Function.countAll_respell (n : ExprId) : (fs : List Function) →
    Function.countAll n (Function.respellMethods r fs) =
      (Function.respellMethods r (Function.countAll n fs).1, (Function.countAll n fs).2)
  | [] => rfl
  | f :: rest => by
    simp only [Function.respellMethods, Function.countAll, f.count_respell, Function.name_count,
      Function.countAll_respell _ rest]

theorem Class.count_respell (n : ExprId) : (k : Class) →
    (k.respell r).count n = ((k.count n).1.respell r, (k.count n).2)
  | ⟨_, _, methods, _⟩ => by
    simp only [Class.respell, Class.count, countOption_relocate (Occurrence.count_respell r),
      Function.countAll_respell _ methods]

end

end Numbers

end Lox
