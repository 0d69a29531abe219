import Lox.Binding.SymbolGraph
import Lox.Proofs.Syntax.Parse

/-!
# The identifiers of a tree

* `Role`: what an identifier does at its place, `Naming`: an identifier that a tree keeps, with its
  role; `Expr.namings`, `Stmt.namings`, …: those of a part of a program, from left to right;
* `Naming.declaration?`: what a naming declares, `Stmt.introduced`, …: the declarations of a part of
  a program;
* **`Grammar.Declarations.names`**: the namings of a program are the identifiers that it was read
  from, **`names_of_clean`**: those of a text without problems are all its identifiers.
-/

namespace Lox

/-- What an identifier does at its place. -/
inductive Role where
  | declares (kind : SymbolKind)
  /-- It reads or writes a variable, or names a superclass. -/
  | uses
  /-- It names a method, a property or the method of a superclass. -/
  | property
  deriving DecidableEq, Repr

/-- An identifier that a tree keeps. -/
structure Naming where
  token : Token
  role : Role

namespace Naming

/-- What the identifier declares. -/
def declaration? (n : Naming) : Option (Token × SymbolKind) :=
  match n.role with
  | .declares kind => some (n.token, kind)
  | _ => none

end Naming

mutual

/-- The identifiers of an expression. -/
def Expr.namings : Expr → List Naming
  | .literal _ => []
  | .grouping inner => inner.namings
  | .unary _ _ operand => operand.namings
  | .binary left _ _ right => left.namings ++ right.namings
  | .logical left _ _ right => left.namings ++ right.namings
  | .variable use => [⟨use.name, .uses⟩]
  | .assign target value => ⟨target.name, .uses⟩ :: value.namings
  | .call callee arguments _ => callee.namings ++ Expr.namingsAll arguments
  | .get object name => object.namings ++ [⟨name, .property⟩]
  | .set object name value => object.namings ++ ⟨name, .property⟩ :: value.namings
  | .this _ => []
  | .super _ method => [⟨method, .property⟩]

/-- The identifiers of several expressions. -/
def Expr.namingsAll : List Expr → List Naming
  | [] => []
  | e :: rest => e.namings ++ Expr.namingsAll rest

end

/-- The identifiers of an expression that may be missing. -/
def Expr.namingsOption : Option Expr → List Naming
  | none => []
  | some e => e.namings

/-- The identifier of a superclass that may be missing. -/
def Occurrence.namingsOption : Option Occurrence → List Naming
  | none => []
  | some use => [⟨use.name, .uses⟩]

mutual

/-- The identifiers of a statement. -/
def Stmt.namings : Stmt → List Naming
  | .expression e => e.namings
  | .print e => e.namings
  | .var name initializer => ⟨name, .declares .variable⟩ :: Expr.namingsOption initializer
  | .block body => Stmt.namingsAll body
  | .ifElse condition thenBranch elseBranch =>
    condition.namings ++ thenBranch.namings ++ Stmt.namingsOption elseBranch
  | .whileLoop condition body => condition.namings ++ body.namings
  | .forLoop initializer condition increment body =>
    Stmt.namingsOption initializer ++ Expr.namingsOption condition ++
      Expr.namingsOption increment ++ body.namings
  | .function declaration => ⟨declaration.name, .declares .function⟩ :: declaration.namings
  | .class declaration => declaration.namings
  | .return _ value => Expr.namingsOption value
  | .break _ => []
  | .continue _ => []

/-- The identifiers of several statements. -/
def Stmt.namingsAll : List Stmt → List Naming
  | [] => []
  | s :: rest => s.namings ++ Stmt.namingsAll rest

/-- The identifiers of a statement that may be missing. -/
def Stmt.namingsOption : Option Stmt → List Naming
  | none => []
  | some s => s.namings

/-- The identifiers of a function behind its name. -/
def Function.namings : Function → List Naming
  | ⟨_, params, body, _⟩ => params.map (⟨·, .declares .parameter⟩) ++ Stmt.namingsAll body

/-- The identifiers of the methods of a class. -/
def Function.namingsMethods : List Function → List Naming
  | [] => []
  | f :: rest => ⟨f.name, .property⟩ :: (f.namings ++ Function.namingsMethods rest)

/-- The identifiers of a class. -/
def Class.namings : Class → List Naming
  | ⟨name, superclass, methods, _⟩ =>
    ⟨name, .declares .class⟩ ::
      (Occurrence.namingsOption superclass ++ Function.namingsMethods methods)

end

/-! ## Declarations -/

/-- The declarations of a statement. -/
def Stmt.introduced (s : Stmt) : List (Token × SymbolKind) := s.namings.filterMap Naming.declaration?

/-- The declarations of several statements. -/
def Stmt.introducedAll (ss : List Stmt) : List (Token × SymbolKind) :=
  (Stmt.namingsAll ss).filterMap Naming.declaration?

/-- The declarations of a statement that may be missing. -/
def Stmt.introducedOption (s : Option Stmt) : List (Token × SymbolKind) :=
  (Stmt.namingsOption s).filterMap Naming.declaration?

/-- The declarations of a function behind its name. -/
def Function.introduced (f : Function) : List (Token × SymbolKind) :=
  f.namings.filterMap Naming.declaration?

/-- The declarations of the methods of a class. -/
def Function.introducedMethods (fs : List Function) : List (Token × SymbolKind) :=
  (Function.namingsMethods fs).filterMap Naming.declaration?

/-- The declarations of a class. -/
def Class.introduced (k : Class) : List (Token × SymbolKind) := k.namings.filterMap Naming.declaration?

mutual

theorem Expr.declaration?_namings : (e : Expr) → e.namings.filterMap Naming.declaration? = []
  | .literal _ | .variable _ | .this _ | .super _ _ => rfl
  | .grouping inner => inner.declaration?_namings
  | .unary _ _ operand => operand.declaration?_namings
  | .binary left _ _ right | .logical left _ _ right => by
    rw [namings, List.filterMap_append, left.declaration?_namings, right.declaration?_namings,
      List.append_nil]
  | .assign _ value => value.declaration?_namings
  | .call callee arguments _ => by
    rw [namings, List.filterMap_append, callee.declaration?_namings,
      Expr.declaration?_namingsAll arguments, List.append_nil]
  | .get object _ => by
    rw [namings, List.filterMap_append, object.declaration?_namings]
    rfl
  | .set object _ value => by
    rw [namings, List.filterMap_append, object.declaration?_namings]
    exact value.declaration?_namings

theorem Expr.declaration?_namingsAll :
    (es : List Expr) → (Expr.namingsAll es).filterMap Naming.declaration? = []
  | [] => rfl
  | e :: rest => by
    rw [Expr.namingsAll, List.filterMap_append, e.declaration?_namings,
      Expr.declaration?_namingsAll rest, List.append_nil]

end

theorem Expr.declaration?_namingsOption :
    (e : Option Expr) → (Expr.namingsOption e).filterMap Naming.declaration? = []
  | none => rfl
  | some e => e.declaration?_namings

theorem Occurrence.declaration?_namingsOption :
    (use : Option Occurrence) → (namingsOption use).filterMap Naming.declaration? = []
  | none => rfl
  | some _ => rfl

namespace Stmt

theorem introduced_var (name : Token) (initializer : Option Expr) :
    (Stmt.var name initializer).introduced = [(name, .variable)] :=
  congrArg ((name, SymbolKind.variable) :: ·) (Expr.declaration?_namingsOption initializer)

theorem introduced_ifElse (condition : Expr) (thenBranch : Stmt) (elseBranch : Option Stmt) :
    (Stmt.ifElse condition thenBranch elseBranch).introduced =
      thenBranch.introduced ++ introducedOption elseBranch := by
  rw [introduced, namings, List.filterMap_append, List.filterMap_append,
    condition.declaration?_namings]
  rfl

theorem introduced_whileLoop (condition : Expr) (body : Stmt) :
    (Stmt.whileLoop condition body).introduced = body.introduced := by
  rw [introduced, namings, List.filterMap_append, condition.declaration?_namings]
  rfl

theorem introduced_forLoop (initializer : Option Stmt) (condition increment : Option Expr)
    (body : Stmt) :
    (Stmt.forLoop initializer condition increment body).introduced =
      introducedOption initializer ++ body.introduced := by
  rw [introduced, namings, List.filterMap_append, List.filterMap_append, List.filterMap_append,
    Expr.declaration?_namingsOption condition, Expr.declaration?_namingsOption increment,
    List.append_nil, List.append_nil]
  rfl

theorem introducedAll_cons (s : Stmt) (rest : List Stmt) :
    introducedAll (s :: rest) = s.introduced ++ introducedAll rest := List.filterMap_append

end Stmt

theorem Function.introduced_mk (name : Token) (params : List Token) (body : List Stmt)
    (span : Position) :
    (Function.mk name params body span).introduced =
      params.map (·, .parameter) ++ Stmt.introducedAll body := by
  rw [introduced, namings, List.filterMap_append, List.filterMap_map]
  exact congrArg (· ++ _) (List.filterMap_eq_map ▸ rfl)

theorem Function.introducedMethods_cons (f : Function) (rest : List Function) :
    introducedMethods (f :: rest) = f.introduced ++ introducedMethods rest := List.filterMap_append

theorem Class.introduced_mk (name : Token) (superclass : Option Occurrence)
    (methods : List Function) (span : Position) :
    (Class.mk name superclass methods span).introduced =
      (name, .class) :: Function.introducedMethods methods := by
  refine congrArg ((name, SymbolKind.class) :: ·) ?_
  rw [List.filterMap_append, Occurrence.declaration?_namingsOption]
  rfl

/-! ## The identifiers of the text -/

/-- The identifiers in a row of tokens. -/
def names (ts : List Token) : List Token := ts.filter (·.terminal == .identifier)

theorem names_append (ts us : List Token) : names (ts ++ us) = names ts ++ names us :=
  List.filter_append ..

theorem names_name {t : Token} (h : t.IsName) (ts : List Token) : names (t :: ts) = t :: names ts :=
  List.filter_cons_of_pos (by simp [h.terminal])

theorem names_other {t : Token} (h : t.terminal ≠ .identifier) (ts : List Token) :
    names (t :: ts) = names ts :=
  List.filter_cons_of_neg (by simpa using h)

theorem names_mark {t : Token} {p : Punct} (h : t.IsMark p) (ts : List Token) :
    names (t :: ts) = names ts :=
  names_other (by simp [h.terminal]) ts

theorem names_word {t : Token} {k : Keyword} (h : t.IsWord k) (ts : List Token) :
    names (t :: ts) = names ts :=
  names_other (by simp [h.terminal]) ts

theorem names_nil : names [] = [] := rfl

theorem mem_names {t : Token} {ts : List Token} : t ∈ names ts ↔ t ∈ ts ∧ t.IsName := by
  simp [names, Token.terminal_eq_identifier]

namespace Grammar

theorem names_literal {t : Token} {value : Literal} (h : t.kind = value.kind) : names [t] = [] := by
  refine names_other (fun hname => ?_) []
  rw [Token.terminal, h] at hname
  cases value with
  | boolean b => cases b <;> cases hname
  | number | string | nil => cases hname

theorem names_operator {t : Token} {op : UnaryOp} (h : t.terminal = op.terminal) (ts : List Token) :
    names (t :: ts) = names ts := by
  refine names_other (fun hname => ?_) ts
  rw [h] at hname
  cases op <;> cases hname

mutual

theorem Expression.names {rank : Rank} {ts : List Token} {e : Expr} (h : Expression rank ts e) :
    names ts = e.namings.map Naming.token := by
  match h with
  | .literal hk => exact names_literal hk
  | .variable hk => exact names_name hk []
  | .this hk => exact names_word hk []
  | .super hk hdot hname =>
    rw [names_word hk, names_mark hdot, names_name hname]
    rfl
  | .grouping ho he hc =>
    rw [List.cons_append, names_mark ho, names_append, names_mark hc, he.names, names_nil,
      List.append_nil, Expr.namings]
  | .callPrimary he | .unaryCall he | .operand he | .disjunction he => exact he.names
  | .call he ho hes _ hc =>
    rw [List.append_assoc, names_append, List.cons_append, names_mark ho, names_append,
      names_mark hc, he.names, hes.names, names_nil, List.append_nil, Expr.namings, List.map_append]
  | .get he hdot hname =>
    rw [names_append, names_mark hdot, names_name hname, he.names, Expr.namings, List.map_append]
    rfl
  | .unary ht he =>
    rw [names_operator ht, he.names, Expr.namings]
  | .binary _ he ht hf =>
    rw [names_append, names_mark ht, he.names, hf.names, Expr.namings, List.map_append]
  | .logical _ he ht hf =>
    rw [names_append, names_word ht, he.names, hf.names, Expr.namings, List.map_append]
  | .assign hname heq he =>
    rw [names_name hname, names_mark heq, he.names]
    rfl
  | .set he hdot hname heq hf =>
    rw [names_append, names_mark hdot, names_name hname, names_mark heq, he.names, hf.names,
      Expr.namings, List.map_append]
    rfl
termination_by structural h

theorem Listed.names {ts : List Token} {es : List Expr} (h : Listed ts es) :
    names ts = (Expr.namingsAll es).map Naming.token := by
  match h with
  | .one he => rw [he.names, Expr.namingsAll, Expr.namingsAll, List.append_nil]
  | .more he hcomma hes =>
    rw [names_append, names_mark hcomma, he.names, hes.names, Expr.namingsAll, List.map_append]
termination_by structural h

theorem Arguments.names {ts : List Token} {es : List Expr} (h : Arguments ts es) :
    names ts = (Expr.namingsAll es).map Naming.token := by
  match h with
  | .none => rfl
  | .some hes => exact hes.names
termination_by structural h

end

theorem Optional.names {ts : List Token} {o : Option Expr} (h : Optional ts o) :
    names ts = (Expr.namingsOption o).map Naming.token := by
  cases h with
  | none => rfl
  | some he => exact he.names

theorem ExpressionStatement.names {ts : List Token} {s : Stmt} (h : ExpressionStatement ts s) :
    names ts = s.namings.map Naming.token := by
  cases h with
  | mk he hsemicolon =>
    rw [names_append, names_mark hsemicolon, he.names, names_nil, List.append_nil, Stmt.namings]

theorem InitialValue.names {ts : List Token} {o : Option Expr} (h : InitialValue ts o) :
    names ts = (Expr.namingsOption o).map Naming.token := by
  cases h with
  | none => rfl
  | some hequals he =>
    rw [names_mark hequals]
    exact he.names

theorem Variable.names {ts : List Token} {s : Stmt} (h : Variable ts s) :
    names ts = s.namings.map Naming.token := by
  cases h with
  | mk hword hname hvalue hsemicolon =>
    rw [List.cons_append, List.cons_append, names_word hword, names_name hname, names_append,
      names_mark hsemicolon, hvalue.names, names_nil, List.append_nil]
    rfl

theorem Initializer.names {ts : List Token} {o : Option Stmt} (h : Initializer ts o) :
    names ts = (Stmt.namingsOption o).map Naming.token := by
  cases h with
  | none hsemicolon => exact names_mark hsemicolon []
  | «variable» hs => exact hs.names
  | expression hs => exact hs.names

theorem Names.names {ts params : List Token} (h : Names ts params) : names ts = params := by
  induction h with
  | one hname => exact names_name hname []
  | more hname hcomma _ ih => rw [names_name hname, names_mark hcomma, ih]

theorem Parameters.names {ts params : List Token} (h : Parameters ts params) : names ts = params := by
  cases h with
  | none => rfl
  | some hnames => exact hnames.names

theorem Superclass.names {ts : List Token} {o : Option Occurrence} (h : Superclass ts o) :
    names ts = (Occurrence.namingsOption o).map Naming.token := by
  cases h with
  | none => rfl
  | some hless hname =>
    rw [names_mark hless]
    exact names_name hname []

mutual

theorem Statement.names {ts : List Token} {s : Stmt} (h : Statement ts s) :
    names ts = s.namings.map Naming.token := by
  match h with
  | .expression hs => exact hs.names
  | .print hword he hsemicolon =>
    rw [List.cons_append, names_word hword, names_append, names_mark hsemicolon, he.names, names_nil,
      List.append_nil, Stmt.namings]
  | .block hopening hbody hclosing =>
    rw [List.cons_append, names_mark hopening, names_append, names_mark hclosing, hbody.names,
      names_nil, List.append_nil, Stmt.namings]
  | .ifThen hword hopening he hclosing hthen =>
    rw [List.cons_append, List.cons_append, names_word hword, names_mark hopening, names_append,
      names_mark hclosing, he.names, hthen.names, Stmt.namings, Stmt.namingsOption, List.append_nil,
      List.map_append]
  | .ifElse hword hopening he hclosing hthen _ hother helse =>
    rw [names_append, List.cons_append, List.cons_append, names_word hword, names_mark hopening,
      names_append, names_mark hclosing, names_word hother, he.names, hthen.names, helse.names,
      Stmt.namings, Stmt.namingsOption, List.map_append, List.map_append]
  | .whileLoop hword hopening he hclosing hbody =>
    rw [List.cons_append, List.cons_append, names_word hword, names_mark hopening, names_append,
      names_mark hclosing, he.names, hbody.names, Stmt.namings, List.map_append]
  | .forLoop hword hopening hinitializer hcondition hsemicolon hincrement hclosing hbody =>
    rw [names_append, names_append, names_append, names_word hword, names_mark hopening,
      names_mark hsemicolon, names_mark hclosing, hinitializer.names, hcondition.names,
      hincrement.names, hbody.names, Stmt.namings, List.map_append, List.map_append, List.map_append]
  | .return hword hvalue hsemicolon =>
    rw [List.cons_append, names_word hword, names_append, names_mark hsemicolon, hvalue.names,
      names_nil, List.append_nil, Stmt.namings]
  | .break hword hsemicolon | .continue hword hsemicolon =>
    rw [names_word hword, names_mark hsemicolon]
    rfl
termination_by structural h

theorem Declaration.names {ts : List Token} {s : Stmt} (h : Declaration ts s) :
    names ts = s.namings.map Naming.token := by
  match h with
  | .class hword hname hsuperclass hopening hmethods hclosing =>
    rw [names_append, names_append, names_word hword, names_name hname, names_mark hopening,
      names_mark hclosing, hsuperclass.names, hmethods.names, names_nil, List.append_nil,
      Stmt.namings, Class.namings, List.map_cons, List.map_append]
    rfl
  | .function hword hf =>
    rw [names_word hword, hf.names]
    rfl
  | .variable hs => exact hs.names
  | .statement hs => exact hs.names
termination_by structural h

theorem Callable.names {first : Token} {ts : List Token} {f : Function} (h : Callable first ts f) :
    names ts = f.name :: f.namings.map Naming.token := by
  match h with
  | .mk hname hopening hparams _ hclosing hbrace hbody hfinal =>
    rw [names_append, names_append, names_name hname, names_mark hopening, names_mark hclosing,
      names_mark hbrace, names_mark hfinal, hparams.names, hbody.names, names_nil, List.append_nil,
      Function.namings, List.map_append, List.map_map]
    exact congrArg (_ :: · ++ _) (List.map_id _).symm
termination_by structural h

theorem Methods.names {ts : List Token} {fs : List Function} (h : Methods ts fs) :
    names ts = (Function.namingsMethods fs).map Naming.token := by
  match h with
  | .nil => rfl
  | .cons hf hfs =>
    rw [names_append, hf.names, hfs.names, Function.namingsMethods, List.map_cons, List.map_append]
    rfl
termination_by structural h

/-- **The namings of a program are the identifiers that it was read from**, in their order. -/
theorem Declarations.names {ts : List Token} {ss : List Stmt} (h : Declarations ts ss) :
    names ts = (Stmt.namingsAll ss).map Naming.token := by
  match h with
  | .nil => rfl
  | .cons hs hss => rw [names_append, hs.names, hss.names, Stmt.namingsAll, List.map_append]
termination_by structural h

end

end Grammar

theorem names_dropLast {ts : List Token} (h : Ended ts) : names ts.dropLast = names ts := by
  induction h with
  | last ht => exact (names_other (by simp [ht]) []).symm
  | @cons t ts _ hts ih =>
    rw [List.dropLast_cons_of_ne_nil hts.ne_nil]
    by_cases hname : t.IsName
    · rw [names_name hname, names_name hname, ih]
    · have hne := mt Token.terminal_eq_identifier.mp hname
      rw [names_other hne, names_other hne, ih]

/-- **The namings of a text without problems are all its identifiers**, in their order. -/
theorem names_of_clean (source : String) (firstId : ExprId)
    (hclean : (parse source firstId).clean = true) :
    (Stmt.namingsAll (parse source firstId).tree).map Naming.token = names (tokens source) := by
  rw [← names_dropLast (ended_tokens source)]
  exact (declarations_of_clean source firstId hclean).names.symm

end Lox
