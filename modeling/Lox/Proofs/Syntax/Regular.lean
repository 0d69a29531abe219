import Lox.Syntax.Tree

/-!
# Regular trees

What every tree that comes out of the parser has in common, whether or not its text had problems.

* `Token.IsMark`, `Token.IsWord`, `Token.IsName`: the kinds of tokens the grammar speaks of;
* `Token.Spelled`: a token is written the way its kind is written;
* `Expr.ids`, `Stmt.ids`, …: the numbers of the occurrences of a tree, in the order of the text;
* `Numbered`: numbers that are pairwise different and lie in a range;
* `Expr.Regular`, `Stmt.Regular`, …: names are identifiers, and branches and loop bodies declare
  nothing.
-/

namespace Lox

/-! ## Tokens -/

namespace Token

/-- A punctuation mark. -/
def IsMark (t : Token) (p : Punct) : Prop := t.kind = .punct p

/-- A reserved word. -/
def IsWord (t : Token) (k : Keyword) : Prop := t.kind = .keyword k

/-- An identifier. -/
def IsName (t : Token) : Prop := t.kind = .identifier

theorem terminal_eq_punct {t : Token} {p : Punct} : t.terminal = .punct p ↔ t.IsMark p := by
  unfold terminal IsMark TokenKind.terminal
  cases t.kind <;> simp

theorem terminal_eq_keyword {t : Token} {k : Keyword} : t.terminal = .keyword k ↔ t.IsWord k := by
  unfold terminal IsWord TokenKind.terminal
  cases t.kind <;> simp

theorem terminal_eq_identifier {t : Token} : t.terminal = .identifier ↔ t.IsName := by
  unfold terminal IsName TokenKind.terminal
  cases t.kind <;> simp

theorem IsMark.terminal {t : Token} {p : Punct} (h : t.IsMark p) : t.terminal = .punct p :=
  terminal_eq_punct.mpr h

theorem IsWord.terminal {t : Token} {k : Keyword} (h : t.IsWord k) : t.terminal = .keyword k :=
  terminal_eq_keyword.mpr h

theorem IsName.terminal {t : Token} (h : t.IsName) : t.terminal = .identifier :=
  terminal_eq_identifier.mpr h

theorem IsMark.ne_endOfInput {t : Token} {p : Punct} (h : t.IsMark p) :
    t.terminal ≠ .endOfInput := by
  simp [h.terminal]

theorem IsWord.ne_endOfInput {t : Token} {k : Keyword} (h : t.IsWord k) :
    t.terminal ≠ .endOfInput := by
  simp [h.terminal]

theorem IsName.ne_endOfInput {t : Token} (h : t.IsName) : t.terminal ≠ .endOfInput := by
  simp [h.terminal]

/-- The token is written the way its kind is written. -/
def Spelled (t : Token) : Prop :=
  match t.kind with
  | .punct p => t.lexeme = p.spelling
  | .keyword k => t.lexeme = k.spelling
  | .identifier => Keyword.ofSpelling? t.lexeme = none
  | _ => True

/-- A word of the program's own: an identifier, which is spelled like no reserved word. -/
structure Names (t : Token) : Prop where
  isName : t.IsName
  spelled : t.Spelled

/-- A reserved word, spelled as it must be. -/
structure Spells (t : Token) (k : Keyword) : Prop where
  isWord : t.IsWord k
  spelled : t.Spelled

theorem Spells.lexeme {t : Token} {k : Keyword} (h : t.Spells k) : t.lexeme = k.spelling := by
  have hs := h.spelled
  rw [Spelled, h.isWord] at hs
  exact hs

theorem Names.lexeme_ne {t : Token} (h : t.Names) (k : Keyword) : t.lexeme ≠ k.spelling := by
  intro he
  have hs := h.spelled
  rw [Spelled, h.isName, he] at hs
  revert hs
  cases k <;> decide

end Token

/-! ## The numbers of the occurrences -/

mutual

/-- The numbers of the occurrences of an expression. -/
def Expr.ids : Expr → List ExprId
  | .literal _ => []
  | .grouping inner => inner.ids
  | .unary _ _ operand => operand.ids
  | .binary left _ _ right => left.ids ++ right.ids
  | .logical left _ _ right => left.ids ++ right.ids
  | .variable use => [use.id]
  | .assign target value => target.id :: value.ids
  | .call callee arguments _ => callee.ids ++ Expr.idsAll arguments
  | .get object _ => object.ids
  | .set object _ value => object.ids ++ value.ids
  | .this keyword => [keyword.id]
  | .super keyword _ => [keyword.id]

/-- The numbers of the occurrences of several expressions. -/
def Expr.idsAll : List Expr → List ExprId
  | [] => []
  | e :: rest => e.ids ++ Expr.idsAll rest

end

/-- The numbers of the occurrences of an expression that may be missing. -/
def Expr.idsOption : Option Expr → List ExprId
  | none => []
  | some e => e.ids

/-- The number of the superclass of a class, if it has one. -/
def Occurrence.idsOption : Option Occurrence → List ExprId
  | none => []
  | some use => [use.id]

mutual

/-- The numbers of the occurrences of a statement. -/
def Stmt.ids : Stmt → List ExprId
  | .expression e => e.ids
  | .print e => e.ids
  | .var _ initializer => Expr.idsOption initializer
  | .block body => Stmt.idsAll body
  | .ifElse condition thenBranch elseBranch =>
    condition.ids ++ thenBranch.ids ++ Stmt.idsOption elseBranch
  | .whileLoop condition body => condition.ids ++ body.ids
  | .forLoop initializer condition increment body =>
    Stmt.idsOption initializer ++ Expr.idsOption condition ++ Expr.idsOption increment ++ body.ids
  | .function declaration => declaration.ids
  | .class declaration => declaration.ids
  | .return _ value => Expr.idsOption value
  | .break _ => []
  | .continue _ => []

/-- The numbers of the occurrences of several statements. -/
def Stmt.idsAll : List Stmt → List ExprId
  | [] => []
  | s :: rest => s.ids ++ Stmt.idsAll rest

/-- The numbers of the occurrences of a statement that may be missing. -/
def Stmt.idsOption : Option Stmt → List ExprId
  | none => []
  | some s => s.ids

/-- The numbers of the occurrences of a function. -/
def Function.ids : Function → List ExprId
  | ⟨_, _, body, _⟩ => Stmt.idsAll body

/-- The numbers of the occurrences of several functions. -/
def Function.idsAll : List Function → List ExprId
  | [] => []
  | f :: rest => f.ids ++ Function.idsAll rest

/-- The numbers of the occurrences of a class. -/
def Class.ids : Class → List ExprId
  | ⟨_, superclass, methods, _⟩ => Occurrence.idsOption superclass ++ Function.idsAll methods

end

/-- The numbers are pairwise different and lie between `first` and `next`, which itself is free. -/
structure Numbered (first next : Nat) (ids : List Nat) : Prop where
  nodup : ids.Nodup
  first_le : ∀ id ∈ ids, first ≤ id
  lt_next : ∀ id ∈ ids, id < next

namespace Numbered

variable {a b c : Nat} {xs ys : List Nat}

theorem nil : Numbered a b [] := ⟨List.nodup_nil, by simp, by simp⟩

theorem single (hb : b = a + 1) : Numbered a b [a] :=
  ⟨by simp, by simp, by simp [hb]⟩

theorem widen (h : Numbered a b xs) {a' b' : Nat} (ha : a' ≤ a) (hb : b ≤ b') :
    Numbered a' b' xs :=
  ⟨h.nodup, fun id hid => Nat.le_trans ha (h.first_le id hid),
    fun id hid => Nat.lt_of_lt_of_le (h.lt_next id hid) hb⟩

theorem append (hx : Numbered a b xs) (hy : Numbered b c ys) (hab : a ≤ b) (hbc : b ≤ c) :
    Numbered a c (xs ++ ys) where
  nodup := by
    refine List.nodup_append.mpr ⟨hx.nodup, hy.nodup, fun i hi j hj => ?_⟩
    have h₁ := hx.lt_next i hi
    have h₂ := hy.first_le j hj
    omega
  first_le := by
    intro id hid
    rcases List.mem_append.mp hid with h | h
    · exact hx.first_le id h
    · exact Nat.le_trans hab (hy.first_le id h)
  lt_next := by
    intro id hid
    rcases List.mem_append.mp hid with h | h
    · exact Nat.lt_of_lt_of_le (hx.lt_next id h) hbc
    · exact hy.lt_next id h

theorem perm (h : Numbered a b xs) (hp : xs.Perm ys) : Numbered a b ys :=
  ⟨hp.nodup_iff.mp h.nodup, fun id hid => h.first_le id (hp.mem_iff.mpr hid),
    fun id hid => h.lt_next id (hp.mem_iff.mpr hid)⟩

end Numbered

/-! ## Regular trees -/

/-- The names of an expression are identifiers, and its reserved words are spelled as they must
be. -/
inductive Expr.Regular : Expr → Prop where
  | literal {value} : Expr.Regular (.literal value)
  | grouping {inner} : Expr.Regular inner → Expr.Regular (.grouping inner)
  | unary {op operator operand} : Expr.Regular operand → Expr.Regular (.unary op operator operand)
  | binary {left op operator right} : Expr.Regular left → Expr.Regular right →
      Expr.Regular (.binary left op operator right)
  | logical {left op operator right} : Expr.Regular left → Expr.Regular right →
      Expr.Regular (.logical left op operator right)
  | variable {use} : use.name.Names → Expr.Regular (.variable use)
  | assign {target value} : target.name.Names → Expr.Regular value →
      Expr.Regular (.assign target value)
  | call {callee arguments paren} : Expr.Regular callee → (∀ e ∈ arguments, Expr.Regular e) →
      Expr.Regular (.call callee arguments paren)
  | get {object name} : Expr.Regular object → name.Names → Expr.Regular (.get object name)
  | set {object name value} : Expr.Regular object → name.Names → Expr.Regular value →
      Expr.Regular (.set object name value)
  | this {keyword} : keyword.name.Spells .this → Expr.Regular (.this keyword)
  | super {keyword method} : keyword.name.Spells .super → method.Names →
      Expr.Regular (.super keyword method)

/-- The statement declares a name. -/
def Stmt.declares : Stmt → Bool
  | .var _ _ | .function _ | .class _ => true
  | _ => false

/-- The statement may stand as the first clause of a `for` statement. -/
def Stmt.isClause : Stmt → Bool
  | .var _ _ | .expression _ => true
  | _ => false

mutual

/-- The names of a statement are identifiers, and no declaration stands where only a statement
may. -/
inductive Stmt.Regular : Stmt → Prop where
  | expression {e} : e.Regular → Stmt.Regular (.expression e)
  | print {e} : e.Regular → Stmt.Regular (.print e)
  | var {name initializer} : name.Names → (∀ e ∈ initializer, Expr.Regular e) →
      Stmt.Regular (.var name initializer)
  | block {body} : (∀ s ∈ body, Stmt.Regular s) → Stmt.Regular (.block body)
  | ifElse {condition thenBranch elseBranch} : condition.Regular → Stmt.Regular thenBranch →
      thenBranch.declares = false →
      (∀ s ∈ elseBranch, Stmt.Regular s) → (∀ s ∈ elseBranch, s.declares = false) →
      Stmt.Regular (.ifElse condition thenBranch elseBranch)
  | whileLoop {condition body} : condition.Regular → Stmt.Regular body → body.declares = false →
      Stmt.Regular (.whileLoop condition body)
  | forLoop {initializer condition increment body} :
      (∀ s ∈ initializer, Stmt.Regular s) → (∀ s ∈ initializer, s.isClause = true) →
      (∀ e ∈ condition, Expr.Regular e) → (∀ e ∈ increment, Expr.Regular e) →
      Stmt.Regular body → body.declares = false →
      Stmt.Regular (.forLoop initializer condition increment body)
  | function {declaration} : Function.Regular declaration → Stmt.Regular (.function declaration)
  | class {declaration} : Class.Regular declaration → Stmt.Regular (.class declaration)
  | return {keyword value} : (∀ e ∈ value, Expr.Regular e) → Stmt.Regular (.return keyword value)
  | break {keyword} : Stmt.Regular (.break keyword)
  | continue {keyword} : Stmt.Regular (.continue keyword)

/-- The names of a function are identifiers and its body is regular. -/
inductive Function.Regular : Function → Prop where
  | mk {name params body span} : name.Names → (∀ p ∈ params, Token.Names p) →
      (∀ s ∈ body, Stmt.Regular s) → Function.Regular ⟨name, params, body, span⟩

/-- The names of a class are identifiers and its methods are regular. -/
inductive Class.Regular : Class → Prop where
  | mk {name superclass methods span} : name.Names →
      (∀ use ∈ superclass, use.name.Names) → (∀ f ∈ methods, Function.Regular f) →
      Class.Regular ⟨name, superclass, methods, span⟩

end

end Lox
