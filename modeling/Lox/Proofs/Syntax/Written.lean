import Lox.Proofs.Syntax.Parse

/-!
# A tree written out again

* `Piece`: a token as the grammar prescribes it, with the token that the tree keeps for it;
* `Expr.pieces`, `Stmt.pieces`, …: a tree written out by the grammar;
* `Piece.Fits`: a token of the text stands where the piece stands;
* **`Grammar.Declarations.fits`**: the pieces of a program fit the tokens that it was read from;
* **`pieces_of_clean`**: a parse without problems loses nothing and makes nothing up.
-/

namespace Lox

/-! ## Writing a tree out -/

/-- A token as the grammar prescribes it. -/
structure Piece where
  kind : TokenKind
  /-- The token that the tree keeps for this place, if it keeps one. -/
  kept : Option Token

namespace Piece

/-- A punctuation mark that the tree does not keep. -/
def mark (p : Punct) : Piece := ⟨.punct p, none⟩

/-- A reserved word that the tree does not keep. -/
def word (k : Keyword) : Piece := ⟨.keyword k, none⟩

/-- A name. The tree keeps all of them. -/
def name (t : Token) : Piece := ⟨.identifier, some t⟩

/-- Names with commas in front of them. -/
def commaNames : List Token → List Piece
  | [] => []
  | t :: ts => mark .comma :: name t :: commaNames ts

/-- Names with commas between them. -/
def names : List Token → List Piece
  | [] => []
  | t :: ts => name t :: commaNames ts

end Piece

/-- How a prefix operator is written. -/
def UnaryOp.kind : UnaryOp → TokenKind
  | negate => .punct .minus
  | not => .punct .bang

mutual

/-- An expression written out. -/
def Expr.pieces : Expr → List Piece
  | .literal value => [⟨value.kind, none⟩]
  | .grouping inner => .mark .leftParen :: inner.pieces ++ [.mark .rightParen]
  | .unary op operator operand => ⟨op.kind, some operator⟩ :: operand.pieces
  | .binary left op operator right =>
    left.pieces ++ ⟨.punct op.punct, some operator⟩ :: right.pieces
  | .logical left op operator right =>
    left.pieces ++ ⟨.keyword op.keyword, some operator⟩ :: right.pieces
  | .variable use => [.name use.name]
  | .assign target value => .name target.name :: .mark .equal :: value.pieces
  | .call callee arguments paren =>
    callee.pieces ++ .mark .leftParen :: Expr.piecesAll arguments ++
      [⟨.punct .rightParen, some paren⟩]
  | .get object name => object.pieces ++ [.mark .dot, .name name]
  | .set object name value =>
    object.pieces ++ .mark .dot :: .name name :: .mark .equal :: value.pieces
  | .this keyword => [⟨.keyword .this, some keyword.name⟩]
  | .super keyword method => [⟨.keyword .super, some keyword.name⟩, .mark .dot, .name method]

/-- Expressions written out with commas between them. -/
def Expr.piecesAll : List Expr → List Piece
  | [] => []
  | e :: rest => e.pieces ++ Expr.commaPieces rest

/-- Expressions written out with commas in front of them. -/
def Expr.commaPieces : List Expr → List Piece
  | [] => []
  | e :: rest => .mark .comma :: e.pieces ++ Expr.commaPieces rest

end

/-- An expression that may be missing, written out. -/
def Expr.piecesOption : Option Expr → List Piece
  | none => []
  | some e => e.pieces

/-- The initial value of a variable, written out. -/
def Expr.initialPieces : Option Expr → List Piece
  | none => []
  | some e => .mark .equal :: e.pieces

/-- The superclass of a class, written out. -/
def Occurrence.superclassPieces : Option Occurrence → List Piece
  | none => []
  | some use => [.mark .less, .name use.name]

mutual

/-- A statement written out. -/
def Stmt.pieces : Stmt → List Piece
  | .expression e => e.pieces ++ [.mark .semicolon]
  | .print e => .word .print :: e.pieces ++ [.mark .semicolon]
  | .var name initializer =>
    .word .var :: .name name :: Expr.initialPieces initializer ++ [.mark .semicolon]
  | .block body => .mark .leftBrace :: Stmt.piecesAll body ++ [.mark .rightBrace]
  | .ifElse condition thenBranch elseBranch =>
    .word .if :: .mark .leftParen :: condition.pieces ++ .mark .rightParen :: thenBranch.pieces ++
      Stmt.elsePieces elseBranch
  | .whileLoop condition body =>
    .word .while :: .mark .leftParen :: condition.pieces ++ .mark .rightParen :: body.pieces
  | .forLoop initializer condition increment body =>
    .word .for :: .mark .leftParen :: Stmt.initializerPieces initializer ++
      Expr.piecesOption condition ++ .mark .semicolon :: Expr.piecesOption increment ++
      .mark .rightParen :: body.pieces
  | .function declaration => .word .fun :: declaration.pieces
  | .class declaration => .word .class :: declaration.pieces
  | .return keyword value =>
    ⟨.keyword .return, some keyword⟩ :: Expr.piecesOption value ++ [.mark .semicolon]
  | .break keyword => [⟨.keyword .break, some keyword⟩, .mark .semicolon]
  | .continue keyword => [⟨.keyword .continue, some keyword⟩, .mark .semicolon]

/-- Statements written out one behind the other. -/
def Stmt.piecesAll : List Stmt → List Piece
  | [] => []
  | s :: rest => s.pieces ++ Stmt.piecesAll rest

/-- The second branch of an `if`, written out. -/
def Stmt.elsePieces : Option Stmt → List Piece
  | none => []
  | some s => .word .else :: s.pieces

/-- The first clause of a `for` statement, written out. -/
def Stmt.initializerPieces : Option Stmt → List Piece
  | none => [.mark .semicolon]
  | some s => s.pieces

/-- A function written out from its name on. -/
def Function.pieces : Function → List Piece
  | ⟨name, params, body, _⟩ =>
    .name name :: .mark .leftParen :: Piece.names params ++
      .mark .rightParen :: .mark .leftBrace :: Stmt.piecesAll body ++ [.mark .rightBrace]

/-- Functions written out one behind the other. -/
def Function.piecesAll : List Function → List Piece
  | [] => []
  | f :: rest => f.pieces ++ Function.piecesAll rest

/-- A class written out from its name on. -/
def Class.pieces : Class → List Piece
  | ⟨name, superclass, methods, _⟩ =>
    .name name :: Occurrence.superclassPieces superclass ++
      .mark .leftBrace :: Function.piecesAll methods ++ [.mark .rightBrace]

end

theorem Expr.commaPieces_eq {es : List Expr} (h : es ≠ []) :
    Expr.commaPieces es = .mark .comma :: Expr.piecesAll es := by
  cases es with
  | nil => exact absurd rfl h
  | cons e es => rfl

theorem Piece.commaNames_eq {ts : List Token} (h : ts ≠ []) :
    Piece.commaNames ts = .mark .comma :: Piece.names ts := by
  cases ts with
  | nil => exact absurd rfl h
  | cons t ts => rfl

/-! ## The tokens of the text -/

namespace Piece

/-- The token stands where the piece stands: it is of the right kind, and it is the one that the
tree keeps. -/
structure Fits (p : Piece) (t : Token) : Prop where
  kind : t.kind = p.kind
  kept : ∀ k ∈ p.kept, k = t

theorem fits_mark {t : Token} {p : Punct} (h : t.IsMark p) : (mark p).Fits t := ⟨h, nofun⟩

theorem fits_word {t : Token} {k : Keyword} (h : t.IsWord k) : (word k).Fits t := ⟨h, nofun⟩

theorem fits_kept {t : Token} {kind : TokenKind} (h : t.kind = kind) : Fits ⟨kind, some t⟩ t :=
  ⟨h, fun _ hk => (Option.some.inj hk).symm⟩

theorem fits_name {t : Token} (h : t.IsName) : (name t).Fits t := fits_kept h

/-- The tokens stand where the pieces stand, one for one. -/
inductive FitAll : List Piece → List Token → Prop where
  | nil : FitAll [] []
  | cons {p t ps ts} : Fits p t → FitAll ps ts → FitAll (p :: ps) (t :: ts)

theorem FitAll.append {ps qs : List Piece} {ts us : List Token} (h : FitAll ps ts)
    (h' : FitAll qs us) : FitAll (ps ++ qs) (ts ++ us) := by
  induction h with
  | nil => exact h'
  | cons hp _ ih => exact .cons hp ih

end Piece

namespace Grammar

open Piece

theorem kind_of_terminal {op : UnaryOp} {t : Token} (h : t.terminal = op.terminal) :
    t.kind = op.kind := by
  cases op <;> exact Token.terminal_eq_punct.mp h

mutual

theorem Expression.fits {rank : Rank} {ts : List Token} {e : Expr} (h : Expression rank ts e) :
    FitAll e.pieces ts := by
  match h with
  | .literal hk => exact .cons ⟨hk, nofun⟩ .nil
  | .variable hk => exact .cons (fits_name hk) .nil
  | .this hk => exact .cons (fits_kept hk) .nil
  | .super hk hdot hname =>
    exact .cons (fits_kept hk) (.cons (fits_mark hdot) (.cons (fits_name hname) .nil))
  | .grouping ho he hc =>
    exact FitAll.append (.cons (fits_mark ho) he.fits) (.cons (fits_mark hc) .nil)
  | .callPrimary he => exact he.fits
  | .call he ho hes _ hc =>
    exact FitAll.append (FitAll.append he.fits (.cons (fits_mark ho) hes.fits)) (.cons (fits_kept hc) .nil)
  | .get he hdot hname =>
    exact FitAll.append he.fits (.cons (fits_mark hdot) (.cons (fits_name hname) .nil))
  | .unaryCall he => exact he.fits
  | .unary ht he => exact .cons (fits_kept (kind_of_terminal ht)) he.fits
  | .operand he => exact he.fits
  | .binary _ he ht hf => exact FitAll.append he.fits (.cons (fits_kept ht) hf.fits)
  | .logical _ he ht hf => exact FitAll.append he.fits (.cons (fits_kept ht) hf.fits)
  | .disjunction he => exact he.fits
  | .assign hname heq he => exact .cons (fits_name hname) (.cons (fits_mark heq) he.fits)
  | .set he hdot hname heq hf =>
    exact FitAll.append he.fits
      (.cons (fits_mark hdot) (.cons (fits_name hname) (.cons (fits_mark heq) hf.fits)))
termination_by structural h

theorem Listed.fits {ts : List Token} {es : List Expr} (h : Listed ts es) :
    FitAll (Expr.piecesAll es) ts := by
  match h with
  | .one he =>
    rw [Expr.piecesAll, Expr.commaPieces, List.append_nil]
    exact he.fits
  | .more he hcomma hes =>
    have hne : _ ≠ [] := hes.ne_nil
    rw [Expr.piecesAll, Expr.commaPieces_eq hne]
    exact FitAll.append he.fits (.cons (fits_mark hcomma) hes.fits)
termination_by structural h

theorem Arguments.fits {ts : List Token} {es : List Expr} (h : Arguments ts es) :
    FitAll (Expr.piecesAll es) ts := by
  match h with
  | .none => exact .nil
  | .some hes => exact hes.fits
termination_by structural h

end

theorem Optional.fits {ts : List Token} {o : Option Expr} (h : Optional ts o) :
    FitAll (Expr.piecesOption o) ts := by
  cases h with
  | none => exact .nil
  | some he => exact he.fits

theorem ExpressionStatement.fits {ts : List Token} {s : Stmt} (h : ExpressionStatement ts s) :
    FitAll s.pieces ts := by
  cases h with
  | mk he hsemicolon => exact FitAll.append he.fits (.cons (fits_mark hsemicolon) .nil)

theorem InitialValue.fits {ts : List Token} {o : Option Expr} (h : InitialValue ts o) :
    FitAll (Expr.initialPieces o) ts := by
  cases h with
  | none => exact .nil
  | some hequals he => exact .cons (fits_mark hequals) he.fits

theorem Variable.fits {ts : List Token} {s : Stmt} (h : Variable ts s) :
    FitAll s.pieces ts := by
  cases h with
  | mk hword hname hvalue hsemicolon =>
    exact FitAll.append (.cons (fits_word hword) (.cons (fits_name hname) hvalue.fits))
      (.cons (fits_mark hsemicolon) .nil)

theorem Initializer.fits {ts : List Token} {o : Option Stmt} (h : Initializer ts o) :
    FitAll (Stmt.initializerPieces o) ts := by
  cases h with
  | none hsemicolon => exact .cons (fits_mark hsemicolon) .nil
  | «variable» hs => exact hs.fits
  | expression hs => exact hs.fits

theorem Names.fits {ts names : List Token} (h : Names ts names) :
    FitAll (Piece.names names) ts := by
  induction h with
  | one hname => exact .cons (fits_name hname) .nil
  | more hname hcomma hnames ih =>
    rw [Piece.names, Piece.commaNames_eq hnames.ne_nil]
    exact .cons (fits_name hname) (.cons (fits_mark hcomma) ih)

theorem Parameters.fits {ts names : List Token} (h : Parameters ts names) :
    FitAll (Piece.names names) ts := by
  cases h with
  | none => exact .nil
  | some hnames => exact hnames.fits

theorem Superclass.fits {ts : List Token} {o : Option Occurrence} (h : Superclass ts o) :
    FitAll (Occurrence.superclassPieces o) ts := by
  cases h with
  | none => exact .nil
  | some hless hname => exact .cons (fits_mark hless) (.cons (fits_name hname) .nil)

mutual

theorem Statement.fits {ts : List Token} {s : Stmt} (h : Statement ts s) :
    FitAll s.pieces ts := by
  match h with
  | .expression hs => exact hs.fits
  | .print hword he hsemicolon =>
    exact FitAll.append (.cons (fits_word hword) he.fits) (.cons (fits_mark hsemicolon) .nil)
  | .block hopening hbody hclosing =>
    exact FitAll.append (.cons (fits_mark hopening) hbody.fits) (.cons (fits_mark hclosing) .nil)
  | .ifThen hword hopening he hclosing hthen =>
    rw [Stmt.pieces, Stmt.elsePieces, List.append_nil]
    exact FitAll.append (.cons (fits_word hword) (.cons (fits_mark hopening) he.fits))
      (.cons (fits_mark hclosing) hthen.fits)
  | .ifElse hword hopening he hclosing hthen _ hother helse =>
    exact FitAll.append (FitAll.append (.cons (fits_word hword) (.cons (fits_mark hopening) he.fits))
      (.cons (fits_mark hclosing) hthen.fits)) (.cons (fits_word hother) helse.fits)
  | .whileLoop hword hopening he hclosing hbody =>
    exact FitAll.append (.cons (fits_word hword) (.cons (fits_mark hopening) he.fits))
      (.cons (fits_mark hclosing) hbody.fits)
  | .forLoop hword hopening hinitializer hcondition hsemicolon hincrement hclosing hbody =>
    exact FitAll.append (FitAll.append (FitAll.append
      (.cons (fits_word hword) (.cons (fits_mark hopening) hinitializer.fits)) hcondition.fits)
      (.cons (fits_mark hsemicolon) hincrement.fits)) (.cons (fits_mark hclosing) hbody.fits)
  | .return hword hvalue hsemicolon =>
    exact FitAll.append (.cons (fits_kept hword) hvalue.fits) (.cons (fits_mark hsemicolon) .nil)
  | .break hword hsemicolon => exact .cons (fits_kept hword) (.cons (fits_mark hsemicolon) .nil)
  | .continue hword hsemicolon => exact .cons (fits_kept hword) (.cons (fits_mark hsemicolon) .nil)
termination_by structural h

theorem Declaration.fits {ts : List Token} {s : Stmt} (h : Declaration ts s) :
    FitAll s.pieces ts := by
  match h with
  | .class hword hname hsuperclass hopening hmethods hclosing =>
    exact .cons (fits_word hword) (FitAll.append (FitAll.append
      (.cons (fits_name hname) hsuperclass.fits) (.cons (fits_mark hopening) hmethods.fits))
      (.cons (fits_mark hclosing) .nil))
  | .function hword hf => exact .cons (fits_word hword) hf.fits
  | .variable hs => exact hs.fits
  | .statement hs => exact hs.fits
termination_by structural h

theorem Callable.fits {first : Token} {ts : List Token} {f : Function} (h : Callable first ts f) :
    FitAll f.pieces ts := by
  match h with
  | .mk hname hopening hparams _ hclosing hbrace hbody hfinal =>
    exact FitAll.append (FitAll.append (.cons (fits_name hname) (.cons (fits_mark hopening) hparams.fits))
      (.cons (fits_mark hclosing) (.cons (fits_mark hbrace) hbody.fits)))
      (.cons (fits_mark hfinal) .nil)
termination_by structural h

theorem Methods.fits {ts : List Token} {fs : List Function} (h : Methods ts fs) :
    FitAll (Function.piecesAll fs) ts := by
  match h with
  | .nil => exact .nil
  | .cons hf hfs => exact FitAll.append hf.fits hfs.fits
termination_by structural h

/-- **The pieces of a program fit the tokens that it was read from.** -/
theorem Declarations.fits {ts : List Token} {ss : List Stmt} (h : Declarations ts ss) :
    FitAll (Stmt.piecesAll ss) ts := by
  match h with
  | .nil => exact .nil
  | .cons hs hss => exact FitAll.append hs.fits hss.fits
termination_by structural h

end

end Grammar

/-! ## A parse without problems -/

theorem Piece.map_kind_of_fits {ps : List Piece} {ts : List Token} (h : Piece.FitAll ps ts) :
    ps.map Piece.kind = ts.map Token.kind := by
  induction h with
  | nil => rfl
  | cons hp _ ih => rw [List.map_cons, List.map_cons, hp.kind, ih]

theorem Piece.getElem?_of_fits {ps : List Piece} {ts : List Token}
    (h : Piece.FitAll ps ts) (i : Nat) {t : Token}
    (ht : ps[i]?.bind Piece.kept = some t) : ts[i]? = some t := by
  induction h generalizing i with
  | nil => cases ht
  | cons hp _ ih =>
    cases i with
    | zero => exact congrArg some (hp.kept t ht).symm
    | succ i => exact ih i ht

theorem Piece.kept_sublist_of_fits {ps : List Piece} {ts : List Token}
    (h : Piece.FitAll ps ts) : (ps.filterMap Piece.kept).Sublist ts := by
  induction h with
  | nil => exact .slnil
  | @cons p t _ _ hp _ ih =>
    cases hk : p.kept with
    | none =>
      rw [List.filterMap_cons_none hk]
      exact ih.cons t
    | some k =>
      rw [List.filterMap_cons_some hk, hp.kept k hk]
      exact ih.cons_cons t

/-- **A parse without problems loses nothing and makes nothing up.** Written out by the grammar,
its tree has the kinds and values of the tokens of the text; every token that it keeps is the
token at that place, and none is kept twice. -/
theorem pieces_of_clean (source : String) (firstId : ExprId)
    (hclean : (parse source firstId).clean = true) :
    (Stmt.piecesAll (parse source firstId).tree).map Piece.kind =
        (tokens source).dropLast.map Token.kind ∧
      (∀ (i : Nat) (t : Token),
        (Stmt.piecesAll (parse source firstId).tree)[i]?.bind Piece.kept = some t →
          (tokens source).dropLast[i]? = some t) ∧
      (((Stmt.piecesAll (parse source firstId).tree).filterMap Piece.kept).map Token.id).Nodup := by
  have hfits := (declarations_of_clean source firstId hclean).fits
  refine ⟨Piece.map_kind_of_fits hfits, fun i t => Piece.getElem?_of_fits hfits i, ?_⟩
  have hsub : ((Stmt.piecesAll (parse source firstId).tree).filterMap Piece.kept).Sublist
      (tokens source) := (Piece.kept_sublist_of_fits hfits).trans (List.dropLast_sublist _)
  refine (hsub.map Token.id).nodup ?_
  rw [ids_tokens]
  exact List.nodup_range'

/-- A program with a call whose parenthesis and operands are kept. -/
theorem pieces_of_clean_call :
    (parse "print -f(a.b, (nil));" 0).clean = true ∧
      (Stmt.piecesAll (parse "print -f(a.b, (nil));" 0).tree).map Piece.kind =
        (tokens "print -f(a.b, (nil));").dropLast.map Token.kind :=
  ⟨by decide +kernel, (pieces_of_clean "print -f(a.b, (nil));" 0 (by decide +kernel)).1⟩

end Lox
