import Lox.Proofs.Syntax.ReadStatement
import Lox.Proofs.Token.Scanned

/-!
# The words of a tree in the order of the text

* `Expr.words`, `Stmt.words`, …: the names that a part of a program declares and those it uses, from
  left to right;
* `Stmt.places`, …: the words with the keywords of the statements that leave a function or a loop;
* `Trail`: words that were read, with other tokens between them; `Orders`: a rule returns the words
  of its tree in the order in which it passed them;
* `orders_expression`, `orders_declaration`: so does every rule, whatever problems it meets;
* **`sublist_places_parse`**, **`pairwise_words_parse`**: the places of the tree of a text stand in
  the text in this order, and so do its words.
-/

namespace Lox

/-! ## Words -/

mutual

/-- The words of an expression. -/
def Expr.words : Expr → List Token
  | .literal _ => []
  | .grouping inner => inner.words
  | .unary _ _ operand => operand.words
  | .binary left _ _ right => left.words ++ right.words
  | .logical left _ _ right => left.words ++ right.words
  | .variable use => [use.name]
  | .assign target value => target.name :: value.words
  | .call callee arguments _ => callee.words ++ Expr.wordsAll arguments
  | .get object _ => object.words
  | .set object _ value => object.words ++ value.words
  | .this keyword => [keyword.name]
  | .super keyword _ => [keyword.name]

/-- The words of several expressions. -/
def Expr.wordsAll : List Expr → List Token
  | [] => []
  | e :: rest => e.words ++ Expr.wordsAll rest

end

/-- The words of an expression that may be missing. -/
def Expr.wordsOption : Option Expr → List Token
  | none => []
  | some e => e.words

/-- The name of a superclass that may be missing. -/
def Occurrence.wordsOption : Option Occurrence → List Token
  | none => []
  | some use => [use.name]

mutual

/-- The words of a statement. -/
def Stmt.words : Stmt → List Token
  | .expression e => e.words
  | .print e => e.words
  | .var name initializer => name :: Expr.wordsOption initializer
  | .block body => Stmt.wordsAll body
  | .ifElse condition thenBranch elseBranch =>
    condition.words ++ thenBranch.words ++ Stmt.wordsOption elseBranch
  | .whileLoop condition body => condition.words ++ body.words
  | .forLoop initializer condition increment body =>
    Stmt.wordsOption initializer ++ Expr.wordsOption condition ++ Expr.wordsOption increment ++
      body.words
  | .function declaration => declaration.name :: declaration.words
  | .class declaration => declaration.words
  | .return _ value => Expr.wordsOption value
  | .break _ => []
  | .continue _ => []

/-- The words of several statements. -/
def Stmt.wordsAll : List Stmt → List Token
  | [] => []
  | s :: rest => s.words ++ Stmt.wordsAll rest

/-- The words of a statement that may be missing. -/
def Stmt.wordsOption : Option Stmt → List Token
  | none => []
  | some s => s.words

/-- The words of the parameters and the body of a function. -/
def Function.words : Function → List Token
  | ⟨_, params, body, _⟩ => params ++ Stmt.wordsAll body

/-- The words of the methods of a class. -/
def Function.wordsAll : List Function → List Token
  | [] => []
  | f :: rest => f.words ++ Function.wordsAll rest

/-- The words of a class. -/
def Class.words : Class → List Token
  | ⟨name, superclass, methods, _⟩ =>
    name :: (Occurrence.wordsOption superclass ++ Function.wordsAll methods)

end

/-! ## Places -/

mutual

/-- The words of a statement and the keywords of the statements in it that leave a function or a
loop. -/
def Stmt.places : Stmt → List Token
  | .expression e => e.words
  | .print e => e.words
  | .var name initializer => name :: Expr.wordsOption initializer
  | .block body => Stmt.placesAll body
  | .ifElse condition thenBranch elseBranch =>
    condition.words ++ thenBranch.places ++ Stmt.placesOption elseBranch
  | .whileLoop condition body => condition.words ++ body.places
  | .forLoop initializer condition increment body =>
    Stmt.placesOption initializer ++ Expr.wordsOption condition ++ Expr.wordsOption increment ++
      body.places
  | .function declaration => declaration.name :: declaration.places
  | .class declaration => declaration.places
  | .return keyword value => keyword :: Expr.wordsOption value
  | .break keyword => [keyword]
  | .continue keyword => [keyword]

/-- The places of several statements. -/
def Stmt.placesAll : List Stmt → List Token
  | [] => []
  | s :: rest => s.places ++ Stmt.placesAll rest

/-- The places of a statement that may be missing. -/
def Stmt.placesOption : Option Stmt → List Token
  | none => []
  | some s => s.places

/-- The places of the parameters and the body of a function. -/
def Function.places : Function → List Token
  | ⟨_, params, body, _⟩ => params ++ Stmt.placesAll body

/-- The places of the methods of a class. -/
def Function.placesAll : List Function → List Token
  | [] => []
  | f :: rest => f.places ++ Function.placesAll rest

/-- The places of a class. -/
def Class.places : Class → List Token
  | ⟨name, superclass, methods, _⟩ =>
    name :: (Occurrence.wordsOption superclass ++ Function.placesAll methods)

end

mutual

/-- The words of a statement are among its places. -/
theorem Stmt.sublist_places : (s : Stmt) → s.words.Sublist s.places
  | .expression _ | .print _ | .var _ _ => .refl _
  | .block body => Stmt.sublist_placesAll body
  | .ifElse _ thenBranch elseBranch =>
    ((List.Sublist.refl _).append thenBranch.sublist_places).append
      (Stmt.sublist_placesOption elseBranch)
  | .whileLoop _ body => (List.Sublist.refl _).append body.sublist_places
  | .forLoop initializer _ _ body =>
    (((Stmt.sublist_placesOption initializer).append (.refl _)).append (.refl _)).append
      body.sublist_places
  | .function declaration => declaration.sublist_places.cons_cons _
  | .class declaration => declaration.sublist_places
  | .return _ _ | .break _ | .continue _ => List.sublist_cons_self _ _

theorem Stmt.sublist_placesAll : (ss : List Stmt) → (Stmt.wordsAll ss).Sublist (Stmt.placesAll ss)
  | [] => .refl _
  | s :: rest => s.sublist_places.append (Stmt.sublist_placesAll rest)

theorem Stmt.sublist_placesOption :
    (s : Option Stmt) → (Stmt.wordsOption s).Sublist (Stmt.placesOption s)
  | none => .refl _
  | some s => s.sublist_places

theorem Function.sublist_places : (f : Function) → f.words.Sublist f.places
  | ⟨_, _, body, _⟩ => (List.Sublist.refl _).append (Stmt.sublist_placesAll body)

theorem Function.sublist_placesAll :
    (fs : List Function) → (Function.wordsAll fs).Sublist (Function.placesAll fs)
  | [] => .refl _
  | f :: rest => f.sublist_places.append (Function.sublist_placesAll rest)

theorem Class.sublist_places : (c : Class) → c.words.Sublist c.places
  | ⟨_, _, methods, _⟩ =>
    ((List.Sublist.refl _).append (Function.sublist_placesAll methods)).cons_cons _

end

theorem Expr.wordsAll_concat (es : List Expr) (e : Expr) :
    Expr.wordsAll (es ++ [e]) = Expr.wordsAll es ++ e.words := by
  induction es with
  | nil => simp [Expr.wordsAll]
  | cons f es ih => simp [Expr.wordsAll, ih]

theorem Stmt.placesAll_concat (ss : List Stmt) (s : Stmt) :
    Stmt.placesAll (ss ++ [s]) = Stmt.placesAll ss ++ s.places := by
  induction ss with
  | nil => simp [Stmt.placesAll]
  | cons t ss ih => simp [Stmt.placesAll, ih]

theorem Function.placesAll_concat (fs : List Function) (f : Function) :
    Function.placesAll (fs ++ [f]) = Function.placesAll fs ++ f.places := by
  induction fs with
  | nil => simp [Function.placesAll]
  | cons g fs ih => simp [Function.placesAll, ih]

/-! ## Rules that keep to the order -/

/-- On the way from `c` to `d` the words were passed, in this order. -/
def Trail (c : Cursor) (words : List Token) (d : Cursor) : Prop :=
  ∃ ts, c.tokens = ts ++ d.tokens ∧ words.Sublist ts

namespace Trail

variable {c d e : Cursor} {xs ys : List Token}

theorem refl (c : Cursor) : Trail c [] c := ⟨[], rfl, .slnil⟩

theorem trans (h : Trail c xs d) (h' : Trail d ys e) : Trail c (xs ++ ys) e := by
  obtain ⟨ts, hts, hxs⟩ := h
  obtain ⟨us, hus, hys⟩ := h'
  exact ⟨ts ++ us, by rw [hts, hus, List.append_assoc], hxs.append hys⟩

theorem drop (h : Trail c xs d) (hsub : ys.Sublist xs) : Trail c ys d := by
  obtain ⟨ts, hts, hxs⟩ := h
  exact ⟨ts, hts, hsub.trans hxs⟩

theorem sound (h : Trail c xs d) (hc : c.Sound) : d.Sound := by
  obtain ⟨ts, hts, -⟩ := h
  have hsuffix : d.tokens <:+ c.tokens := ⟨ts, hts.symm⟩
  exact ⟨hc.ended.of_suffix hsuffix (by simp [Cursor.tokens]),
    fun t ht => hc.spelled t (hsuffix.subset ht)⟩

theorem pass {t : Token} (h : Trail c xs d) (hp : d.Passes t e) : Trail c (xs ++ [t]) e :=
  h.trans ⟨[t], hp.tokens, List.Sublist.refl _⟩

theorem advance (h : Trail c xs d) (hc : c.Sound) : Trail c xs d.advance := by
  by_cases hend : d.current.terminal = .endOfInput
  · rw [Cursor.advance_of_atEnd hend]
    exact h
  · exact (h.pass (Cursor.passes_advance (h.sound hc) hend)).drop (List.sublist_append_left xs _)

end Trail

/-- Behind the words `read` the rule goes on to a tree with the words `words`, in the order of the
text. -/
def Orders {α : Type} (read : List Token) (rule : Parser α) (words : α → List Token) : Prop :=
  ∀ c d : Cursor, c.Sound → Trail c read d →
    Ensures rule d (fun a e => Trail c (words a) e) fun _ e => Trail c [] e

open Lox.Parser

namespace Orders

variable {α β : Type} {read : List Token} {x : Parser α} {words : α → List Token}

theorem bind {f : α → Parser β} {words' : β → List Token} (hx : Orders read x words)
    (hf : ∀ a, Orders (words a) (f a) words') : Orders read (x >>= f) words' := fun c d hc h =>
  (hx c d hc h).bind (fun a e _ ha => hf a c e hc ha) fun _ _ h => h

theorem pure {a : α} (h : (words a).Sublist read) : Orders read (Pure.pure a) words :=
  fun _ _ _ ht => ht.drop h

theorem imp {words' : α → List Token} (h : Orders read x words)
    (hw : ∀ a, (words' a).Sublist (words a)) : Orders read x words' := fun c d hc ht =>
  (h c d hc ht).mono (fun a _ _ ha => ha.drop (hw a)) fun _ _ h => h

theorem map {f : α → β} {words' : β → List Token} (h : Orders read x words)
    (hw : ∀ a, (words' (f a)).Sublist (words a)) : Orders read (f <$> x) words' := fun c d hc ht =>
  ensures_map.mpr ((h c d hc ht).mono (fun a _ _ ha => ha.drop (hw a)) fun _ _ h => h)

theorem behind (h : Orders [] x words) (read : List Token) :
    Orders read x fun a => read ++ words a := fun _ d hc ht =>
  (h d d (ht.sound hc) (.refl d)).mono (fun _ _ _ ha => ht.trans ha) fun _ _ h =>
    (ht.trans h).drop (List.nil_sublist _)

theorem throw {halt : Halt} : Orders read (MonadExcept.throw halt : Parser α) words :=
  fun _ _ _ ht => ht.drop (List.nil_sublist _)

theorem ite {y : Parser α} {p : Prop} [Decidable p] (hx : Orders read x words)
    (hy : Orders read y words) : Orders read (if p then x else y) words := by
  split
  · exact hx
  · exact hy

end Orders

section Basic

variable {read : List Token}

theorem orders_peek : Orders read peek fun _ => read := fun _ _ _ h => h

theorem orders_get : Orders read (get : Parser Cursor) fun _ => read := fun _ _ _ h => h

theorem orders_advance : Orders read Parser.advance fun _ => read := fun _ _ hc h => h.advance hc

theorem orders_freshId : Orders read freshId fun _ => read := fun _ _ _ h => h

theorem orders_complain (problem : SyntaxProblem) (place : Token) :
    Orders read (complain problem place) fun _ => read := fun _ _ _ h => h

theorem orders_fail {α : Type} (problem : SyntaxProblem) {words : α → List Token} :
    Orders read (fail problem) words :=
  orders_get.bind fun _ => (orders_complain _ _).bind fun _ => .throw

theorem orders_accept? (terminal : Terminal) : Orders read (accept? terminal) fun _ => read :=
  orders_peek.bind fun _ =>
    .ite (orders_advance.bind fun _ => .pure (.refl _)) (.pure (.refl _))

theorem orders_expect (terminal : Terminal) (problem : SyntaxProblem) :
    Orders read (expect terminal problem) fun _ => read :=
  (orders_accept? terminal).bind fun o => by
    cases o with
    | some t => exact .pure (.refl _)
    | none => exact orders_fail problem

theorem orders_expect_identifier (problem : SyntaxProblem) :
    Orders read (expect .identifier problem) fun t => read ++ [t] := fun c d hc h => by
  have hsound := h.sound hc
  refine (ensures_expect_identifier hsound problem).mono (fun t e _ ht => h.pass ht.1) ?_
  rintro _ e ⟨-, ⟨⟨ts, hts⟩, -, -, -⟩, -⟩
  exact (h.trans ⟨ts, hts.symm, List.nil_sublist _⟩).drop (List.nil_sublist _)

theorem Trail.word {α : Type} {c d : Cursor} {rest : Token → Parser α} {words : α → List Token}
    (h : Trail c read d) (hc : c.Sound) (hend : d.current.terminal ≠ .endOfInput)
    (hrest : Orders (read ++ [d.current]) (rest d.current) words) :
    Ensures (Parser.advance >>= rest) d (fun a e => Trail c (words a) e) fun _ e => Trail c [] e := by
  rw [ensures_bind, ensures_advance]
  exact hrest c _ hc (h.pass (Cursor.passes_advance (h.sound hc) hend))

end Basic

/-! ## Expressions -/

section Expressions

variable {nested : Parser Expr} {read : List Token}

theorem orders_chainFrom (level : Grammar.Level) {operand : Parser Expr}
    (ho : Orders [] operand Expr.words) (left : Expr) (fuel : Nat) :
    Orders left.words (chainFrom level.operators operand left fuel) Expr.words := by
  induction fuel generalizing left with
  | zero => exact .throw
  | succ fuel ih =>
    rw [chainFrom]
    refine orders_peek.bind fun seen => ?_
    cases hop : level.operators seen with
    | none => exact .pure (.refl _)
    | some node =>
      refine orders_advance.bind fun operator => (ho.behind left.words).bind fun right => ?_
      have hnode : left.words ++ right.words = (node left operator right).words := by
        obtain ⟨op, -, -, rfl⟩ | ⟨op, -, -, rfl⟩ := Grammar.Level.of_operators hop <;> rfl
      rw [hnode]
      exact ih _

theorem orders_chain (level : Grammar.Level) {operand : Parser Expr}
    (ho : Orders [] operand Expr.words) (fuel : Nat) :
    Orders [] (chain level.operators operand fuel) Expr.words :=
  ho.bind fun left => orders_chainFrom level ho left fuel

theorem orders_argumentsFrom (hn : Orders [] nested Expr.words) (before : List Token)
    (es : Array Expr) (fuel : Nat) :
    Orders (before ++ Expr.wordsAll es.toList) (argumentsFrom nested es fuel)
      fun fs => before ++ Expr.wordsAll fs := by
  induction fuel generalizing es with
  | zero => exact .throw
  | succ fuel ih =>
    rw [argumentsFrom]
    -- A report that there are too many changes nothing for what follows it.
    refine (fun go => .ite (orders_get.bind fun _ => (orders_complain _ _).bind fun _ => go) go) ?_
    refine (hn.behind _).bind fun e => (orders_accept? _).bind fun o => ?_
    have hread : before ++ Expr.wordsAll es.toList ++ e.words =
        before ++ Expr.wordsAll (es.push e).toList := by
      rw [Array.toList_push, Expr.wordsAll_concat, List.append_assoc]
    rw [hread]
    cases o with
    | some comma => exact ih _
    | none => exact .pure (.refl _)

theorem orders_arguments (hn : Orders [] nested Expr.words) (before : List Token) (fuel : Nat) :
    Orders before (arguments nested fuel) fun r => before ++ Expr.wordsAll r.1 := by
  have close (es : List Expr) : Orders (before ++ Expr.wordsAll es) (do
      let paren ← expectMark .rightParen .afterArguments
      return (es, paren)) fun r => before ++ Expr.wordsAll r.1 :=
    (orders_expect _ _).bind fun _ => .pure (.refl _)
  refine orders_peek.bind fun seen => ?_
  have hstart : before = before ++ Expr.wordsAll [] := by rw [Expr.wordsAll, List.append_nil]
  by_cases h : seen == .punct .rightParen
  · rw [if_pos h]
    have hnil : Orders before (pure [] : Parser (List Expr)) fun es => before ++ Expr.wordsAll es :=
      .pure (hstart ▸ .refl _)
    exact hnil.bind close
  · rw [if_neg h]
    have := orders_argumentsFrom hn before #[] fuel
    rw [← hstart] at this
    exact this.bind close

theorem orders_primary (hn : Orders [] nested Expr.words) :
    Orders [] (primary nested) Expr.words := fun c d hc h => by
  rw [primary, ensures_bind, ensures_get]
  have skip {rest : Token → Parser Expr} (hrest : ∀ t, Orders [] (rest t) Expr.words) :
      Ensures (Parser.advance >>= rest) d (fun a e => Trail c a.words e) fun _ e => Trail c [] e :=
    (orders_advance.bind hrest) c d hc h
  have word {kind : TokenKind} (hk : d.current.kind = kind) (hend : kind.terminal ≠ .endOfInput) :
      d.current.terminal ≠ .endOfInput := by rwa [Token.terminal, hk]
  split <;> rename_i hk
  · exact skip fun _ => .pure (.refl _)
  · exact skip fun _ => .pure (.refl _)
  · exact skip fun _ => .pure (.refl _)
  · exact skip fun _ => .pure (.refl _)
  · exact skip fun _ => .pure (.refl _)
  · exact h.word hc (word hk (by simp [TokenKind.terminal]))
      (orders_freshId.bind fun _ => .pure (.refl _))
  · exact h.word hc (word hk (by simp [TokenKind.terminal]))
      (orders_freshId.bind fun _ => .pure (.refl _))
  · refine h.word hc (word hk (by simp [TokenKind.terminal])) ?_
    exact (orders_expect _ _).bind fun _ => (orders_expect _ _).bind fun _ =>
      orders_freshId.bind fun _ => .pure (.refl _)
  · exact skip fun _ => hn.bind fun _ => (orders_expect _ _).bind fun _ => .pure (.refl _)
  · exact orders_fail _ c d hc h

theorem orders_callFrom (hn : Orders [] nested Expr.words) (callee : Expr) (fuel : Nat) :
    Orders callee.words (callFrom nested callee fuel) Expr.words := by
  induction fuel generalizing callee with
  | zero => exact .throw
  | succ fuel ih =>
    rw [callFrom]
    refine orders_peek.bind fun seen => ?_
    split
    · exact orders_advance.bind fun _ => (orders_arguments hn _ _).bind fun r =>
        ih (.call callee r.1 r.2)
    · exact orders_advance.bind fun _ => (orders_expect _ _).bind fun name => ih (.get callee name)
    · exact .pure (.refl _)

theorem orders_unary (hn : Orders [] nested Expr.words) (fuel : Nat) :
    Orders [] (unary nested fuel) Expr.words := by
  induction fuel with
  | zero => exact .throw
  | succ fuel ih =>
    rw [unary]
    refine orders_peek.bind fun seen => ?_
    cases prefixOp? seen with
    | none => exact (orders_primary hn).bind fun callee => orders_callFrom hn callee fuel
    | some op => exact orders_advance.bind fun _ => ih.bind fun _ => .pure (.refl _)

theorem orders_assignTo (target : Expr) (equals : Token) (value : Expr) :
    Orders (target.words ++ value.words) (assignTo target equals value) Expr.words := by
  unfold assignTo
  split
  · exact orders_freshId.bind fun _ => .pure (.refl _)
  · exact .pure (.refl _)
  · exact (orders_complain _ _).bind fun _ => .pure (List.sublist_append_left _ _)

/-- **The words of an expression stand in the order of the text.** -/
theorem orders_expression (fuel : Nat) : Orders [] (expression fuel) Expr.words := by
  induction fuel with
  | zero => exact .throw
  | succ fuel ih =>
    have hfactor := orders_chain .product (orders_unary ih fuel) fuel
    have hterm := orders_chain .sum hfactor fuel
    have hcomparison := orders_chain .comparison hterm fuel
    have hequality := orders_chain .equality hcomparison fuel
    have hconjunction := orders_chain .conjunction hequality fuel
    have hdisjunction := orders_chain .disjunction hconjunction fuel
    refine Orders.bind hdisjunction fun target => (orders_accept? _).bind fun o => ?_
    cases o with
    | none => exact .pure (.refl _)
    | some equals => exact (ih.behind _).bind fun value => orders_assignTo target equals value

end Expressions

/-! ## Statements -/

section Recovery

variable {read : List Token}

theorem orders_synchronizeFrom (skipped : Token) (fuel : Nat) :
    Orders read (synchronizeFrom skipped fuel) fun _ => read := by
  induction fuel generalizing skipped with
  | zero => exact .throw
  | succ fuel ih =>
    exact orders_peek.bind fun _ => .ite (.pure (.refl _)) (orders_advance.bind fun t => ih t)

theorem orders_recovering {rule : Parser Stmt} (h : Orders [] rule Stmt.places) (fuel : Nat) :
    Orders [] (recovering rule fuel) Stmt.placesOption := fun c d hc ht => by
  have hrule := h c d hc ht
  rw [Ensures, recovering_eq]
  cases hr : rule d with
  | ok s e => exact hrule.ok_of_eq hr
  | error halt e =>
    have htrail := hrule.halt_of_eq hr
    cases halt with
    | outOfFuel => exact htrail
    | syntaxProblem =>
      have hskip : Orders [] (synchronize fuel >>= fun _ => pure none) Stmt.placesOption :=
        (orders_advance.bind fun t => orders_synchronizeFrom t fuel).bind fun _ => .pure (.refl _)
      exact hskip c e hc htrail

end Recovery

section Statements

variable {declaration : Parser (Option Stmt)} {statement : Parser Stmt} {read : List Token}

theorem orders_goesOnUnless (terminal : Terminal) :
    Orders read (goesOnUnless terminal) fun _ => read :=
  orders_peek.bind fun _ => .pure (.refl _)

theorem orders_declarationsFrom (hd : Orders [] declaration Stmt.placesOption) (last : Terminal)
    (before : List Token) (ss : Array Stmt) (fuel : Nat) :
    Orders (before ++ Stmt.placesAll ss.toList) (declarationsFrom declaration last ss fuel)
      fun ts => before ++ Stmt.placesAll ts := by
  induction fuel generalizing ss with
  | zero => exact .throw
  | succ fuel ih =>
    rw [declarationsFrom]
    refine (orders_goesOnUnless _).bind fun go => ?_
    refine .ite ?_ (.pure (.refl _))
    refine (hd.behind _).bind fun o => ?_
    cases o with
    | none => exact fun c d hc h => ih ss c d hc (h.drop (List.sublist_append_left _ _))
    | some s =>
      have hread : before ++ Stmt.placesAll ss.toList ++ Stmt.placesOption (some s) =
          before ++ Stmt.placesAll (ss.push s).toList := by
        rw [Array.toList_push, Stmt.placesAll_concat, List.append_assoc]
        rfl
      rw [hread]
      exact ih _

theorem orders_block (hd : Orders [] declaration Stmt.placesOption) (before : List Token)
    (fuel : Nat) :
    Orders before (block declaration fuel) fun r => before ++ Stmt.placesAll r.1 := by
  have := orders_declarationsFrom hd (.punct .rightBrace) before #[] fuel
  rw [Stmt.placesAll, List.append_nil] at this
  exact this.bind fun _ => (orders_expect _ _).bind fun _ => .pure (.refl _)

theorem orders_parametersFrom (before : List Token) (ps : Array Token) (fuel : Nat) :
    Orders (before ++ ps.toList) (parametersFrom ps fuel) fun qs => before ++ qs := by
  induction fuel generalizing ps with
  | zero => exact .throw
  | succ fuel ih =>
    rw [parametersFrom]
    refine (fun go => .ite (orders_get.bind fun _ => (orders_complain _ _).bind fun _ => go) go) ?_
    refine (orders_expect_identifier _).bind fun p => (orders_accept? _).bind fun o => ?_
    rw [List.append_assoc, ← Array.toList_push]
    cases o with
    | some comma => exact ih _
    | none => exact .pure (.refl _)

theorem orders_function (hd : Orders [] declaration Stmt.placesOption) (form : FunctionForm)
    (first : Token) (fuel : Nat) :
    Orders [] (function declaration form first fuel) fun f => f.name :: f.places := by
  refine (orders_expect_identifier _).bind fun name => (orders_expect _ _).bind fun _ => ?_
  refine orders_peek.bind fun seen => ?_
  have hnil : Orders [name] (pure [] : Parser (List Token)) fun ps => [name] ++ ps := .pure (.refl _)
  refine .ite (hnil.bind fun ps => ?_) ((orders_parametersFrom [name] #[] fuel).bind fun ps => ?_)
  all_goals
    refine (orders_expect _ _).bind fun _ => (orders_expect _ _).bind fun _ => ?_
    exact (orders_block hd _ fuel).bind fun r => .pure (.refl _)

theorem orders_methodsFrom (hd : Orders [] declaration Stmt.placesOption) (before : List Token)
    (fs : Array Function) (fuel : Nat) :
    Orders (before ++ Function.placesAll fs.toList) (methodsFrom declaration fs fuel)
      fun gs => before ++ Function.placesAll gs := by
  induction fuel generalizing fs with
  | zero => exact .throw
  | succ fuel ih =>
    rw [methodsFrom]
    refine (orders_goesOnUnless _).bind fun go => ?_
    refine .ite ?_ (.pure (.refl _))
    refine orders_get.bind fun cursor => ?_
    have hmethod : Orders [] (function declaration .method cursor.current fuel) Function.places :=
      (orders_function hd .method cursor.current fuel).imp fun _ => List.sublist_cons_self _ _
    refine (hmethod.behind _).bind fun f => ?_
    rw [List.append_assoc, ← Function.placesAll_concat, ← Array.toList_push]
    exact ih _

theorem orders_superclass? : Orders read superclass? fun o => read ++ Occurrence.wordsOption o := by
  refine (orders_accept? _).bind fun o => ?_
  cases o with
  | none => exact .pure (by simp [Occurrence.wordsOption])
  | some less =>
    exact (orders_expect_identifier _).bind fun _ => orders_freshId.bind fun _ => .pure (.refl _)

theorem orders_classDeclaration (hd : Orders [] declaration Stmt.placesOption) (keyword : Token)
    (fuel : Nat) : Orders [] (classDeclaration declaration keyword fuel) Stmt.places := by
  refine (orders_expect_identifier _).bind fun name => orders_superclass?.bind fun superclass => ?_
  refine (orders_expect _ _).bind fun _ => ?_
  have hmethods := orders_methodsFrom hd ([name] ++ Occurrence.wordsOption superclass) #[] fuel
  rw [Function.placesAll, List.append_nil] at hmethods
  exact hmethods.bind fun _ => (orders_expect _ _).bind fun _ => .pure (.refl _)

theorem orders_varDeclaration (fuel : Nat) : Orders [] (varDeclaration fuel) Stmt.places := by
  have rest (name : Token) (value : Option Expr) :
      Orders ([name] ++ Expr.wordsOption value) (do
        let _ ← expectMark .semicolon .afterVariableDeclaration
        return Stmt.var name value) Stmt.places :=
    (orders_expect _ _).bind fun _ => .pure (.refl _)
  refine (orders_expect_identifier _).bind fun name => (orders_accept? _).bind fun o => ?_
  cases o with
  | none => exact rest name none
  | some equals =>
    have hvalue : Orders [name] (some <$> expression fuel) fun o => [name] ++ Expr.wordsOption o :=
      ((orders_expression fuel).behind [name]).map fun _ => .refl _
    exact hvalue.bind fun value => rest name value

theorem orders_expressionStatement (fuel : Nat) :
    Orders [] (expressionStatement fuel) Stmt.places :=
  (orders_expression fuel).bind fun _ => (orders_expect _ _).bind fun _ => .pure (.refl _)

theorem orders_optionalExpression (stop : Punct) (fuel : Nat) :
    Orders read (optionalExpression stop fuel) fun o => read ++ Expr.wordsOption o :=
  orders_peek.bind fun _ => .ite (.pure (by simp [Expr.wordsOption]))
    (((orders_expression fuel).behind read).map fun _ => .refl _)

theorem orders_forInitializer (fuel : Nat) : Orders [] (forInitializer fuel) Stmt.placesOption := by
  refine orders_peek.bind fun seen => ?_
  split
  · exact orders_advance.bind fun _ => .pure (.refl _)
  · exact orders_advance.bind fun _ => (orders_varDeclaration fuel).map fun _ => .refl _
  · exact (orders_expressionStatement fuel).map fun _ => .refl _

theorem orders_forStatement (hs : Orders [] statement Stmt.places) (fuel : Nat) :
    Orders [] (forStatement statement fuel) Stmt.places :=
  (orders_expect _ _).bind fun _ => (orders_forInitializer fuel).bind fun _ =>
    (orders_optionalExpression _ fuel).bind fun _ => (orders_expect _ _).bind fun _ =>
      (orders_optionalExpression _ fuel).bind fun _ => (orders_expect _ _).bind fun _ =>
        (hs.behind _).bind fun _ => .pure (.refl _)

theorem orders_ifStatement (hs : Orders [] statement Stmt.places) (fuel : Nat) :
    Orders [] (ifStatement statement fuel) Stmt.places := by
  refine (orders_expect _ _).bind fun _ => (orders_expression fuel).bind fun condition => ?_
  refine (orders_expect _ _).bind fun _ => (hs.behind _).bind fun thenBranch => ?_
  refine (orders_accept? _).bind fun o => ?_
  cases o with
  | some other => exact (hs.behind _).bind fun _ => .pure (.refl _)
  | none => exact .pure (by simp [Stmt.places, Stmt.placesOption])

theorem orders_whileStatement (hs : Orders [] statement Stmt.places) (fuel : Nat) :
    Orders [] (whileStatement statement fuel) Stmt.places :=
  (orders_expect _ _).bind fun _ => (orders_expression fuel).bind fun _ =>
    (orders_expect _ _).bind fun _ => (hs.behind _).bind fun _ => .pure (.refl _)

theorem orders_statementRule (hd : Orders [] declaration Stmt.placesOption)
    (hs : Orders [] statement Stmt.places) (fuel : Nat) :
    Orders [] (statementRule declaration statement fuel) Stmt.places := fun c d hc h => by
  rw [statementRule, ensures_bind, ensures_peek]
  have skip {rest : Token → Parser Stmt} (hrest : ∀ t, Orders [] (rest t) Stmt.places) :
      Ensures (Parser.advance >>= rest) d (fun s e => Trail c s.places e) fun _ e => Trail c [] e :=
    (orders_advance.bind hrest) c d hc h
  have hend {k : Keyword} (hk : d.current.terminal = .keyword k) :
      d.current.terminal ≠ .endOfInput := by simp [hk]
  split <;> rename_i hk
  · exact skip fun _ => orders_forStatement hs fuel
  · exact skip fun _ => orders_ifStatement hs fuel
  · exact skip fun _ => orders_whileStatement hs fuel
  · exact h.word hc (hend hk) ((orders_optionalExpression _ fuel).bind fun _ =>
      (orders_expect _ _).bind fun _ => .pure (.refl _))
  · exact h.word hc (hend hk) ((orders_expect _ _).bind fun _ => .pure (.refl _))
  · exact h.word hc (hend hk) ((orders_expect _ _).bind fun _ => .pure (.refl _))
  · exact skip fun _ => (orders_block hd [] fuel).bind fun _ => .pure (.refl _)
  · exact skip fun _ => (orders_expression fuel).bind fun _ =>
      (orders_expect _ _).bind fun _ => .pure (.refl _)
  · exact orders_expressionStatement fuel c d hc h

theorem orders_declarationRule (hd : Orders [] declaration Stmt.placesOption)
    (hs : Orders [] statement Stmt.places) (fuel : Nat) :
    Orders [] (declarationRule declaration statement fuel) Stmt.places := by
  refine orders_peek.bind fun seen => ?_
  split
  · exact orders_advance.bind fun keyword => orders_classDeclaration hd keyword fuel
  · exact orders_advance.bind fun keyword => (orders_function hd .function keyword fuel).bind
      fun _ => .pure (.refl _)
  · exact orders_advance.bind fun _ => orders_varDeclaration fuel
  · exact orders_statementRule hd hs fuel

end Statements

/-- **The places of a declaration stand in the order of the text**, and those of a statement. -/
theorem orders_declaration (fuel : Nat) :
    Orders [] (declaration fuel) Stmt.placesOption ∧ Orders [] (statement fuel) Stmt.places := by
  induction fuel with
  | zero => exact ⟨.throw, .throw⟩
  | succ fuel ih =>
    rw [declaration, statement]
    exact ⟨orders_recovering (orders_declarationRule ih.1 ih.2 fuel) fuel,
      orders_statementRule ih.1 ih.2 fuel⟩

/-! ## Texts -/

section

variable (source : String) (firstId : ExprId)

/-- **The places of the tree of a text stand in the text, in the same order**, whatever problems the
text has. -/
theorem sublist_places_parse :
    (Stmt.placesAll (parse source firstId).tree).Sublist (tokens source) := by
  have hd := (orders_declaration (enoughFuel (scan source))).1
  have h := orders_declarationsFrom hd .endOfInput [] #[] (enoughFuel (scan source)) _ _
    (sound_start source firstId) (.refl _)
  unfold parse Parser.run
  cases hx : declarations (enoughFuel (scan source)) (Cursor.start (scan source) firstId) with
  | ok tree d =>
    obtain ⟨ts, hts, hplaces⟩ := h.ok_of_eq hx
    rw [tokens_start] at hts
    rw [hts]
    exact hplaces.trans (List.sublist_append_left _ _)
  | error e d => exact List.nil_sublist _

/-- **The words of the tree of a text have rising numbers.** -/
theorem pairwise_words_parse :
    (Stmt.wordsAll (parse source firstId).tree).Pairwise fun t u => t.id < u.id :=
  (rising_tokens source).sublist
    ((Stmt.sublist_placesAll _).trans (sublist_places_parse source firstId))

end

end Lox
