import Lox.Proofs.Syntax.Entities
import Lox.Proofs.Token.Excerpt

/-!
# A declaration as a text of its own

* `Stmt.bare`: a statement without its places and numbers;
* `Entity.Written`: the tokens that a declaration was read from, `Grammar.Declarations.written`: they
  are a stretch of the tokens of the program;
* `Stmt.Reads`: a text that is one declaration;
* **`excerpt_of_clean`**: the text in the span of a function or class is this declaration alone, and
  that of a method is one behind the word `fun`.
-/

namespace Lox

/-! ## Trees without places and numbers -/

section Bare

variable (r : Relocation)

theorem Occurrence.unnumbered_relocate (use : Option Occurrence) :
    (use.map (Occurrence.relocate r)).map Occurrence.unnumbered =
      (use.map Occurrence.unnumbered).map (Occurrence.relocate r) := by
  cases use <;> rfl

mutual

theorem Expr.unnumbered_relocate : (e : Expr) → (e.relocate r).unnumbered = e.unnumbered.relocate r
  | .literal _ | .variable _ | .this _ | .super _ _ => rfl
  | .grouping inner => congrArg Expr.grouping inner.unnumbered_relocate
  | .unary op _ operand => congrArg (Expr.unary op _) operand.unnumbered_relocate
  | .binary left op _ right => by
    simp only [Expr.relocate, Expr.unnumbered, left.unnumbered_relocate, right.unnumbered_relocate]
  | .logical left op _ right => by
    simp only [Expr.relocate, Expr.unnumbered, left.unnumbered_relocate, right.unnumbered_relocate]
  | .assign _ value => congrArg (Expr.assign _) value.unnumbered_relocate
  | .call callee arguments _ => by
    simp only [Expr.relocate, Expr.unnumbered, callee.unnumbered_relocate,
      Expr.unnumberedAll_relocateAll arguments]
  | .get object _ => congrArg (Expr.get · _) object.unnumbered_relocate
  | .set object _ value => by
    simp only [Expr.relocate, Expr.unnumbered, object.unnumbered_relocate, value.unnumbered_relocate]

theorem Expr.unnumberedAll_relocateAll : (es : List Expr) →
    Expr.unnumberedAll (Expr.relocateAll r es) = Expr.relocateAll r (Expr.unnumberedAll es)
  | [] => rfl
  | e :: rest => by
    simp only [Expr.relocateAll, Expr.unnumberedAll, e.unnumbered_relocate,
      Expr.unnumberedAll_relocateAll rest]

end

theorem Expr.map_unnumbered_relocate (e : Option Expr) :
    (e.map (Expr.relocate r)).map Expr.unnumbered = (e.map Expr.unnumbered).map (Expr.relocate r) := by
  cases e with
  | none => rfl
  | some e => exact congrArg some (e.unnumbered_relocate r)

mutual

theorem Stmt.unnumbered_relocate : (s : Stmt) → (s.relocate r).unnumbered = s.unnumbered.relocate r
  | .expression e => congrArg Stmt.expression (e.unnumbered_relocate r)
  | .print e => congrArg Stmt.print (e.unnumbered_relocate r)
  | .var _ initializer => congrArg (Stmt.var _) (Expr.map_unnumbered_relocate r initializer)
  | .block body => congrArg Stmt.block (Stmt.unnumberedAll_relocateAll body)
  | .ifElse condition thenBranch elseBranch => by
    simp only [Stmt.relocate, Stmt.unnumbered, Expr.unnumbered_relocate,
      thenBranch.unnumbered_relocate, Stmt.unnumberedOption_relocateOption elseBranch]
  | .whileLoop condition body => by
    simp only [Stmt.relocate, Stmt.unnumbered, Expr.unnumbered_relocate, body.unnumbered_relocate]
  | .forLoop initializer condition increment body => by
    simp only [Stmt.relocate, Stmt.unnumbered, Stmt.unnumberedOption_relocateOption initializer,
      Expr.map_unnumbered_relocate, body.unnumbered_relocate]
  | .function declaration => congrArg Stmt.function declaration.unnumbered_relocate
  | .class declaration => congrArg Stmt.class declaration.unnumbered_relocate
  | .return _ value => congrArg (Stmt.return _) (Expr.map_unnumbered_relocate r value)
  | .break _ | .continue _ => rfl

theorem Stmt.unnumberedAll_relocateAll : (ss : List Stmt) →
    Stmt.unnumberedAll (Stmt.relocateAll r ss) = Stmt.relocateAll r (Stmt.unnumberedAll ss)
  | [] => rfl
  | s :: rest => by
    simp only [Stmt.relocateAll, Stmt.unnumberedAll, s.unnumbered_relocate,
      Stmt.unnumberedAll_relocateAll rest]

theorem Stmt.unnumberedOption_relocateOption : (s : Option Stmt) →
    Stmt.unnumberedOption (Stmt.relocateOption r s) = Stmt.relocateOption r (Stmt.unnumberedOption s)
  | none => rfl
  | some s => congrArg some s.unnumbered_relocate

theorem Function.unnumbered_relocate :
    (f : Function) → (f.relocate r).unnumbered = f.unnumbered.relocate r
  | ⟨_, _, body, _⟩ => by
    simp only [Function.relocate, Function.unnumbered, Stmt.unnumberedAll_relocateAll body]

theorem Function.unnumberedAll_relocateAll : (fs : List Function) →
    Function.unnumberedAll (Function.relocateAll r fs) =
      Function.relocateAll r (Function.unnumberedAll fs)
  | [] => rfl
  | f :: rest => by
    simp only [Function.relocateAll, Function.unnumberedAll, f.unnumbered_relocate,
      Function.unnumberedAll_relocateAll rest]

theorem Class.unnumbered_relocate : (k : Class) → (k.relocate r).unnumbered = k.unnumbered.relocate r
  | ⟨_, superclass, methods, _⟩ => by
    simp only [Class.relocate, Class.unnumbered, Occurrence.unnumbered_relocate,
      Function.unnumberedAll_relocateAll methods]

end

/-- A statement without the places of its tokens, their numbers and those of its occurrences. -/
def Stmt.bare (s : Stmt) : Stmt := s.unnumbered.relocate .nowhere

theorem Stmt.bare_relocate (s : Stmt) : (s.relocate r).bare = s.bare := by
  rw [bare, unnumbered_relocate, relocate_relocate]
  rfl

theorem Stmt.bare_span (f : Function) (span : Position) :
    (Stmt.function ⟨f.name, f.params, f.body, span⟩).bare = (Stmt.function f).bare := by
  cases f
  rfl

end Bare

/-! ## The tokens of a declaration -/

/-- The tokens that a declaration was read from: of a variable its name alone, and of a method what
stands behind the word `fun` in a function. -/
def Entity.Written (ts : List Token) : Entity → Prop
  | .variable name => ts = [name]
  | .function f => Grammar.Declaration ts (.function f)
  | .method f => ts.head? = some f.name ∧ Grammar.Callable f.name ts f
  | .class k => Grammar.Declaration ts (.class k)

/-- Each of these declarations was read from a stretch of the tokens. -/
def Stretches (ts : List Token) (xs : List Entity) : Prop :=
  ∀ x ∈ xs, ∃ us, us <:+: ts ∧ x.Written us

namespace Stretches

variable {ts us vs : List Token} {xs ys : List Entity}

theorem nil : Stretches ts [] := nofun

theorem part (h : Stretches us xs) (hpart : us <:+: ts) : Stretches ts xs := by
  intro x hx
  obtain ⟨vs, hvs, hwritten⟩ := h x hx
  exact ⟨vs, hvs.trans hpart, hwritten⟩

theorem append (h : Stretches ts xs) (h' : Stretches ts ys) : Stretches ts (xs ++ ys) :=
  fun x hx => (List.mem_append.mp hx).elim (h x) (h' x)

theorem cons {x : Entity} (hx : x.Written ts) (h : Stretches ts xs) : Stretches ts (x :: xs) := by
  intro y hy
  obtain rfl | hy := List.mem_cons.mp hy
  · exact ⟨ts, List.infix_rfl, hx⟩
  · exact h y hy

end Stretches

theorem infix_behind (ts : List Token) (t : Token) (us : List Token) : us <:+: ts ++ t :: us :=
  ((List.suffix_cons t us).trans (List.suffix_append ts _)).isInfix

namespace Grammar

theorem Variable.written {ts : List Token} {s : Stmt} (h : Variable ts s) :
    Stretches ts s.entities := by
  cases h with
  | @mk word name us semicolon _ _ _ _ _ =>
    have hself : Stretches [name] [.variable name] := .cons rfl .nil
    exact hself.part ⟨[word], us ++ [semicolon], rfl⟩

theorem ExpressionStatement.written {ts : List Token} {s : Stmt} (h : ExpressionStatement ts s) :
    Stretches ts s.entities := by
  cases h
  exact .nil

theorem Initializer.written {ts : List Token} {o : Option Stmt} (h : Initializer ts o) :
    Stretches ts (Stmt.entitiesOption o) := by
  cases h with
  | none => exact .nil
  | «variable» hs => exact hs.written
  | expression hs => exact hs.written

mutual

theorem Statement.written {ts : List Token} {s : Stmt} (h : Statement ts s) :
    Stretches ts s.entities := by
  match h with
  | .expression hs => exact hs.written
  | .print .. | .return .. | .break .. | .continue .. => exact .nil
  | .block _ hbody _ => exact hbody.written.part (List.infix_cons (List.prefix_append _ _).isInfix)
  | .ifThen _ _ _ _ hthen =>
    rw [Stmt.entities, Stmt.entitiesOption, List.append_nil]
    exact hthen.written.part (infix_behind _ _ _)
  | .ifElse _ _ _ _ hthen _ _ helse =>
    refine .append (hthen.written.part ?_) (helse.written.part (infix_behind _ _ _))
    exact (infix_behind _ _ _).trans (List.prefix_append _ _).isInfix
  | .whileLoop _ _ _ _ hbody => exact hbody.written.part (infix_behind _ _ _)
  | .forLoop _ _ hinitializer _ _ _ _ hbody =>
    refine .append (hinitializer.written.part ?_) (hbody.written.part (infix_behind _ _ _))
    rw [List.append_assoc, List.append_assoc]
    exact List.infix_cons (List.infix_cons (List.prefix_append _ _).isInfix)
termination_by structural h

theorem Declaration.written {ts : List Token} {s : Stmt} (h : Declaration ts s) :
    Stretches ts s.entities := by
  match h with
  | .class hword hname hsuperclass hopening hmethods hclosing =>
    refine .cons (.class hword hname hsuperclass hopening hmethods hclosing) (hmethods.written.part ?_)
    exact (infix_behind _ _ _).trans (List.prefix_append _ _).isInfix
  | .function hword hf =>
    exact .cons (.function hword hf) (hf.written.part (List.suffix_cons _ _).isInfix)
  | .variable hs => exact hs.written
  | .statement hs => exact hs.written
termination_by structural h

theorem Callable.written {first : Token} {ts : List Token} {f : Function} (h : Callable first ts f) :
    Stretches ts f.entities := by
  match h with
  | .mk _ _ _ _ _ _ hbody _ =>
    refine hbody.written.part (.trans ?_ (List.prefix_append _ _).isInfix)
    exact (List.suffix_cons _ _).isInfix.trans (infix_behind _ _ _)
termination_by structural h

theorem Methods.written {ts : List Token} {fs : List Function} (h : Methods ts fs) :
    Stretches ts (Function.entitiesMethods fs) := by
  match h with
  | .nil => exact .nil
  | @Methods.cons name us vs f _ hf hfs =>
    have hname : f.name = name := by cases hf; rfl
    have hmethod : Stretches (name :: us) (.method f :: f.entities) :=
      .cons ⟨congrArg some hname.symm, hname ▸ hf⟩ hf.written
    exact (hmethod.part (List.prefix_append _ _).isInfix).append
      (hfs.written.part (List.suffix_append _ _).isInfix)
termination_by structural h

/-- **Every declaration in a program was read from a stretch of its tokens.** -/
theorem Declarations.written {ts : List Token} {ss : List Stmt} (h : Declarations ts ss) :
    Stretches ts (Stmt.entitiesAll ss) := by
  match h with
  | .nil => exact .nil
  | .cons hs hss =>
    exact (hs.written.part (List.prefix_append _ _).isInfix).append
      (hss.written.part (List.suffix_append _ _).isInfix)
termination_by structural h

end

/-! ## Spans -/

theorem Callable.span {first : Token} {ts : List Token} {f : Function} (h : Callable first ts f) :
    ∃ last, ts.getLast? = some last ∧
      f.span = ⟨first.position.line, first.position.start, last.position.stop⟩ := by
  cases h with
  | @mk _ _ _ _ _ _ _ final => exact ⟨final, List.getLast?_concat, rfl⟩

theorem Callable.behind {first : Token} {ts : List Token} {f : Function} (h : Callable first ts f)
    (word : Token) : ∃ span, Callable word ts ⟨f.name, f.params, f.body, span⟩ := by
  cases h with
  | mk hname hopening hparams hcount hclosing hbrace hbody hfinal =>
    exact ⟨_, .mk hname hopening hparams hcount hclosing hbrace hbody hfinal⟩

end Grammar

/-- A range reaches from the beginning of the first token to the end of the last one. -/
def Position.Spans (p : Position) (ts : List Token) : Prop :=
  ∃ first last, ts.head? = some first ∧ ts.getLast? = some last ∧
    p.start = first.position.start ∧ p.stop = last.position.stop

namespace Grammar

theorem Declaration.spans_function {ts : List Token} {f : Function}
    (h : Declaration ts (.function f)) : f.span.Spans ts := by
  cases h with
  | @function word us _ hword hf =>
    obtain ⟨last, hlast, hspan⟩ := hf.span
    have hne : us ≠ [] := by
      rintro rfl
      cases hlast
    refine ⟨word, last, rfl, ?_, by rw [hspan], by rw [hspan]⟩
    rw [List.getLast?_cons_of_ne_nil hne, hlast]
  | «variable» hs => cases hs
  | statement hs =>
    cases hs with
    | expression hs => cases hs

theorem Declaration.spans_class {ts : List Token} {k : Class} (h : Declaration ts (.class k)) :
    k.span.Spans ts := by
  cases h with
  | @«class» word name us opening vs closing =>
    exact ⟨word, closing, rfl, List.getLast?_concat, rfl, rfl⟩
  | «variable» hs => cases hs
  | statement hs =>
    cases hs with
    | expression hs => cases hs

end Grammar

/-! ## Texts -/

/-- The text is this declaration alone, wherever the numbers begin: it is read without a problem, and
what is read is the declaration, its places and numbers apart. -/
def Stmt.Reads (s : Stmt) (text : String) : Prop :=
  ∀ firstId, (parse text firstId).clean = true ∧
    ∃ t, (parse text firstId).tree = [t] ∧ t.bare = s.bare

/-- A text whose tokens are a declaration is this declaration. -/
theorem reads_of_tokens {text : String} {s t : Stmt} (hlexed : (scan text).all Except.isOk = true)
    (h : Grammar.Declaration (tokens text).dropLast t) (hbare : t.bare = s.bare) : s.Reads text := by
  intro firstId
  have hprogram : Grammar.Declarations (tokens text).dropLast [t] := by
    have hall := Grammar.Declarations.cons h .nil
    rwa [List.append_nil] at hall
  obtain ⟨hclean, htree⟩ := parse_of_accepted firstId hlexed hprogram.accepted
  refine ⟨hclean, ?_⟩
  match hread : (parse text firstId).tree with
  | [] =>
    rw [hread] at htree
    cases htree
  | [u] =>
    rw [hread] at htree
    refine ⟨u, rfl, ?_⟩
    rw [← hbare, Stmt.bare, (List.cons.inj htree).1, Stmt.bare]
  | u :: v :: rest =>
    rw [hread] at htree
    cases (List.cons.inj htree).2

section

variable {source : String} {firstId : ExprId} {stretch : List Token} {p : Position}

theorem exists_text (hclean : (parse source firstId).clean = true)
    (hstretch : stretch <:+: (tokens source).dropLast) (hspan : p.Spans stretch) :
    ∃ text, p.Cuts source text ∧ (scan text).all Except.isOk = true ∧
      ∃ r, (tokens text).dropLast = stretch.map (Token.relocate r) := by
  obtain ⟨first, last, hfirst, hlast, hstart, hstop⟩ := hspan
  obtain ⟨text, hcuts, htext⟩ := exists_excerpt (lexed_of_clean _ _ hclean) hstretch hfirst hlast
  exact ⟨text, hcuts p hstart hstop, htext⟩

theorem exists_text_of_declaration (hclean : (parse source firstId).clean = true)
    (hstretch : stretch <:+: (tokens source).dropLast) (hspan : p.Spans stretch) {s : Stmt}
    (h : Grammar.Declaration stretch s) : ∃ text, p.Cuts source text ∧ s.Reads text := by
  obtain ⟨text, hcuts, hlexed, r, htokens⟩ := exists_text hclean hstretch hspan
  refine ⟨text, hcuts, reads_of_tokens hlexed (t := s.relocate r) ?_ (s.bare_relocate r)⟩
  rw [htokens]
  exact h.relocate r

/-- The tokens of a method, and the word `fun` in front, are a text of its own. -/
theorem exists_text_of_method (hclean : (parse source firstId).clean = true)
    (hstretch : stretch <:+: (tokens source).dropLast) {f : Function}
    (hhead : stretch.head? = some f.name) (h : Grammar.Callable f.name stretch f) :
    ∃ text, f.span.Cuts source text ∧ (Stmt.function f).Reads ("fun " ++ text) := by
  obtain ⟨last, hlast, hspan⟩ := h.span
  have hspans : f.span.Spans stretch := ⟨f.name, last, hhead, hlast, by rw [hspan], by rw [hspan]⟩
  obtain ⟨text, hcuts, hlexed, r, htokens⟩ := exists_text hclean hstretch hspans
  obtain ⟨word, hword, hwhole, hall⟩ := tokens_fun text
  -- the function has the tokens of the method, but begins with the word in front of them
  obtain ⟨span, hf⟩ := ((h.relocate r).relocate (.behind 0 4 1)).behind word
  have hdeclaration := Grammar.Declaration.function hword hf
  rw [← htokens, ← hwhole] at hdeclaration
  refine ⟨text, hcuts, reads_of_tokens (hall.trans hlexed) hdeclaration ?_⟩
  rw [Stmt.bare_span]
  exact (Stmt.bare_relocate _ _).trans (Stmt.bare_relocate r (.function f))

end

/-- **Spans are faithful.** What the span of a function or class cuts out of a text without
problems is a text that is this declaration alone; for a method this is so with the word `fun` in
front. -/
theorem excerpt_of_clean (source : String) (firstId : ExprId)
    (h : (parse source firstId).clean = true) :
    (∀ f, .function f ∈ Stmt.entitiesAll (parse source firstId).tree → ∃ text,
        (∀ other, f.span.Cuts source other ↔ other = text) ∧ (Stmt.function f).Reads text) ∧
      (∀ f, .method f ∈ Stmt.entitiesAll (parse source firstId).tree → ∃ text,
        (∀ other, f.span.Cuts source other ↔ other = text) ∧
          (Stmt.function f).Reads ("fun " ++ text)) ∧
      ∀ k, .class k ∈ Stmt.entitiesAll (parse source firstId).tree → ∃ text,
        (∀ other, k.span.Cuts source other ↔ other = text) ∧ (Stmt.class k).Reads text := by
  have hwritten := (declarations_of_clean source firstId h).written
  refine ⟨fun f hf => ?_, fun f hf => ?_, fun k hk => ?_⟩
  · obtain ⟨stretch, hstretch, hdeclaration⟩ := hwritten _ hf
    have hspans : f.span.Spans stretch := Grammar.Declaration.spans_function hdeclaration
    obtain ⟨text, hcuts, hreads⟩ := exists_text_of_declaration h hstretch hspans hdeclaration
    exact ⟨text, fun _ => Position.cuts_iff hcuts, hreads⟩
  · obtain ⟨stretch, hstretch, hhead, hcallable⟩ := hwritten _ hf
    obtain ⟨text, hcuts, hreads⟩ := exists_text_of_method h hstretch hhead hcallable
    exact ⟨text, fun _ => Position.cuts_iff hcuts, hreads⟩
  · obtain ⟨stretch, hstretch, hdeclaration⟩ := hwritten _ hk
    have hspans : k.span.Spans stretch := Grammar.Declaration.spans_class hdeclaration
    obtain ⟨text, hcuts, hreads⟩ := exists_text_of_declaration h hstretch hspans hdeclaration
    exact ⟨text, fun _ => Position.cuts_iff hcuts, hreads⟩

/-- A class with a method, which holds a function, a string over two lines and a comment. -/
theorem excerpt_of_clean_class :
    (parse "class A \x7b m(p) \x7b fun f() \x7b print \"a\nb\"; \x7d // f\n f(); \x7d \x7d" 7).clean = true ∧
      (Stmt.entitiesAll
        (parse "class A \x7b m(p) \x7b fun f() \x7b print \"a\nb\"; \x7d // f\n f(); \x7d \x7d" 7).tree).length =
          3 ∧
      ∀ f, .method f ∈ Stmt.entitiesAll
          (parse "class A \x7b m(p) \x7b fun f() \x7b print \"a\nb\"; \x7d // f\n f(); \x7d \x7d" 7).tree →
        ∃ text, (∀ other, f.span.Cuts
            "class A \x7b m(p) \x7b fun f() \x7b print \"a\nb\"; \x7d // f\n f(); \x7d \x7d" other ↔
              other = text) ∧ (Stmt.function f).Reads ("fun " ++ text) :=
  ⟨by decide +kernel, by decide +kernel, (excerpt_of_clean _ 7 (by decide +kernel)).2.1⟩

end Lox
