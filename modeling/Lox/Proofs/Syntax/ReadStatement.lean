import Lox.Proofs.Syntax.ReadExpression
import Lox.Syntax.Statement

/-!
# What the rules of statements read

* `ensures_synchronize`: going on after a problem always gets further;
* `Declares`: what the rule of a declaration does, which may give its declaration up;
* `ensures_printStatement`, …: one lemma for each rule, under the assumption that the rules for
  nested declarations and statements read what is shorter;
* **`declares_declaration`**, **`reads_declarations`**: what a declaration and a whole text read.
-/

namespace Lox

open Lox.Parser

/-! ## Going on after a problem -/

theorem ensures_synchronizeFrom (skipped : Token) {fuel : Nat} {c : Cursor} (hc : c.Sound)
    (hfuel : c.tokens.length ≤ fuel) {halt : Halt → Cursor → Prop} :
    Ensures (synchronizeFrom skipped fuel) c (fun _ d => c.Leads d) halt := by
  induction fuel generalizing c skipped with
  | zero => simp [Cursor.tokens] at hfuel
  | succ fuel ih =>
    rw [synchronizeFrom, ensures_bind, ensures_peek]
    split <;> rename_i h
    · exact .refl c
    · have hend : c.current.terminal ≠ .endOfInput := by
        intro he
        simp [he] at h
      have hpass := Cursor.passes_advance hc hend
      have hlt := hpass.length_lt
      rw [ensures_bind, ensures_advance]
      refine (ih _ (hpass.leads.sound hc) (by omega)).mono ?_ (fun _ _ h => h)
      exact fun _ d _ hd => hpass.leads.trans hd

/-- Going on after a problem always gets further, unless the text ends there. -/
theorem ensures_synchronize {fuel : Nat} {c : Cursor} (hc : c.Sound)
    (hfuel : c.tokens.length ≤ fuel) {halt : Halt → Cursor → Prop} :
    Ensures (synchronize fuel) c
      (fun _ d => c.Leads d ∧
        (c.current.terminal ≠ .endOfInput → d.tokens.length < c.tokens.length)) halt := by
  rw [synchronize, ensures_bind, ensures_advance]
  by_cases hend : c.current.terminal = .endOfInput
  · rw [Cursor.advance_of_atEnd hend]
    refine (ensures_synchronizeFrom _ hc hfuel).mono ?_ (fun _ _ h => h)
    exact fun _ d _ hd => ⟨hd, fun h => absurd hend h⟩
  · have hpass := Cursor.passes_advance hc hend
    have hlt := hpass.length_lt
    refine (ensures_synchronizeFrom _ (hpass.leads.sound hc) (by omega)).mono ?_ (fun _ _ h => h)
    refine fun _ d _ hd => ⟨hpass.leads.trans hd, fun _ => ?_⟩
    have := hd.length_le
    omega

/-- A rule that gave up with a problem is followed by going on behind it. -/
theorem recovering_eq (rule : Parser Stmt) (fuel : Nat) (c : Cursor) :
    recovering rule fuel c =
      match rule c with
      | .ok s d => .ok (some s) d
      | .error .syntaxProblem d => (synchronize fuel >>= fun _ => pure none) d
      | .error .outOfFuel d => .error .outOfFuel d := by
  unfold recovering
  show EStateM.bind (EStateM.tryCatch (EStateM.bind rule _) _) _ c = _
  delta EStateM.bind EStateM.tryCatch
  dsimp only
  cases rule c with
  | ok s d => rfl
  | error e d =>
    cases e with
    | outOfFuel => rfl
    | syntaxProblem =>
      dsimp only [bind, EStateM.Backtrackable.restore, EStateM.dummyRestore]
      delta EStateM.bind
      dsimp only
      cases synchronize fuel d <;> rfl

/-- What the rule of a declaration does: it reads a declaration, or notes a problem and gets
further. -/
def Declares (rule : Parser (Option Stmt)) (bound : Nat) : Prop :=
  ∀ c : Cursor, c.Sound → c.current.terminal ≠ .endOfInput → c.tokens.length < bound →
    Ensures rule c
      (fun
        | some s, d => Takes .declaration c s d
        | none, d => c.Leads d ∧ ¬ c.Silent d ∧ d.tokens.length < c.tokens.length)
      (Halted c)

theorem Declares.mono {rule : Parser (Option Stmt)} {bound bound' : Nat} (h : Declares rule bound)
    (hb : bound' ≤ bound) : Declares rule bound' :=
  fun c hc hend hl => h c hc hend (Nat.lt_of_lt_of_le hl hb)

/-- A declaration that is given up is left out. -/
theorem declares_recovering {rule : Parser Stmt} {fuel : Nat} (h : Parses .declaration rule fuel) :
    Declares (recovering rule fuel) fuel := by
  intro c hc hend hl
  have hrule := h c hc hl
  rw [Ensures, recovering_eq]
  cases hr : rule c with
  | ok s d => exact hrule.ok_of_eq hr
  | error e d =>
    obtain ⟨rfl, hleads, hheard⟩ := hrule.halt_of_eq hr
    have hle := hleads.length_le
    show Ensures (synchronize fuel >>= fun _ => pure none) d _ _
    refine (ensures_synchronize (hleads.sound hc) (by omega)).bind ?_ (fun _ _ h => h)
    rintro _ e - ⟨hleads', hfurther⟩
    refine ⟨hleads.trans hleads', fun hs => hheard (hleads.silent_of_trans hleads' hs).1, ?_⟩
    have hle' := hleads'.length_le
    by_cases hend' : d.current.terminal = .endOfInput
    · have hne : d.tokens.length ≠ c.tokens.length := by
        intro he
        have := hleads.tokens.eq_of_length he
        rw [Cursor.tokens, Cursor.tokens, List.cons.injEq] at this
        rw [this.1] at hend'
        exact hend hend'
      omega
    · have := hfurther hend'
      omega

/-! ## Rows of declarations -/

theorem ensures_goesOnUnless {c : Cursor} {terminal : Terminal} {ok : Bool → Cursor → Prop}
    {halt : Halt → Cursor → Prop} :
    Ensures (goesOnUnless terminal) c ok halt ↔
      ok (c.current.terminal != terminal && c.current.terminal != .endOfInput) c := Iff.rfl

theorem ensures_declarationsFrom {declaration : Parser (Option Stmt)} {bound : Nat}
    (hd : Declares declaration bound) (last : Terminal) (read : Array Stmt) {fuel : Nat}
    {c : Cursor} (hc : c.Sound) (hl : c.tokens.length < bound) (hfuel : c.tokens.length ≤ fuel) :
    Ensures (declarationsFrom declaration last read fuel) c
      (fun ss d => ∃ ts, ss = read.toList ++ ts ∧ Reads .declarations c ts d ∧
        (d.current.terminal = last ∨ d.current.terminal = .endOfInput))
      (Halted c) := by
  induction fuel generalizing c read with
  | zero => simp [Cursor.tokens] at hfuel
  | succ fuel ih =>
    rw [declarationsFrom, ensures_bind, ensures_goesOnUnless]
    split <;> rename_i hgo
    · simp only [Bool.and_eq_true, bne_iff_ne] at hgo
      refine (hd c hc hgo.2 hl).bind (fun o d _ ho => ?_) (fun _ _ h => h)
      cases o with
      | none =>
        obtain ⟨hleads, hheard, hshorter⟩ := ho
        refine (ih read (hleads.sound hc) (by omega) (by omega)).mono ?_ (fun _ _ h => h.trans hleads)
        rintro ss e - ⟨ts, rfl, hts, hlast⟩
        exact ⟨ts, rfl, ⟨.behind_problem hleads hheard hts.stretch, hts.regular⟩, hlast⟩
      | some s =>
        have hshorter := ho.shorter
        have hsound := ho.stretch.sound hc
        refine (ih (read.push s) hsound (by omega) (by omega)).mono ?_ (fun _ _ h => ho.stretch.halted h)
        rintro ss e - ⟨ts, rfl, hts, hlast⟩
        refine ⟨s :: ts, by simp, ⟨(ho.stretch.trans hts.stretch).imp ?_ ?_, ?_⟩, hlast⟩
        · show List.Perm (s.ids ++ Stmt.idsAll ts) (Stmt.idsAll (s :: ts))
          rw [Stmt.idsAll]
        · rintro _ ⟨us, vs, rfl, hus, hvs⟩
          exact .cons hus hvs
        · exact List.forall_mem_cons.mpr ⟨ho.regular, hts.regular⟩
    · refine ⟨[], by simp, ⟨(Stretch.refl c).imp ?_ ?_, ?_⟩, ?_⟩
      · show List.Perm [] (Stmt.idsAll [])
        rw [Stmt.idsAll]
      · rintro _ rfl
        exact .nil
      · exact fun s hs => absurd hs List.not_mem_nil
      · by_cases h : c.current.terminal = last
        · exact .inl h
        · exact .inr (by simpa [h] using hgo)

theorem ensures_block {declaration : Parser (Option Stmt)} {bound fuel : Nat}
    (hd : Declares declaration bound) {c : Cursor} (hc : c.Sound) (hl : c.tokens.length < bound)
    (hfuel : c.tokens.length ≤ fuel) :
    Ensures (block declaration fuel) c
      (fun r e => ∃ d, Reads .declarations c r.1 d ∧ d.Passes r.2 e ∧ r.2.IsMark .rightBrace)
      (Halted c) := by
  rw [block]
  refine (ensures_declarationsFrom hd _ _ hc hl hfuel).bind ?_ (fun _ _ h => h)
  rintro _ d - ⟨ss, rfl, hss, -⟩
  refine hss.stretch.bind (ensures_expectMark (hss.stretch.sound hc) _ _) fun closing e hclosing => ?_
  exact ⟨d, by simpa using hss, hclosing⟩

/-! ## Declarations -/

theorem ensures_parametersFrom (read : Array Token) {fuel : Nat} {c : Cursor} (hc : c.Sound)
    (hfuel : c.tokens.length ≤ fuel) :
    Ensures (parametersFrom read fuel) c
      (fun ps d => ∃ qs, (ps = read.toList ++ qs ∧ ∀ q ∈ qs, Token.Names q) ∧
        Stretch c []
          (fun ts => (Grammar.Names ts qs ∧ (read.size < maxListed → read.size + qs.length ≤ maxListed))
            ∧ read.size < maxListed) d)
      (Halted c) := by
  induction fuel generalizing c read with
  | zero => simp [Cursor.tokens] at hfuel
  | succ fuel ih =>
    rw [parametersFrom]
    refine ensures_limited _ _ fun c' hleads => ?_
    have hc' := hleads.sound hc
    have hlength := hleads.length_le
    refine (Stretch.refl c').name hc' fun name d hname hlt h => ?_
    refine h.bind (ensures_accept? (h.sound hc') (by simp)) fun o d' ho => ?_
    cases o with
    | none =>
      obtain ⟨rfl, -⟩ := ho
      refine ⟨[name], ⟨by simp, List.forall_mem_singleton.mpr hname⟩, h.imp (.refl _) ?_⟩
      rintro _ ⟨_, _, rfl, rfl, rfl⟩
      exact ⟨.one hname.isName, fun h => h⟩
    | some comma =>
      obtain ⟨hpass, hcomma, -⟩ := ho
      have h := h.trans (.ofPasses hpass)
      have hlt' := hpass.length_lt
      refine (ih (read.push name) (h.sound hc') (by omega)).mono ?_ (fun _ _ hh => h.halted hh)
      rintro ps d'' - ⟨qs, ⟨rfl, hqs⟩, hstretch⟩
      refine ⟨name :: qs, ⟨by simp, List.forall_mem_cons.mpr ⟨hname, hqs⟩⟩,
        (h.trans hstretch).imp (.refl _) ?_⟩
      rintro _ ⟨_, us, rfl, ⟨_, _, rfl, ⟨_, _, rfl, rfl, rfl⟩, rfl⟩, ⟨hus, hcount⟩, hsize⟩
      refine ⟨.more hname.isName (Token.terminal_eq_punct.mp hcomma) hus, fun _ => ?_⟩
      have := hcount hsize
      rw [Array.size_push] at this
      rw [List.length_cons]
      omega

theorem ensures_parameters (fuel : Nat) {c : Cursor} (hc : c.Sound)
    (hfuel : c.tokens.length ≤ fuel) :
    Ensures (if c.current.terminal == .punct .rightParen then pure [] else parametersFrom #[] fuel) c
      (fun ps d => (∀ p ∈ ps, Token.Names p) ∧
        Stretch c [] (fun ts => Grammar.Parameters ts ps ∧ ps.length ≤ maxListed) d)
      (Halted c) := by
  split
  · refine ⟨by simp, (Stretch.refl c).imp (.refl _) ?_⟩
    rintro _ rfl
    exact ⟨.none, Nat.zero_le _⟩
  · refine (ensures_parametersFrom #[] hc hfuel).mono ?_ (fun _ _ h => h)
    rintro _ d - ⟨ps, ⟨rfl, hps⟩, hstretch⟩
    refine ⟨hps, hstretch.imp (.refl _) ?_⟩
    rintro ts ⟨⟨hts, hcount⟩, hsize⟩
    exact ⟨.some hts, by simpa using hcount hsize⟩

theorem parses_function {declaration : Parser (Option Stmt)} {bound : Nat} (fuel : Nat)
    (hd : Declares declaration bound) (form : FunctionForm) (first : Token) (hb : bound ≤ fuel + 2) :
    Parses (.callable first) (function declaration form first fuel) bound := by
  intro c hc hl
  rw [function]
  refine (Stretch.refl c).name hc fun name c₁ hname hlt₁ h => ?_
  refine h.mark hc fun opening c₂ hopening hlt₂ h => ?_
  rw [ensures_bind, ensures_peek]
  have hread := ensures_parameters fuel (h.sound hc) (by omega)
  refine ensures_ite_bind.mpr (h.bind hread ?_)
  rintro params c₃ ⟨hparams, hstretch⟩
  have hle₃ := hstretch.leads.length_le
  have h := h.trans hstretch
  refine h.mark hc fun closing c₄ hclosing hlt₄ h => ?_
  refine h.mark hc fun brace c₅ hbrace hlt₅ h => ?_
  refine h.bind (ensures_block hd (h.sound hc) (by omega) (by omega)) ?_
  rintro ⟨body, final⟩ c₇ ⟨c₆, hbody, hfinal, hmark⟩
  have h := (h.trans hbody.stretch).trans (.ofPasses hfinal)
  have hle := (hbody.stretch.leads.trans hfinal.leads).length_le
  refine ⟨⟨h.imp ?_ ?_, .mk hname hparams hbody.regular⟩, by omega⟩
  · show List.Perm (Stmt.idsAll body ++ []) (Function.ids _)
    rw [List.append_nil, Function.ids]
  · rintro _ ⟨_, _, rfl, ⟨_, us, rfl, ⟨_, _, rfl, ⟨_, _, rfl, ⟨_, ts, rfl, ⟨_, _, rfl, ⟨_, _, rfl, rfl,
      rfl⟩, rfl⟩, hts, hcount⟩, rfl⟩, rfl⟩, hus⟩, rfl⟩
    show Grammar.Callable first _ _
    have : Grammar.Callable first _ _ :=
      .mk hname.isName hopening hts hcount hclosing hbrace hus hmark
    simpa only [spanFrom, List.append_assoc, List.cons_append, List.nil_append] using this

theorem ensures_methodsFrom {declaration : Parser (Option Stmt)} {bound : Nat}
    (hd : Declares declaration bound) (read : Array Function) {fuel : Nat} {c : Cursor}
    (hc : c.Sound) (hl : c.tokens.length < bound) (hfuel : c.tokens.length ≤ fuel) :
    Ensures (methodsFrom declaration read fuel) c
      (fun fs d => ∃ gs, fs = read.toList ++ gs ∧ Reads .methods c gs d) (Halted c) := by
  induction fuel generalizing c read with
  | zero => simp [Cursor.tokens] at hfuel
  | succ fuel ih =>
    rw [methodsFrom, ensures_bind, ensures_goesOnUnless]
    split
    · rw [ensures_bind, ensures_get]
      have hf := parses_function fuel (hd.mono hl) .method c.current (Nat.succ_le_succ hfuel)
      refine (hf c hc (Nat.lt_succ_self _)).bind (fun f d _ hf => ?_) (fun _ _ h => h)
      have hshorter := hf.shorter
      have hstretch := hf.stretch.head hshorter
      refine (ih (read.push f) (hstretch.sound hc) (by omega) (by omega)).mono ?_
        (fun _ _ h => hstretch.halted h)
      rintro _ e - ⟨gs, rfl, hgs⟩
      refine ⟨f :: gs, by simp, (hstretch.trans hgs.stretch).imp ?_ ?_, ?_⟩
      · show List.Perm (f.ids ++ Function.idsAll gs) (Function.idsAll (f :: gs))
        rw [Function.idsAll]
      · rintro _ ⟨_, us, rfl, ⟨hf, ts, rfl⟩, hus⟩
        exact .cons hf hus
      · exact List.forall_mem_cons.mpr ⟨hf.regular, hgs.regular⟩
    · refine ⟨[], by simp, (Stretch.refl c).imp ?_ ?_, fun f hf => absurd hf List.not_mem_nil⟩
      · show List.Perm [] (Function.idsAll [])
        rw [Function.idsAll]
      · rintro _ rfl
        exact .nil

theorem ensures_superclass? {c : Cursor} (hc : c.Sound) :
    Ensures superclass? c
      (fun o d => Stretch c (Occurrence.idsOption o) (Grammar.Superclass · o) d ∧
        ∀ use ∈ o, use.name.Names)
      (Halted c) := by
  rw [superclass?]
  refine (Stretch.refl c).bind (ensures_accept? hc (by simp)) fun o d ho => ?_
  cases o with
  | none =>
    obtain ⟨rfl, -⟩ := ho
    refine ⟨(Stretch.refl _).imp (.refl _) ?_, nofun⟩
    rintro _ rfl
    exact .none
  | some less =>
    obtain ⟨hpass, hless, -⟩ := ho
    refine (Stretch.ofPasses hpass).name hc fun name d' hname _ h => ?_
    refine ⟨(h.trans (.freshId d')).imp (.refl _) ?_, ?_⟩
    · rintro _ ⟨_, _, rfl, ⟨_, _, rfl, rfl, rfl⟩, rfl⟩
      exact .some (Token.terminal_eq_punct.mp hless) hname.isName
    · rintro use ⟨⟩
      exact hname

theorem ensures_classDeclaration {declaration : Parser (Option Stmt)} {bound fuel : Nat}
    (hd : Declares declaration bound) {c₀ c : Cursor} {word : Token} (hc₀ : c₀.Sound)
    (hpass : c₀.Passes word c) (hword : word.IsWord .class) (hl : c.tokens.length < bound)
    (hfuel : c.tokens.length ≤ fuel) :
    Ensures (classDeclaration declaration word fuel) c (Takes .declaration c₀) (Halted c₀) := by
  rw [classDeclaration]
  have hlt := hpass.length_lt
  refine (Stretch.ofPasses hpass).name hc₀ fun name c₁ hname hlt₁ h => ?_
  refine h.bind (ensures_superclass? (h.sound hc₀)) ?_
  rintro superclass c₂ ⟨hstretch, hsuperclass⟩
  have hle₂ := hstretch.leads.length_le
  refine (h.trans hstretch).mark hc₀ fun opening c₃ hopening hlt₃ h => ?_
  refine h.bind (ensures_methodsFrom hd #[] (h.sound hc₀) (by omega) (by omega)) ?_
  rintro methods c₄ ⟨_, rfl, hmethods⟩
  have hle₄ := hmethods.stretch.leads.length_le
  refine (h.trans hmethods.stretch).mark hc₀ fun closing c₅ hclosing hlt₅ h => ?_
  refine ⟨⟨h.imp ?_ ?_, .class (.mk hname hsuperclass ?_)⟩, by omega⟩
  · show List.Perm ([] ++ Occurrence.idsOption superclass ++ Function.idsAll methods) (Stmt.ids _)
    rw [List.nil_append, Stmt.ids, Class.ids]
  · rintro _ ⟨_, _, rfl, ⟨_, us, rfl, ⟨_, _, rfl, ⟨_, ts, rfl, ⟨_, _, rfl, rfl, rfl⟩, hts⟩, rfl⟩, hus⟩,
      rfl⟩
    show Grammar.Declaration _ _
    have := Grammar.Declaration.class hword hname.isName hts hopening hus hclosing
    simpa only [spanFrom, List.append_assoc, List.cons_append, List.nil_append] using this
  · exact hmethods.regular

theorem ensures_varDeclaration {fuel : Nat} {c₀ c : Cursor} {word : Token} (hc₀ : c₀.Sound)
    (hpass : c₀.Passes word c) (hword : word.IsWord .var) (hfuel : c.tokens.length ≤ fuel) :
    Ensures (varDeclaration fuel) c
      (fun s d => Stretch c₀ s.ids (Grammar.Variable · s) d ∧ s.Regular ∧ s.isClause = true ∧
        d.tokens.length < c₀.tokens.length) (Halted c₀) := by
  rw [varDeclaration]
  have hlt := hpass.length_lt
  refine (Stretch.ofPasses hpass).name hc₀ fun name c₁ hname hlt₁ h => ?_
  have rest {value : Option Expr} {c₂ : Cursor} (hreg : ∀ e ∈ value, Expr.Regular e)
      (hvalue : Stretch c₁ (Expr.idsOption value) (Grammar.InitialValue · value) c₂) :
      Ensures (do
          let _ ← expectMark .semicolon .afterVariableDeclaration
          return Stmt.var name value) c₂
        (fun s d => Stretch c₀ s.ids (Grammar.Variable · s) d ∧ s.Regular ∧ s.isClause = true ∧
          d.tokens.length < c₀.tokens.length) (Halted c₀) := by
    have hle₂ := hvalue.leads.length_le
    refine (h.trans hvalue).mark hc₀ fun semicolon c₃ hsemicolon hlt₃ h => ?_
    refine ⟨h.imp ?_ ?_, .var hname hreg, rfl, by omega⟩
    · show List.Perm (Expr.idsOption value) (Stmt.ids _)
      rw [Stmt.ids]
    · rintro _ ⟨_, _, rfl, ⟨_, ts, rfl, ⟨_, _, rfl, rfl, rfl⟩, hts⟩, rfl⟩
      exact .mk hword hname.isName hts hsemicolon
  refine h.bind (ensures_accept? (h.sound hc₀) (by simp)) fun o d ho => ?_
  cases o with
  | none =>
    obtain ⟨rfl, -⟩ := ho
    refine rest (fun _ he => absurd he (Option.not_mem_none _)) ((Stretch.refl _).imp (.refl _) ?_)
    rintro _ rfl
    exact .none
  | some equals =>
    obtain ⟨hpass, hequals, -⟩ := ho
    have hlt := hpass.length_lt
    have h' := h.trans (.ofPasses hpass)
    rw [ensures_bind, ensures_map]
    refine (parses_expression fuel d (h'.sound hc₀) (by omega)).mono ?_ (fun _ _ hh => h'.halted hh)
    intro e d' _ he
    have hstretch := (Stretch.ofPasses hpass).trans he.stretch
    refine rest ?_ (hstretch.imp (.refl _) ?_)
    · rintro _ ⟨⟩
      exact he.regular
    · rintro _ ⟨_, _, rfl, rfl, hts⟩
      exact .some (Token.terminal_eq_punct.mp hequals) hts

/-! ## Statements -/

/-- Between `c` and `d` a statement was read. No `else` is in view behind an `if` without one. -/
structure TakesStatement (c : Cursor) (s : Stmt) (d : Cursor) : Prop extends
    Takes .statement c s d where
  closed : s.endsOpen = true → d.current.terminal ≠ .keyword .else

/-- In front of fewer than `bound` tokens the rule reads a statement or gives up. -/
def ParsesStatement (rule : Parser Stmt) (bound : Nat) : Prop :=
  ∀ c : Cursor, c.Sound → c.tokens.length < bound →
    Ensures rule c (TakesStatement c) (Halted c)

theorem ensures_expressionStatement {fuel : Nat} {c : Cursor} (hc : c.Sound)
    (hfuel : c.tokens.length < fuel) :
    Ensures (expressionStatement fuel) c
      (fun s d => Stretch c s.ids (Grammar.ExpressionStatement · s) d ∧ s.Regular ∧
        s.isClause = true ∧ s.declares = false ∧ s.endsOpen = false ∧
        d.tokens.length < c.tokens.length)
      (Halted c) := by
  rw [expressionStatement]
  refine (Stretch.refl c).tree hc (parses_expression fuel) hfuel fun e c₁ he hlt₁ h => ?_
  refine h.mark hc fun semicolon c₂ hsemicolon hlt₂ h => ?_
  refine ⟨h.imp ?_ ?_, .expression he, rfl, rfl, rfl, by omega⟩
  · show List.Perm e.ids (Stmt.ids _)
    rw [Stmt.ids]
  · rintro _ ⟨_, _, rfl, ⟨_, ts, rfl, rfl, hts⟩, rfl⟩
    exact .mk hts hsemicolon

theorem ensures_optionalExpression {stop : Punct} {fuel : Nat} {c : Cursor} (hc : c.Sound)
    (hfuel : c.tokens.length < fuel) :
    Ensures (optionalExpression stop fuel) c (Reads .optional c) (Halted c) := by
  rw [optionalExpression, ensures_bind, ensures_peek]
  split
  · refine ⟨(Stretch.refl c).imp (.refl _) ?_, nofun⟩
    rintro _ rfl
    exact .none
  · refine ensures_map.mpr ((parses_expression fuel c hc hfuel).mono ?_ (fun _ _ h => h))
    intro e d _ he
    refine ⟨he.stretch.imp (.refl _) fun ts hts => .some hts, ?_⟩
    rintro _ ⟨⟩
    exact he.regular

theorem ensures_forInitializer {fuel : Nat} {c : Cursor} (hc : c.Sound)
    (hfuel : c.tokens.length < fuel) :
    Ensures (forInitializer fuel) c
      (fun o d => Stretch c (Stmt.idsOption o) (Grammar.Initializer · o) d ∧
        (∀ s ∈ o, Stmt.Regular s) ∧ (∀ s ∈ o, s.isClause = true) ∧
        d.tokens.length < c.tokens.length)
      (Halted c) := by
  rw [forInitializer, ensures_bind, ensures_peek]
  split <;> rename_i hk
  · refine (Stretch.refl c).pass hc (by simp [hk]) fun d _ hlt h => ?_
    refine ⟨h.imp (.refl _) ?_, nofun, nofun, hlt⟩
    rintro _ ⟨_, _, rfl, rfl, rfl⟩
    exact .none (Token.terminal_eq_punct.mp hk)
  · have hpass := Cursor.passes_advance hc (by simp [hk])
    have hlt := hpass.length_lt
    rw [ensures_bind, ensures_advance, ensures_map]
    have hword := Token.terminal_eq_keyword.mp hk
    refine (ensures_varDeclaration hc hpass hword (by omega)).mono ?_ (fun _ _ h => h)
    rintro s d - ⟨hstretch, hreg, hclause, hshorter⟩
    refine ⟨hstretch.imp (.refl _) fun ts hts => .variable hts, ?_, ?_, hshorter⟩
    · rintro _ ⟨⟩
      exact hreg
    · rintro _ ⟨⟩
      exact hclause
  · refine ensures_map.mpr ((ensures_expressionStatement hc hfuel).mono ?_ (fun _ _ h => h))
    rintro s d - ⟨hstretch, hreg, hclause, -, -, hshorter⟩
    refine ⟨hstretch.imp (.refl _) fun ts hts => .expression hts, ?_, ?_, hshorter⟩
    · rintro _ ⟨⟩
      exact hreg
    · rintro _ ⟨⟩
      exact hclause

section

variable {statement : Parser Stmt} {bound fuel : Nat} {c₀ c : Cursor} {word : Token}

theorem ensures_forStatement (hs : ParsesStatement statement bound) (hc₀ : c₀.Sound)
    (hpass : c₀.Passes word c) (hword : word.IsWord .for) (hl : c.tokens.length < bound)
    (hfuel : c.tokens.length < fuel) :
    Ensures (forStatement statement fuel) c (TakesStatement c₀) (Halted c₀) := by
  rw [forStatement]
  have hlt := hpass.length_lt
  refine (Stretch.ofPasses hpass).mark hc₀ fun opening c₁ hopening hlt₁ h => ?_
  refine h.bind (ensures_forInitializer (h.sound hc₀) (by omega)) ?_
  rintro initializer c₂ ⟨hstretch, hinitializer, hclause, hlt₂⟩
  have h := h.trans hstretch
  refine h.reads (ensures_optionalExpression (h.sound hc₀) (by omega)) ?_
  intro condition c₃ hcondition hle₃ h
  refine h.mark hc₀ fun semicolon c₄ hsemicolon hlt₄ h => ?_
  refine h.reads (ensures_optionalExpression (h.sound hc₀) (by omega)) ?_
  intro increment c₅ hincrement hle₅ h
  refine h.mark hc₀ fun closing c₆ hclosing hlt₆ h => ?_
  refine h.bind (hs c₆ (h.sound hc₀) (by omega)) fun body d hbody => ?_
  obtain ⟨hreg, hdeclares⟩ := hbody.regular
  have hshorter := hbody.shorter
  refine ⟨⟨⟨(h.trans hbody.stretch).imp ?_ ?_, ?_, rfl⟩, by omega⟩, hbody.closed⟩
  · show List.Perm ([] ++ Stmt.idsOption initializer ++ Expr.idsOption condition ++
      Expr.idsOption increment ++ body.ids) (Stmt.ids _)
    rw [List.nil_append, Stmt.ids]
  · rintro _ ⟨_, zs, rfl, ⟨_, _, rfl, ⟨_, vs, rfl, ⟨_, _, rfl, ⟨_, us, rfl, ⟨_, ts, rfl, ⟨_, _, rfl,
      rfl, rfl⟩, hts⟩, hus⟩, rfl⟩, hvs⟩, rfl⟩, hzs⟩
    show Grammar.Statement _ _
    have := Grammar.Statement.forLoop hword hopening hts hus hsemicolon hvs hclosing hzs
    simpa only [List.append_assoc, List.cons_append, List.nil_append] using this
  · exact .forLoop hinitializer hclause hcondition hincrement hreg hdeclares

theorem ensures_ifStatement (hs : ParsesStatement statement bound) (hc₀ : c₀.Sound)
    (hpass : c₀.Passes word c) (hword : word.IsWord .if) (hl : c.tokens.length < bound)
    (hfuel : c.tokens.length < fuel) :
    Ensures (ifStatement statement fuel) c (TakesStatement c₀) (Halted c₀) := by
  rw [ifStatement]
  have hlt := hpass.length_lt
  refine (Stretch.ofPasses hpass).mark hc₀ fun opening c₁ hopening hlt₁ h => ?_
  refine h.tree hc₀ (parses_expression fuel) (by omega) fun condition c₂ hcondition hlt₂ h => ?_
  refine h.mark hc₀ fun closing c₃ hclosing hlt₃ h => ?_
  refine h.bind (hs c₃ (h.sound hc₀) (by omega)) fun thenBranch c₄ hthen => ?_
  have hshorter := hthen.shorter
  obtain ⟨hreg, hdeclares⟩ := hthen.regular
  have h := h.trans hthen.stretch
  refine h.bind (ensures_accept? (h.sound hc₀) (by simp)) fun o c₅ ho => ?_
  cases o with
  | none =>
    obtain ⟨rfl, helse⟩ := ho
    refine ⟨⟨⟨h.imp ?_ ?_, .ifElse hcondition hreg hdeclares nofun nofun, rfl⟩, by omega⟩, ?_⟩
    · show List.Perm ([] ++ condition.ids ++ thenBranch.ids) (Stmt.ids _)
      rw [List.nil_append, Stmt.ids, Stmt.idsOption, List.append_nil]
    · rintro _ ⟨_, us, rfl, ⟨_, _, rfl, ⟨_, ts, rfl, ⟨_, _, rfl, rfl, rfl⟩, hts⟩, rfl⟩, hus⟩
      show Grammar.Statement _ _
      have := Grammar.Statement.ifThen hword hopening hts hclosing hus
      simpa only [List.append_assoc, List.cons_append, List.nil_append] using this
    · exact fun _ => helse
  | some other =>
    obtain ⟨hpass', hother, -⟩ := ho
    have hlt₅ := hpass'.length_lt
    have hclosed : thenBranch.endsOpen = false := by
      cases hopen : thenBranch.endsOpen with
      | false => rfl
      | true =>
        -- the word was in view behind the first branch
        have hview : c₄.current = other := by
          have := hpass'.tokens
          rw [Cursor.tokens, List.cons.injEq] at this
          exact this.1
        exact absurd (hview ▸ hother) (hthen.closed hopen)
    have h := h.trans (.ofPasses hpass')
    refine h.bind (hs c₅ (h.sound hc₀) (by omega)) fun elseBranch d helse => ?_
    have hshorter' := helse.shorter
    obtain ⟨hreg', hdeclares'⟩ := helse.regular
    refine ⟨⟨⟨(h.trans helse.stretch).imp ?_ ?_, ?_, rfl⟩, by omega⟩, helse.closed⟩
    · show List.Perm ([] ++ condition.ids ++ thenBranch.ids ++ [] ++ elseBranch.ids) (Stmt.ids _)
      rw [List.nil_append, List.append_nil, Stmt.ids, Stmt.idsOption]
    · rintro _ ⟨_, vs, rfl, ⟨_, _, rfl, ⟨_, us, rfl, ⟨_, _, rfl, ⟨_, ts, rfl, ⟨_, _, rfl, rfl, rfl⟩,
        hts⟩, rfl⟩, hus⟩, rfl⟩, hvs⟩
      show Grammar.Statement _ _
      have := Grammar.Statement.ifElse hword hopening hts hclosing hus hclosed
        (Token.terminal_eq_keyword.mp hother) hvs
      simpa only [List.append_assoc, List.cons_append, List.nil_append] using this
    · refine .ifElse hcondition hreg hdeclares ?_ ?_
      · rintro _ ⟨⟩
        exact hreg'
      · rintro _ ⟨⟩
        exact hdeclares'

theorem ensures_whileStatement (hs : ParsesStatement statement bound) (hc₀ : c₀.Sound)
    (hpass : c₀.Passes word c) (hword : word.IsWord .while) (hl : c.tokens.length < bound)
    (hfuel : c.tokens.length < fuel) :
    Ensures (whileStatement statement fuel) c (TakesStatement c₀) (Halted c₀) := by
  rw [whileStatement]
  have hlt := hpass.length_lt
  refine (Stretch.ofPasses hpass).mark hc₀ fun opening c₁ hopening hlt₁ h => ?_
  refine h.tree hc₀ (parses_expression fuel) (by omega) fun condition c₂ hcondition hlt₂ h => ?_
  refine h.mark hc₀ fun closing c₃ hclosing hlt₃ h => ?_
  refine h.bind (hs c₃ (h.sound hc₀) (by omega)) fun body d hbody => ?_
  have hshorter := hbody.shorter
  obtain ⟨hreg, hdeclares⟩ := hbody.regular
  refine ⟨⟨⟨(h.trans hbody.stretch).imp ?_ ?_, .whileLoop hcondition hreg hdeclares, rfl⟩, by omega⟩,
    hbody.closed⟩
  · show List.Perm ([] ++ condition.ids ++ body.ids) (Stmt.ids _)
    rw [List.nil_append, Stmt.ids]
  · rintro _ ⟨_, us, rfl, ⟨_, _, rfl, ⟨_, ts, rfl, ⟨_, _, rfl, rfl, rfl⟩, hts⟩, rfl⟩, hus⟩
    show Grammar.Statement _ _
    have := Grammar.Statement.whileLoop hword hopening hts hclosing hus
    simpa only [List.append_assoc, List.cons_append, List.nil_append] using this

theorem ensures_returnStatement (hc₀ : c₀.Sound) (hpass : c₀.Passes word c)
    (hword : word.IsWord .return) (hfuel : c.tokens.length < fuel) :
    Ensures (returnStatement word fuel) c (TakesStatement c₀) (Halted c₀) := by
  rw [returnStatement]
  have hlt := hpass.length_lt
  have h := Stretch.ofPasses hpass
  refine h.reads (ensures_optionalExpression (h.sound hc₀) hfuel) fun value c₁ hvalue hle h => ?_
  refine h.mark hc₀ fun semicolon c₂ hsemicolon hlt₂ h => ?_
  refine ⟨⟨⟨h.imp ?_ ?_, .return hvalue, rfl⟩, by omega⟩, nofun⟩
  · show List.Perm (Expr.idsOption value) (Stmt.ids _)
    rw [Stmt.ids]
  · rintro _ ⟨_, _, rfl, ⟨_, ts, rfl, rfl, hts⟩, rfl⟩
    exact .return hword hts hsemicolon

theorem ensures_printStatement (hc₀ : c₀.Sound) (hpass : c₀.Passes word c)
    (hword : word.IsWord .print) (hfuel : c.tokens.length < fuel) :
    Ensures (printStatement fuel) c (TakesStatement c₀) (Halted c₀) := by
  rw [printStatement]
  have hlt := hpass.length_lt
  refine (Stretch.ofPasses hpass).tree hc₀ (parses_expression fuel) hfuel fun e c₁ he hlt₁ h => ?_
  refine h.mark hc₀ fun semicolon c₂ hsemicolon hlt₂ h => ?_
  refine ⟨⟨⟨h.imp ?_ ?_, .print he, rfl⟩, by omega⟩, nofun⟩
  · show List.Perm e.ids (Stmt.ids _)
    rw [Stmt.ids]
  · rintro _ ⟨_, _, rfl, ⟨_, ts, rfl, rfl, hts⟩, rfl⟩
    exact .print hword hts hsemicolon

end

/-! ## Dispatch -/

section

variable {declaration : Parser (Option Stmt)} {statement : Parser Stmt} {fuel : Nat}

theorem parses_statementRule (hd : Declares declaration (fuel - 1))
    (hs : ParsesStatement statement (fuel - 1)) :
    ParsesStatement (statementRule declaration statement fuel) fuel := by
  intro c hc hl
  rw [statementRule, ensures_bind, ensures_peek]
  have next {k : Keyword} (hk : c.current.terminal = .keyword k) {rest : Token → Parser Stmt}
      (hrest : ∀ d, c.Passes c.current d → c.current.IsWord k → d.tokens.length < fuel - 1 →
        d.tokens.length < fuel → Ensures (rest c.current) d (TakesStatement c) (Halted c)) :
      Ensures (advance >>= rest) c (TakesStatement c) (Halted c) := by
    have hpass := Cursor.passes_advance hc (by simp [hk])
    have hlt := hpass.length_lt
    exact hrest _ hpass (Token.terminal_eq_keyword.mp hk) (by omega) (by omega)
  split <;> rename_i hk
  · exact next hk fun d hpass hword hl hl' => ensures_forStatement hs hc hpass hword hl hl'
  · exact next hk fun d hpass hword hl hl' => ensures_ifStatement hs hc hpass hword hl hl'
  · exact next hk fun d hpass hword hl hl' => ensures_whileStatement hs hc hpass hword hl hl'
  · exact next hk fun d hpass hword hl hl' => ensures_returnStatement hc hpass hword hl'
  · refine next hk fun d hpass hword _ _ => ?_
    have hlt := hpass.length_lt
    refine (Stretch.ofPasses hpass).mark hc fun semicolon e hsemicolon hlt' h => ?_
    refine ⟨⟨⟨h.imp (.refl _) ?_, .break, rfl⟩, by omega⟩, nofun⟩
    rintro _ ⟨_, _, rfl, rfl, rfl⟩
    exact .break hword hsemicolon
  · refine next hk fun d hpass hword _ _ => ?_
    have hlt := hpass.length_lt
    refine (Stretch.ofPasses hpass).mark hc fun semicolon e hsemicolon hlt' h => ?_
    refine ⟨⟨⟨h.imp (.refl _) ?_, .continue, rfl⟩, by omega⟩, nofun⟩
    rintro _ ⟨_, _, rfl, rfl, rfl⟩
    exact .continue hword hsemicolon
  · refine (Stretch.refl c).pass hc (by simp [hk]) fun d _ hlt h => ?_
    refine h.bind (ensures_block hd (h.sound hc) (by omega) (by omega)) ?_
    rintro ⟨body, closing⟩ e ⟨d', hbody, hclosing, hmark⟩
    have h := (h.trans hbody.stretch).trans (.ofPasses hclosing)
    have hle := (hbody.stretch.leads.trans hclosing.leads).length_le
    refine ⟨⟨⟨h.imp ?_ ?_, .block hbody.regular, rfl⟩, by omega⟩, nofun⟩
    · show List.Perm ([] ++ Stmt.idsAll body ++ []) (Stmt.ids _)
      rw [List.append_nil, List.nil_append, Stmt.ids]
    · rintro _ ⟨_, _, rfl, ⟨_, ts, rfl, ⟨_, _, rfl, rfl, rfl⟩, hts⟩, rfl⟩
      exact .block (Token.terminal_eq_punct.mp hk) hts hmark
  · exact next hk fun d hpass hword hl hl' => ensures_printStatement hc hpass hword hl'
  · refine (ensures_expressionStatement hc hl).mono ?_ (fun _ _ h => h)
    rintro s d - ⟨hstretch, hreg, -, hdeclares, hopen, hshorter⟩
    refine ⟨⟨⟨hstretch.imp (.refl _) fun ts hts => .expression hts, hreg, hdeclares⟩, hshorter⟩, ?_⟩
    intro h
    rw [hopen] at h
    cases h

theorem parses_declarationRule (hd : Declares declaration (fuel - 1))
    (hs : ParsesStatement statement (fuel - 1)) :
    Parses .declaration (declarationRule declaration statement fuel) fuel := by
  intro c hc hl
  rw [declarationRule, ensures_bind, ensures_peek]
  split <;> rename_i hk
  · have hpass := Cursor.passes_advance hc (by simp [hk])
    have hlt := hpass.length_lt
    have hword := Token.terminal_eq_keyword.mp hk
    exact ensures_classDeclaration hd hc hpass hword (by omega) (by omega)
  · refine (Stretch.refl c).pass hc (by simp [hk]) fun d _ hlt h => ?_
    have hf := parses_function fuel hd .function c.current (by omega)
    refine h.tree hc hf (by omega) fun f e hreg hlt' h => ?_
    refine ⟨⟨h.imp ?_ ?_, .function hreg⟩, by omega⟩
    · show List.Perm f.ids (Stmt.ids _)
      rw [Stmt.ids]
    · rintro _ ⟨_, ts, rfl, ⟨_, _, rfl, rfl, rfl⟩, hts⟩
      exact .function (Token.terminal_eq_keyword.mp hk) hts
  · have hpass := Cursor.passes_advance hc (by simp [hk])
    have hlt := hpass.length_lt
    have hword := Token.terminal_eq_keyword.mp hk
    refine (ensures_varDeclaration hc hpass hword (by omega)).mono ?_ (fun _ _ h => h)
    rintro s d - ⟨hstretch, hreg, -, hshorter⟩
    exact ⟨⟨hstretch.imp (.refl _) fun ts hts => .variable hts, hreg⟩, hshorter⟩
  · refine (parses_statementRule hd hs c hc hl).mono (fun s d _ h => ?_) (fun _ _ h => h)
    exact ⟨⟨h.stretch.imp (.refl _) fun ts hts => .statement hts, h.regular.1⟩, h.shorter⟩

end

theorem declares_declaration (fuel : Nat) :
    Declares (declaration fuel) (fuel - 1) ∧ ParsesStatement (statement fuel) (fuel - 1) := by
  induction fuel with
  | zero => exact ⟨fun c _ _ hl => absurd hl (Nat.not_lt_zero _),
      fun c _ hl => absurd hl (Nat.not_lt_zero _)⟩
  | succ fuel ih =>
    rw [declaration, statement]
    exact ⟨declares_recovering (parses_declarationRule ih.1 ih.2), parses_statementRule ih.1 ih.2⟩

/-- **What a whole text reads.** -/
theorem reads_declarations {fuel : Nat} {c : Cursor} (hc : c.Sound)
    (hfuel : c.tokens.length + 1 < fuel) :
    Ensures (declarations fuel) c
      (fun ss d => Reads .declarations c ss d ∧ d.current.terminal = .endOfInput) (Halted c) := by
  rw [declarations]
  have hd := (declares_declaration fuel).1
  refine (ensures_declarationsFrom hd _ #[] hc (by omega) (by omega)).mono ?_ (fun _ _ h => h)
  rintro ss d - ⟨_, rfl, hss, hend⟩
  exact ⟨by simpa using hss, hend.elim id id⟩

end Lox
