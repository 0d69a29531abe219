import Lox.Proofs.Binding.Lexical
import Lox.Proofs.Binding.Nested

/-!
# The static rules

What the text of a program says about the places where a static rule is broken.

* `Violation`: a broken rule and the token at which it is broken;
* `Site.InInitializer`: the nearest function around a place is a method named like an initializer;
* **`Site.Breaks`**: the mark at a place breaks a rule;
* `Site.Declares`: the mark at a place declares a name;
* `Region.functionKind`, `Region.classKind`: what the scopes around a place say about the function
  and the class that it stands in.
-/

namespace Lox

/-- A static rule that is broken, and the token at which it is. -/
structure Violation where
  problem : StaticProblem
  token : Token

/-- How a violation is noted. -/
def Violation.complaint (v : Violation) : Complaint := ⟨.static v.problem, v.token.position⟩

namespace Site

/-- The nearest function around a place is a method named like an initializer. -/
def InInitializer (p : Site) : Prop :=
  ∃ inner f c outer, p.regions = inner ++ .function f :: .this c :: outer ∧
    (∀ g, Region.function g ∉ inner) ∧ f.isInitializer = true

/-- The mark at a place declares the name `t` in the innermost scope. -/
inductive Declares (program : List Stmt) (p : Site) : Mark → Token → Prop
  | intro {r : Region} {t : Token} : p.regions.head? = some r → t ∈ r.declarations program →
      Declares program p (.name t) t

/-- The mark at a place breaks a static rule. -/
inductive Breaks (program : List Stmt) (p : Site) : Mark → Violation → Prop
  /-- The innermost scope already holds an earlier declaration of the name. -/
  | redeclared {r : Region} {t u : Token} : p.regions.head? = some r →
      t ∈ r.declarations program → u ∈ r.declarations program → u.lexeme = t.lexeme →
      u.id < t.id → Breaks program p (.name t) ⟨.alreadyDeclared, t⟩
  /-- A variable is read in the initializer of the variable of that name. -/
  | ownInitializer {use : Occurrence} : use.name.IsName → p.opening = some use.name.lexeme →
      Breaks program p (.read use) ⟨.readInInitializer, use.name⟩
  | inheritsFromItself {c : Class} {use : Occurrence} : c.superclass = some use →
      use.name.lexeme = c.name.lexeme →
      Breaks program p (.statement (.class c)) ⟨.inheritsFromItself, use.name⟩
  | returnOutside {keyword : Token} {value : Option Expr} : (∀ f, Region.function f ∉ p.regions) →
      Breaks program p (.statement (.return keyword value)) ⟨.returnOutsideFunction, keyword⟩
  | returnFromInitializer {keyword : Token} {value : Expr} : p.InInitializer →
      Breaks program p (.statement (.return keyword (some value))) ⟨.returnFromInitializer, keyword⟩
  | thisOutside {use : Occurrence} : use.name.IsWord .this → p.class? = none →
      Breaks program p (.read use) ⟨.thisOutsideClass, use.name⟩
  | superOutside {keyword : Occurrence} : p.class? = none →
      Breaks program p (.super keyword) ⟨.superOutsideClass, keyword.name⟩
  | superWithout {keyword : Occurrence} {c : Class} : p.class? = some c → c.superclass = none →
      Breaks program p (.super keyword) ⟨.superWithoutSuperclass, keyword.name⟩
  | breakOutside {keyword : Token} : p.loopDepth = 0 →
      Breaks program p (.statement (.break keyword)) ⟨.breakOutsideLoop, keyword⟩
  | continueOutside {keyword : Token} : p.loopDepth = 0 →
      Breaks program p (.statement (.continue keyword)) ⟨.continueOutsideLoop, keyword⟩

end Site

/-! ## Which rules a mark may break -/

namespace Site

variable {program : List Stmt} {p : Site} {m : Mark} {r : Region} {t : Token} {v : Violation}

theorem Declares.mem (h : p.Declares program m t) (hr : p.regions.head? = some r) :
    t ∈ r.declarations program := by
  obtain ⟨hr', ht⟩ := h
  rw [hr] at hr'
  cases hr'
  exact ht

theorem Declares.eq_name (h : p.Declares program m t) : m = .name t := by
  cases h
  rfl

theorem Breaks.mem (h : p.Breaks program (.name t) v) (hr : p.regions.head? = some r) :
    t ∈ r.declarations program := by
  cases h with
  | redeclared hr' ht _ _ _ =>
    rw [hr] at hr'
    cases hr'
    exact ht

variable {use : Occurrence}

theorem breaks_read_name (h : use.name.IsName) : p.Breaks program (.read use) v ↔
    p.opening = some use.name.lexeme ∧ v = ⟨.readInInitializer, use.name⟩ := by
  constructor
  · intro hv
    cases hv with
    | ownInitializer _ ho => exact ⟨ho, rfl⟩
    | thisOutside hword _ =>
      rw [Token.IsWord, h] at hword
      cases hword
  · rintro ⟨ho, rfl⟩
    exact .ownInitializer h ho

theorem breaks_read_word {k : Keyword} (h : use.name.IsWord k) : p.Breaks program (.read use) v ↔
    (k = .this ∧ p.class? = none) ∧ v = ⟨.thisOutsideClass, use.name⟩ := by
  constructor
  · intro hv
    cases hv with
    | ownInitializer hname _ =>
      rw [Token.IsName, h] at hname
      cases hname
    | thisOutside hword hclass =>
      rw [Token.IsWord, h] at hword
      cases hword
      exact ⟨⟨rfl, hclass⟩, rfl⟩
  · rintro ⟨⟨rfl, hclass⟩, rfl⟩
    exact .thisOutside h hclass

theorem breaks_super : p.Breaks program (.super use) v ↔
    p.class? = none ∧ v = ⟨.superOutsideClass, use.name⟩ ∨
      (∃ c, p.class? = some c ∧ c.superclass = none) ∧ v = ⟨.superWithoutSuperclass, use.name⟩ := by
  constructor
  · intro hv
    cases hv with
    | superOutside hclass => exact .inl ⟨hclass, rfl⟩
    | superWithout hclass hsuper => exact .inr ⟨⟨_, hclass, hsuper⟩, rfl⟩
  · rintro (⟨hclass, rfl⟩ | ⟨⟨c, hclass, hsuper⟩, rfl⟩)
    · exact .superOutside hclass
    · exact .superWithout hclass hsuper

theorem breaks_return {keyword : Token} {value : Option Expr} :
    p.Breaks program (.statement (.return keyword value)) v ↔
      (∀ f, Region.function f ∉ p.regions) ∧ v = ⟨.returnOutsideFunction, keyword⟩ ∨
        (value.isSome = true ∧ p.InInitializer) ∧ v = ⟨.returnFromInitializer, keyword⟩ := by
  constructor
  · intro hv
    cases hv with
    | returnOutside hnone => exact .inl ⟨hnone, rfl⟩
    | returnFromInitializer hinit => exact .inr ⟨⟨rfl, hinit⟩, rfl⟩
  · rintro (⟨hnone, rfl⟩ | ⟨⟨hvalue, hinit⟩, rfl⟩)
    · exact .returnOutside hnone
    · obtain ⟨value, rfl⟩ := Option.isSome_iff_exists.mp hvalue
      exact .returnFromInitializer hinit

theorem breaks_break {keyword : Token} : p.Breaks program (.statement (.break keyword)) v ↔
    p.loopDepth = 0 ∧ v = ⟨.breakOutsideLoop, keyword⟩ := by
  constructor
  · intro hv
    cases hv with
    | breakOutside hdepth => exact ⟨hdepth, rfl⟩
  · rintro ⟨hdepth, rfl⟩
    exact .breakOutside hdepth

theorem breaks_continue {keyword : Token} : p.Breaks program (.statement (.continue keyword)) v ↔
    p.loopDepth = 0 ∧ v = ⟨.continueOutsideLoop, keyword⟩ := by
  constructor
  · intro hv
    cases hv with
    | continueOutside hdepth => exact ⟨hdepth, rfl⟩
  · rintro ⟨hdepth, rfl⟩
    exact .continueOutside hdepth

theorem breaks_class {c : Class} : p.Breaks program (.statement (.class c)) v ↔
    ∃ use, c.superclass = some use ∧ use.name.lexeme = c.name.lexeme ∧
      v = ⟨.inheritsFromItself, use.name⟩ := by
  constructor
  · intro hv
    cases hv with
    | inheritsFromItself hs hn => exact ⟨_, hs, hn, rfl⟩
  · rintro ⟨use, hs, hn, rfl⟩
    exact .inheritsFromItself hs hn

end Site

/-! ## Functions and classes around a place -/

namespace Region

/-- The kind of the nearest function in a chain of scopes. A function right in the scope of `this`
is a method. -/
def functionKind : List Region → FunctionKind
  | [] => .none
  | .function f :: .this _ :: _ => f.methodKind
  | .function _ :: _ => .function
  | _ :: outer => functionKind outer

/-- The kind of the nearest class in a chain of scopes. -/
def classKind (regions : List Region) : ClassKind :=
  match regions.findSome? Region.class? with
  | none => .none
  | some c => if c.superclass.isSome then .subclass else .plain

theorem functionKind_eq_none {regions : List Region} :
    functionKind regions = .none ↔ ∀ f, Region.function f ∉ regions := by
  fun_induction functionKind regions with
  | case1 => simp
  | case2 f _ _ =>
    refine iff_of_false ?_ fun h => h f List.mem_cons_self
    rw [Function.methodKind]
    split <;> simp
  | case3 f _ _ => exact iff_of_false (by simp) fun h => h f List.mem_cons_self
  | case4 r outer _ hr ih =>
    rw [ih]
    refine forall_congr' fun f => not_congr ?_
    rw [List.mem_cons, or_iff_right]
    rintro rfl
    exact hr f rfl

theorem methodKind_eq_initializer {f : Function} :
    f.methodKind = .initializer ↔ f.isInitializer = true := by
  rw [Function.methodKind]
  split <;> simp_all

/-- The nearest function in a chain of scopes is a method named like an initializer. -/
theorem functionKind_eq_initializer {regions : List Region} :
    functionKind regions = .initializer ↔ ∃ inner f c outer,
      regions = inner ++ .function f :: .this c :: outer ∧ (∀ g, Region.function g ∉ inner) ∧
        f.isInitializer = true := by
  fun_induction functionKind regions with
  | case1 => simp
  | case2 f c outer =>
    rw [methodKind_eq_initializer]
    constructor
    · exact fun h => ⟨[], f, c, outer, rfl, by simp, h⟩
    · rintro ⟨inner, g, c', outer', heq, hinner, hg⟩
      cases inner with
      | nil =>
        obtain rfl : f = g := by simpa using (List.cons.inj heq).1
        exact hg
      | cons r inner =>
        obtain rfl : Region.function f = r := (List.cons.inj heq).1
        exact absurd List.mem_cons_self (hinner f)
  | case3 f outer hthis =>
    refine iff_of_false (by simp) ?_
    rintro ⟨inner, g, c, outer', heq, hinner, -⟩
    cases inner with
    | nil => exact hthis c outer' (List.cons.inj heq).2
    | cons r inner =>
      obtain rfl : Region.function f = r := (List.cons.inj heq).1
      exact hinner f List.mem_cons_self
  | case4 r outer _ hr ih =>
    rw [ih]
    constructor
    · rintro ⟨inner, f, c, outer', rfl, hinner, hf⟩
      refine ⟨r :: inner, f, c, outer', rfl, fun g hg => ?_, hf⟩
      rcases List.mem_cons.mp hg with rfl | hg
      · exact hr g rfl
      · exact hinner g hg
    · rintro ⟨inner, f, c, outer', heq, hinner, hf⟩
      cases inner with
      | nil => exact absurd (List.cons.inj heq).1 (hr f)
      | cons _ inner =>
        exact ⟨inner, f, c, outer', (List.cons.inj heq).2,
          fun g hg => hinner g (List.mem_cons_of_mem _ hg), hf⟩

theorem functionKind_function {f : Function} {regions : List Region}
    (h : ∀ c, regions.head? ≠ some (.this c)) :
    functionKind (.function f :: regions) = .function := by
  rw [functionKind]
  rintro c outer rfl
  exact h c rfl

theorem classKind_eq_none {regions : List Region} :
    classKind regions = .none ↔ regions.findSome? Region.class? = none := by
  unfold classKind
  cases regions.findSome? Region.class? with
  | none => simp
  | some c =>
    refine iff_of_false ?_ (by simp)
    dsimp only
    split <;> simp

theorem classKind_eq_plain {regions : List Region} :
    classKind regions = .plain ↔
      ∃ c, regions.findSome? Region.class? = some c ∧ c.superclass = none := by
  unfold classKind
  cases regions.findSome? Region.class? with
  | none => simp
  | some c => cases hc : c.superclass <;> simp [hc]

end Region

end Lox
