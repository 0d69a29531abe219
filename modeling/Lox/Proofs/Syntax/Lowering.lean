import Lox.Binding.Resolve
import Lox.Proofs.Syntax.Regular

/-!
# The while form of `for` statements

A `for` statement can be written with `while`: a block around the first clause and a loop whose body
is a block of the old body and the increment. A `continue` of the old body would leave out the
increment, so the body must have none of its own.

* `Stmt.continues`: a statement has a `continue` that belongs to the loop around it;
* `Stmt.whileForm`: what a `for` statement is replaced by;
* `Stmt.LowersAll`: a program in which some `for` statements, anywhere, are replaced;
* `Stmt.lowerAll`: all of them are, `Stmt.LowersAll.refl`: none of them is;
* `Stmt.Lowers.regular`, `Stmt.Lowers.ids`: such a program is regular and has the same occurrences.
-/

namespace Lox

mutual

/-- A `continue` in the statement belongs to the loop around the statement. -/
def Stmt.continues : Stmt → Bool
  | .block body => Stmt.continuesAny body
  | .ifElse _ thenBranch elseBranch => thenBranch.continues || Stmt.continuesOption elseBranch
  | .continue _ => true
  | _ => false

/-- A `continue` in one of the statements belongs to the loop around them. -/
def Stmt.continuesAny : List Stmt → Bool
  | [] => false
  | s :: rest => s.continues || Stmt.continuesAny rest

/-- A `continue` in a statement that may be missing belongs to the loop around it. -/
def Stmt.continuesOption : Option Stmt → Bool
  | none => false
  | some s => s.continues

end

/-- The body of the loop in the while form of a `for` statement. -/
def Stmt.whileBody (increment : Option Expr) (body : Stmt) : Stmt :=
  .block (body :: increment.toList.map .expression)

/-- The loop in the while form of a `for` statement. -/
def Stmt.whileRounds (condition increment : Option Expr) (body : Stmt) : Stmt :=
  .whileLoop (condition.getD (.literal (.boolean true))) (.whileBody increment body)

/-- The while form of a `for` statement. -/
def Stmt.whileForm (initializer : Option Stmt) (condition increment : Option Expr) (body : Stmt) :
    Stmt :=
  .block (initializer.toList ++ [.whileRounds condition increment body])

mutual

/-- The second statement is the first one with some `for` statements in their while form. -/
inductive Stmt.Lowers : Stmt → Stmt → Prop where
  | expression (e) : Stmt.Lowers (.expression e) (.expression e)
  | print (e) : Stmt.Lowers (.print e) (.print e)
  | var (name initializer) : Stmt.Lowers (.var name initializer) (.var name initializer)
  | block {body body'} : Stmt.LowersAll body body' → Stmt.Lowers (.block body) (.block body')
  | ifThen (condition) {thenBranch thenBranch'} : Stmt.Lowers thenBranch thenBranch' →
      Stmt.Lowers (.ifElse condition thenBranch none) (.ifElse condition thenBranch' none)
  | ifElse (condition) {thenBranch thenBranch' elseBranch elseBranch'} :
      Stmt.Lowers thenBranch thenBranch' → Stmt.Lowers elseBranch elseBranch' →
      Stmt.Lowers (.ifElse condition thenBranch (some elseBranch))
        (.ifElse condition thenBranch' (some elseBranch'))
  | whileLoop (condition) {body body'} : Stmt.Lowers body body' →
      Stmt.Lowers (.whileLoop condition body) (.whileLoop condition body')
  | forLoop (initializer condition increment) {body body'} : Stmt.Lowers body body' →
      Stmt.Lowers (.forLoop initializer condition increment body)
        (.forLoop initializer condition increment body')
  | whileForm (initializer condition increment) {body body'} : Stmt.Lowers body body' →
      body.continues = false →
      Stmt.Lowers (.forLoop initializer condition increment body)
        (.whileForm initializer condition increment body')
  | function {declaration declaration'} : Function.Lowers declaration declaration' →
      Stmt.Lowers (.function declaration) (.function declaration')
  | class (name superclass span) {methods methods'} : Function.LowersAll methods methods' →
      Stmt.Lowers (.class ⟨name, superclass, methods, span⟩)
        (.class ⟨name, superclass, methods', span⟩)
  | return (keyword value) : Stmt.Lowers (.return keyword value) (.return keyword value)
  | break (keyword) : Stmt.Lowers (.break keyword) (.break keyword)
  | continue (keyword) : Stmt.Lowers (.continue keyword) (.continue keyword)

/-- The second program is the first one with some `for` statements in their while form. -/
inductive Stmt.LowersAll : List Stmt → List Stmt → Prop where
  | nil : Stmt.LowersAll [] []
  | cons {s s' rest rest'} : Stmt.Lowers s s' → Stmt.LowersAll rest rest' →
      Stmt.LowersAll (s :: rest) (s' :: rest')

/-- The second function is the first one with some `for` statements in their while form. -/
inductive Function.Lowers : Function → Function → Prop where
  | mk (name params span) {body body'} : Stmt.LowersAll body body' →
      Function.Lowers ⟨name, params, body, span⟩ ⟨name, params, body', span⟩

/-- The second functions are the first ones with some `for` statements in their while form. -/
inductive Function.LowersAll : List Function → List Function → Prop where
  | nil : Function.LowersAll [] []
  | cons {f f' rest rest'} : Function.Lowers f f' → Function.LowersAll rest rest' →
      Function.LowersAll (f :: rest) (f' :: rest')

end

/-! ## Nothing needs to be replaced -/

mutual

theorem Stmt.Lowers.refl : (s : Stmt) → s.Lowers s
  | .expression e => .expression e
  | .print e => .print e
  | .var name initializer => .var name initializer
  | .block body => .block (Stmt.LowersAll.refl body)
  | .ifElse condition thenBranch none => .ifThen condition (Stmt.Lowers.refl thenBranch)
  | .ifElse condition thenBranch (some elseBranch) =>
    .ifElse condition (Stmt.Lowers.refl thenBranch) (Stmt.Lowers.refl elseBranch)
  | .whileLoop condition body => .whileLoop condition (Stmt.Lowers.refl body)
  | .forLoop initializer condition increment body =>
    .forLoop initializer condition increment (Stmt.Lowers.refl body)
  | .function ⟨name, params, body, span⟩ =>
    .function (.mk name params span (Stmt.LowersAll.refl body))
  | .class ⟨name, superclass, methods, span⟩ =>
    .class name superclass span (Function.LowersAll.refl methods)
  | .return keyword value => .return keyword value
  | .break keyword => .break keyword
  | .continue keyword => .continue keyword

theorem Stmt.LowersAll.refl : (ss : List Stmt) → Stmt.LowersAll ss ss
  | [] => .nil
  | s :: rest => .cons (Stmt.Lowers.refl s) (Stmt.LowersAll.refl rest)

theorem Function.LowersAll.refl : (fs : List Function) → Function.LowersAll fs fs
  | [] => .nil
  | ⟨name, params, body, span⟩ :: rest =>
    .cons (.mk name params span (Stmt.LowersAll.refl body)) (Function.LowersAll.refl rest)

end

/-! ## Everything that can be is replaced -/

mutual

/-- The statement with every `for` statement in its while form that has one. -/
def Stmt.lower : Stmt → Stmt
  | .block body => .block (Stmt.lowerAll body)
  | .ifElse condition thenBranch elseBranch =>
    .ifElse condition thenBranch.lower (Stmt.lowerOption elseBranch)
  | .whileLoop condition body => .whileLoop condition body.lower
  | .forLoop initializer condition increment body =>
    if body.continues then .forLoop initializer condition increment body.lower
    else .whileForm initializer condition increment body.lower
  | .function ⟨name, params, body, span⟩ => .function ⟨name, params, Stmt.lowerAll body, span⟩
  | .class ⟨name, superclass, methods, span⟩ =>
    .class ⟨name, superclass, Function.lowerAll methods, span⟩
  | s => s

/-- The program with every `for` statement in its while form that has one. -/
def Stmt.lowerAll : List Stmt → List Stmt
  | [] => []
  | s :: rest => s.lower :: Stmt.lowerAll rest

/-- A statement that may be missing, with every `for` statement in its while form that has one. -/
def Stmt.lowerOption : Option Stmt → Option Stmt
  | none => none
  | some s => some s.lower

/-- The functions with every `for` statement in its while form that has one. -/
def Function.lowerAll : List Function → List Function
  | [] => []
  | ⟨name, params, body, span⟩ :: rest =>
    ⟨name, params, Stmt.lowerAll body, span⟩ :: Function.lowerAll rest

end

mutual

theorem Stmt.lowers_lower : (s : Stmt) → s.Lowers s.lower
  | .expression e => .expression e
  | .print e => .print e
  | .var name initializer => .var name initializer
  | .block body => .block (Stmt.lowersAll_lowerAll body)
  | .ifElse condition thenBranch none => .ifThen condition thenBranch.lowers_lower
  | .ifElse condition thenBranch (some elseBranch) =>
    .ifElse condition thenBranch.lowers_lower elseBranch.lowers_lower
  | .whileLoop condition body => .whileLoop condition body.lowers_lower
  | .forLoop initializer condition increment body => by
    rw [Stmt.lower]
    cases h : body.continues with
    | true => exact .forLoop initializer condition increment body.lowers_lower
    | false => exact .whileForm initializer condition increment body.lowers_lower h
  | .function ⟨name, params, body, span⟩ =>
    .function (.mk name params span (Stmt.lowersAll_lowerAll body))
  | .class ⟨name, superclass, methods, span⟩ =>
    .class name superclass span (Function.lowersAll_lowerAll methods)
  | .return keyword value => .return keyword value
  | .break keyword => .break keyword
  | .continue keyword => .continue keyword

theorem Stmt.lowersAll_lowerAll : (ss : List Stmt) → Stmt.LowersAll ss (Stmt.lowerAll ss)
  | [] => .nil
  | s :: rest => .cons s.lowers_lower (Stmt.lowersAll_lowerAll rest)

theorem Function.lowersAll_lowerAll :
    (fs : List Function) → Function.LowersAll fs (Function.lowerAll fs)
  | [] => .nil
  | ⟨name, params, body, span⟩ :: rest =>
    .cons (.mk name params span (Stmt.lowersAll_lowerAll body)) (Function.lowersAll_lowerAll rest)

end

/-! ## Declarations, numbers and regular trees -/

theorem Stmt.Lowers.declares {s t : Stmt} (h : s.Lowers t) : t.declares = s.declares := by
  cases h <;> rfl

theorem Function.Lowers.name {f f' : Function} (h : f.Lowers f') : f'.name = f.name := by
  cases h
  rfl

theorem Function.Lowers.methodKind {f f' : Function} (h : f.Lowers f') :
    f'.methodKind = f.methodKind := by
  rw [Function.methodKind, Function.isInitializer, h.name]
  rfl

theorem Stmt.idsAll_append (ss ts : List Stmt) :
    Stmt.idsAll (ss ++ ts) = Stmt.idsAll ss ++ Stmt.idsAll ts := by
  induction ss with
  | nil => rfl
  | cons s ss ih => rw [List.cons_append, Stmt.idsAll, ih, Stmt.idsAll, List.append_assoc]

theorem Stmt.idsAll_toList (s : Option Stmt) : Stmt.idsAll s.toList = Stmt.idsOption s := by
  cases s with
  | none => rfl
  | some s => exact List.append_nil _

theorem Stmt.ids_whileForm (initializer : Option Stmt) (condition increment : Option Expr)
    (body : Stmt) : (Stmt.whileForm initializer condition increment body).ids =
      Stmt.idsOption initializer ++ Expr.idsOption condition ++
        (body.ids ++ Expr.idsOption increment) := by
  cases condition <;> cases increment <;>
    simp [Stmt.whileForm, Stmt.whileRounds, Stmt.whileBody, Stmt.ids, Stmt.idsAll, Expr.ids,
      Expr.idsOption, Stmt.idsAll_append, Stmt.idsAll_toList]

mutual

/-- The occurrences stay, though not in their order: the increment comes behind the body. -/
theorem Stmt.Lowers.ids {s t : Stmt} : s.Lowers t → t.ids.Perm s.ids
  | .expression _ | .print _ | .var _ _ | .return _ _ | .break _ | .continue _ => .refl _
  | .block h => h.ids
  | .ifThen _ h => (h.ids.append_left _).append_right _
  | .ifElse _ h₁ h₂ => (h₁.ids.append_left _).append h₂.ids
  | .whileLoop _ h => h.ids.append_left _
  | .forLoop _ _ _ h => h.ids.append_left _
  | .whileForm initializer condition increment h _ => by
    rw [Stmt.ids_whileForm, Stmt.ids, List.append_assoc _ (Expr.idsOption increment)]
    exact ((h.ids.append_right _).trans List.perm_append_comm).append_left _
  | .function h => h.ids
  | .class _ _ _ h => h.ids.append_left _

theorem Stmt.LowersAll.ids {ss ts : List Stmt} :
    Stmt.LowersAll ss ts → (Stmt.idsAll ts).Perm (Stmt.idsAll ss)
  | .nil => .refl _
  | .cons h hs => h.ids.append hs.ids

theorem Function.Lowers.ids {f f' : Function} : f.Lowers f' → f'.ids.Perm f.ids
  | .mk _ _ _ h => h.ids

theorem Function.LowersAll.ids {fs fs' : List Function} :
    Function.LowersAll fs fs' → (Function.idsAll fs').Perm (Function.idsAll fs)
  | .nil => .refl _
  | .cons h hs => h.ids.append hs.ids

end

theorem Stmt.regular_whileForm {initializer : Option Stmt} {condition increment : Option Expr}
    {body : Stmt} (hi : ∀ s ∈ initializer, Stmt.Regular s)
    (hc : ∀ e ∈ condition, Expr.Regular e) (hs : ∀ e ∈ increment, Expr.Regular e)
    (hb : body.Regular) : (Stmt.whileForm initializer condition increment body).Regular := by
  have hcondition : (condition.getD (.literal (.boolean true))).Regular := by
    cases condition with
    | none => exact .literal
    | some e => exact hc e rfl
  have hbody : (Stmt.whileBody increment body).Regular := by
    refine .block fun s h => ?_
    rcases List.mem_cons.mp h with rfl | h
    · exact hb
    · obtain ⟨e, he, rfl⟩ := List.mem_map.mp h
      exact .expression (hs e (Option.mem_toList.mp he))
  refine .block fun s h => ?_
  rcases List.mem_append.mp h with h | h
  · exact hi s (Option.mem_toList.mp h)
  · rw [List.mem_singleton.mp h]
    exact .whileLoop hcondition hbody rfl

mutual

theorem Stmt.Lowers.regular {s t : Stmt} : s.Lowers t → s.Regular → t.Regular
  | .expression _, hr | .print _, hr | .var _ _, hr | .return _ _, hr | .break _, hr
  | .continue _, hr => hr
  | .block h, .block hr => .block (h.regular hr)
  | .ifThen _ h, .ifElse hc ht htd he hed =>
    .ifElse hc (h.regular ht) (h.declares.trans htd) he hed
  | .ifElse _ h₁ h₂, .ifElse hc ht htd he hed =>
    .ifElse hc (h₁.regular ht) (h₁.declares.trans htd)
      (fun _ hs => Option.mem_some.mp hs ▸ h₂.regular (he _ rfl))
      fun _ hs => Option.mem_some.mp hs ▸ h₂.declares.trans (hed _ rfl)
  | .whileLoop _ h, .whileLoop hc hb hd => .whileLoop hc (h.regular hb) (h.declares.trans hd)
  | .forLoop _ _ _ h, .forLoop hi hcl hc hs hb hd =>
    .forLoop hi hcl hc hs (h.regular hb) (h.declares.trans hd)
  | .whileForm _ _ _ h _, .forLoop hi _ hc hs hb _ => Stmt.regular_whileForm hi hc hs (h.regular hb)
  | .function h, .function hr => .function (h.regular hr)
  | .class _ _ _ h, .class (.mk hn hu hm) => .class (.mk hn hu (h.regular hm))

theorem Stmt.LowersAll.regular {ss ts : List Stmt} : Stmt.LowersAll ss ts →
    (∀ s ∈ ss, s.Regular) → ∀ t ∈ ts, t.Regular
  | .nil, hr => hr
  | .cons h hs, hr => List.forall_mem_cons.mpr
    ⟨h.regular (hr _ List.mem_cons_self), hs.regular fun s hm => hr s (List.mem_cons_of_mem _ hm)⟩

theorem Function.Lowers.regular {f f' : Function} : f.Lowers f' → f.Regular → f'.Regular
  | .mk _ _ _ h, .mk hn hp hb => .mk hn hp (h.regular hb)

theorem Function.LowersAll.regular {fs fs' : List Function} : Function.LowersAll fs fs' →
    (∀ f ∈ fs, f.Regular) → ∀ f ∈ fs', f.Regular
  | .nil, hr => hr
  | .cons h hs, hr => List.forall_mem_cons.mpr
    ⟨h.regular (hr _ List.mem_cons_self), hs.regular fun f hm => hr f (List.mem_cons_of_mem _ hm)⟩

end

end Lox
