import Mathlib.Data.List.Forall2
import Lox.Proofs.Document.Analysis
import Lox.Proofs.Syntax.Entities
import Lox.Proofs.Token.Tiling

/-!
# The outline of a text

* `OutlineEntry.entries`, `OutlineEntry.entriesAll`: all entries of an outline, each in front of those
  inside it; `Stmt.entriesAll_outlineAll`: they are the declarations of the tree;
* `OutlineEntry.WellPlaced`: an entry has its name inside its range, and its children strictly inside
  its range and one behind the other;
* `Outlines`: how entries lie in the tokens that they were read from,
  `Grammar.Declarations.outlines`: the entries of a program lie so;
* **`outline_of_valid`**: the outline of a text without errors is well nested, and has exactly the
  definitions of the text and the methods of its classes.
-/

namespace Lox

/-! ## All entries -/

mutual

/-- The entry and all entries inside it. -/
def OutlineEntry.entries : OutlineEntry → List OutlineEntry
  | ⟨name, kind, range, selection, children⟩ =>
    ⟨name, kind, range, selection, children⟩ :: OutlineEntry.entriesAll children

/-- The entries and all entries inside them. -/
def OutlineEntry.entriesAll : List OutlineEntry → List OutlineEntry
  | [] => []
  | entry :: rest => entry.entries ++ OutlineEntry.entriesAll rest

end

namespace OutlineEntry

theorem entries_eq (e : OutlineEntry) : e.entries = e :: entriesAll e.children := by
  cases e
  rfl

theorem entriesAll_append (es fs : List OutlineEntry) :
    entriesAll (es ++ fs) = entriesAll es ++ entriesAll fs := by
  induction es with
  | nil => rfl
  | cons e es ih => rw [List.cons_append, entriesAll, entriesAll, ih, List.append_assoc]

theorem entriesAll_singleton (e : OutlineEntry) : entriesAll [e] = e :: entriesAll e.children := by
  rw [entriesAll, entriesAll, List.append_nil, entries_eq]

end OutlineEntry

open OutlineEntry (entriesAll)

/-- The entry of a declaration. -/
def Entity.entry : Entity → OutlineEntry
  | .variable name => ⟨name.lexeme, .variable, name.position, name.position, []⟩
  | .function f => f.outline .function
  | .method f => f.outline .method
  | .class k => k.outline

mutual

theorem Stmt.entriesAll_outline : (s : Stmt) → entriesAll s.outline = s.entities.map Entity.entry
  | .expression _ | .print _ | .return _ _ | .break _ | .continue _ => rfl
  | .var _ _ => rfl
  | .block body => Stmt.entriesAll_outlineAll body
  | .ifElse _ thenBranch elseBranch => by
    rw [Stmt.outline, OutlineEntry.entriesAll_append, thenBranch.entriesAll_outline,
      Stmt.entriesAll_outlineOption elseBranch, Stmt.entities, List.map_append]
  | .whileLoop _ body => body.entriesAll_outline
  | .forLoop initializer _ _ body => by
    rw [Stmt.outline, OutlineEntry.entriesAll_append, Stmt.entriesAll_outlineOption initializer,
      body.entriesAll_outline, Stmt.entities, List.map_append]
  | .function declaration => by
    rw [Stmt.outline, OutlineEntry.entriesAll_singleton, declaration.entriesAll_children]
    rfl
  | .class declaration => by
    rw [Stmt.outline, OutlineEntry.entriesAll_singleton, declaration.entriesAll_children]
    rfl

/-- **All entries of the outline of a program** are those of its declarations. -/
theorem Stmt.entriesAll_outlineAll : (ss : List Stmt) →
    entriesAll (Stmt.outlineAll ss) = (Stmt.entitiesAll ss).map Entity.entry
  | [] => rfl
  | s :: rest => by
    rw [Stmt.outlineAll, OutlineEntry.entriesAll_append, s.entriesAll_outline,
      Stmt.entriesAll_outlineAll rest, Stmt.entitiesAll, List.map_append]

theorem Stmt.entriesAll_outlineOption : (s : Option Stmt) →
    entriesAll (Stmt.outlineOption s) = (Stmt.entitiesOption s).map Entity.entry
  | none => rfl
  | some s => s.entriesAll_outline

theorem Function.entriesAll_children {kind : OutlineKind} : (f : Function) →
    entriesAll (f.outline kind).children = f.entities.map Entity.entry
  | ⟨_, _, body, _⟩ => Stmt.entriesAll_outlineAll body

theorem Function.entriesAll_outlineMethods : (fs : List Function) →
    entriesAll (Function.outlineMethods fs) = (Function.entitiesMethods fs).map Entity.entry
  | [] => rfl
  | f :: rest => by
    rw [Function.outlineMethods, OutlineEntry.entriesAll, OutlineEntry.entries_eq,
      f.entriesAll_children, Function.entriesAll_outlineMethods rest, Function.entitiesMethods,
      List.map_cons, List.map_append]
    rfl

theorem Class.entriesAll_children : (k : Class) →
    entriesAll k.outline.children = k.entities.map Entity.entry
  | ⟨_, _, methods, _⟩ => Function.entriesAll_outlineMethods methods

end

/-! ## Kinds of entries -/

mutual

theorem Stmt.kind_outline : (s : Stmt) → ∀ e ∈ s.outline, e.kind ≠ .method
  | .expression _ | .print _ | .return _ _ | .break _ | .continue _ => by simp [Stmt.outline]
  | .var _ _ => by simp [Stmt.outline]
  | .block body => Stmt.kind_outlineAll body
  | .ifElse _ thenBranch elseBranch => by
    intro e he
    obtain he | he := List.mem_append.mp he
    · exact thenBranch.kind_outline e he
    · exact Stmt.kind_outlineOption elseBranch e he
  | .whileLoop _ body => body.kind_outline
  | .forLoop initializer _ _ body => by
    intro e he
    obtain he | he := List.mem_append.mp he
    · exact Stmt.kind_outlineOption initializer e he
    · exact body.kind_outline e he
  | .function ⟨_, _, _, _⟩ => by simp [Stmt.outline, Function.outline]
  | .class ⟨_, _, _, _⟩ => by simp [Stmt.outline, Class.outline]

theorem Stmt.kind_outlineAll : (ss : List Stmt) → ∀ e ∈ Stmt.outlineAll ss, e.kind ≠ .method
  | [] => nofun
  | s :: rest => by
    intro e he
    obtain he | he := List.mem_append.mp he
    · exact s.kind_outline e he
    · exact Stmt.kind_outlineAll rest e he

theorem Stmt.kind_outlineOption : (s : Option Stmt) → ∀ e ∈ Stmt.outlineOption s, e.kind ≠ .method
  | none => nofun
  | some s => s.kind_outline

end

theorem Entity.kind_children (x : Entity) (hkind : x.entry.kind ≠ .class) :
    ∀ e ∈ x.entry.children, e.kind ≠ .method := by
  match x with
  | .variable name => nofun
  | .function ⟨_, _, body, _⟩ => exact Stmt.kind_outlineAll body
  | .method ⟨_, _, body, _⟩ => exact Stmt.kind_outlineAll body
  | .class ⟨_, _, _, _⟩ => exact absurd rfl hkind

/-! ## Where entries lie -/

/-- An entry has its name inside its range, and its children strictly inside its range and one behind
the other. -/
structure OutlineEntry.WellPlaced (e : OutlineEntry) : Prop where
  range_start : e.range.start ≤ e.selection.start
  selection : e.selection.start < e.selection.stop
  range_stop : e.selection.stop ≤ e.range.stop
  inside : ∀ c ∈ e.children, e.range.start < c.range.start ∧ c.range.stop < e.range.stop
  apart : e.children.Pairwise fun a b => a.range.stop ≤ b.range.start

/-- Tokens stand one behind the other, and each of them covers some text. -/
structure InOrder (ts : List Token) : Prop where
  apart : ts.Pairwise fun t u => t.position.stop ≤ u.position.start
  nonempty : ∀ t ∈ ts, t.position.start < t.position.stop

namespace InOrder

variable {ts us : List Token}

theorem sublist (h : InOrder us) (hsub : ts.Sublist us) : InOrder ts :=
  ⟨h.apart.sublist hsub, fun t ht => h.nonempty t (hsub.subset ht)⟩

theorem le (h : InOrder (ts ++ us)) {t u : Token} (ht : t ∈ ts) (hu : u ∈ us) :
    t.position.stop ≤ u.position.start := (List.pairwise_append.mp h.apart).2.2 t ht u hu

theorem head_le {t u : Token} (h : InOrder (t :: ts)) (hu : u ∈ t :: ts) :
    t.position.start ≤ u.position.start := by
  obtain rfl | hu := List.mem_cons.mp hu
  · exact Nat.le_refl _
  · have hlt := h.nonempty t List.mem_cons_self
    have hle := List.rel_of_pairwise_cons h.apart hu
    omega

end InOrder

theorem inOrder_tokens (source : String) : InOrder (tokens source).dropLast :=
  ⟨(ordered_tokens source).sublist (List.dropLast_sublist _), fun _ => nonempty_tokens⟩

/-- A range begins at the beginning of one of the tokens and ends at the end of one of them. -/
def Position.Within (p : Position) (ts : List Token) : Prop :=
  ∃ first ∈ ts, ∃ last ∈ ts, p.start = first.position.start ∧ p.stop = last.position.stop

/-- How entries lie in the tokens that they were read from. -/
structure Outlines (ts : List Token) (es : List OutlineEntry) : Prop where
  within : ∀ e ∈ es, e.range.Within ts
  apart : es.Pairwise fun a b => a.range.stop ≤ b.range.start
  placed : ∀ e ∈ entriesAll es, e.WellPlaced

namespace Outlines

variable {ts us : List Token} {es fs : List OutlineEntry}

theorem nil (ts : List Token) : Outlines ts [] := ⟨nofun, .nil, nofun⟩

theorem mono (h : Outlines ts es) (hsub : ts ⊆ us) : Outlines us es where
  within e he := by
    obtain ⟨first, hfirst, last, hlast, hrange⟩ := h.within e he
    exact ⟨first, hsub hfirst, last, hsub hlast, hrange⟩
  apart := h.apart
  placed := h.placed

theorem part (hts : InOrder us) (hsub : ts.Sublist us) (h : InOrder ts → Outlines ts es) :
    Outlines us es := (h (hts.sublist hsub)).mono hsub.subset

theorem parts {all : List Token} (hall : InOrder all) (hsub : (ts ++ us).Sublist all)
    (h : InOrder ts → Outlines ts es) (h' : InOrder us → Outlines us fs) : Outlines all (es ++ fs) := by
  have hts : InOrder (ts ++ us) := hall.sublist hsub
  have hfront : Outlines (ts ++ us) es := part hts (List.sublist_append_left _ _) h
  have hback : Outlines (ts ++ us) fs := part hts (List.sublist_append_right _ _) h'
  refine Outlines.mono ⟨fun e he => ?_, ?_, fun e he => ?_⟩ hsub.subset
  · exact (List.mem_append.mp he).elim (hfront.within e) (hback.within e)
  · refine List.pairwise_append.mpr ⟨hfront.apart, hback.apart, fun e he f hf => ?_⟩
    obtain ⟨_, _, last, hlast, -, hstop⟩ :=
      (h (hts.sublist (List.sublist_append_left _ _))).within e he
    obtain ⟨first, hfirst, _, _, hstart, -⟩ :=
      (h' (hts.sublist (List.sublist_append_right _ _))).within f hf
    rw [hstop, hstart]
    exact hts.le hlast hfirst
  · rw [OutlineEntry.entriesAll_append] at he
    exact (List.mem_append.mp he).elim (hfront.placed e) (hback.placed e)

theorem name {name : Token} (hname : name.position.start < name.position.stop) :
    Outlines [name] [⟨name.lexeme, .variable, name.position, name.position, []⟩] where
  within := by simp [Position.Within]
  apart := List.pairwise_singleton _ _
  placed e he := by
    obtain rfl := List.mem_singleton.mp he
    exact ⟨Nat.le_refl _, hname, Nat.le_refl _, nofun, .nil⟩

/-- A declaration is an entry: it begins with the first token, its name stands in front of everything
inside it, and its closing brace behind. -/
theorem entry {front inner : List Token} {first last : Token} (name : Token) {e : OutlineEntry}
    (hts : InOrder (first :: front ++ inner ++ [last])) (hname : name ∈ first :: front)
    (hstart : e.range.start = first.position.start) (hstop : e.range.stop = last.position.stop)
    (hselection : e.selection = name.position) (h : Outlines inner e.children) :
    Outlines (first :: front ++ inner ++ [last]) [e] := by
  have hhead : first ∈ first :: front := List.mem_cons_self
  have hfront := hts.sublist (List.sublist_append_left (first :: front ++ inner) [last])
  have hnamed := hts.nonempty name (List.mem_append_left _ (List.mem_append_left _ hname))
  have hlast := hts.nonempty last (by simp)
  have hfirst := hts.nonempty first (by simp)
  constructor
  · simpa using ⟨first, by simp, last, by simp, hstart, hstop⟩
  · exact List.pairwise_singleton _ _
  · intro f hf
    rw [OutlineEntry.entriesAll_singleton] at hf
    obtain rfl | hf := List.mem_cons.mp hf
    · refine ⟨?_, ?_, ?_, fun c hc => ?_, h.apart⟩
      · rw [hstart, hselection]
        exact hts.head_le (List.mem_append_left _ (List.mem_append_left _ hname))
      · rwa [hselection]
      · rw [hstop, hselection]
        have := hts.le (List.mem_append_left _ hname) (List.mem_singleton_self last)
        omega
      · -- a child lies in the inner tokens, which the first and the last one enclose
        obtain ⟨t, ht, u, hu, hct, hcu⟩ := h.within c hc
        rw [hstart, hstop, hct, hcu]
        have := hfront.le hhead ht
        have := hts.le (List.mem_append_right _ hu) (List.mem_singleton_self last)
        omega
    · exact h.placed f hf

theorem function {front inner : List Token} {first last : Token} {f : Function} {kind : OutlineKind}
    (h : Outlines inner (Stmt.outlineAll f.body)) (hts : InOrder (first :: front ++ inner ++ [last]))
    (hname : f.name ∈ first :: front)
    (hspan : f.span = ⟨first.position.line, first.position.start, last.position.stop⟩) :
    Outlines (first :: front ++ inner ++ [last]) [f.outline kind] := by
  obtain ⟨name, params, body, span⟩ := f
  obtain rfl := hspan
  exact .entry name hts hname rfl rfl rfl h

end Outlines

/-! ## Entries of a program -/

namespace Grammar

theorem ExpressionStatement.outline {ts : List Token} {s : Stmt} (h : ExpressionStatement ts s) :
    s.outline = [] := by
  cases h
  rfl

theorem Variable.outlines {ts : List Token} {s : Stmt} (h : Variable ts s) (hts : InOrder ts) :
    Outlines ts s.outline := by
  cases h with
  | mk hword hname hvalue hsemicolon =>
    exact (Outlines.name (hts.nonempty _ (by simp))).mono (by simp)

theorem Initializer.outlines {ts : List Token} {o : Option Stmt} (h : Initializer ts o)
    (hts : InOrder ts) : Outlines ts (Stmt.outlineOption o) := by
  cases h with
  | none => exact .nil _
  | «variable» hs => exact hs.outlines hts
  | expression hs =>
    rw [Stmt.outlineOption, hs.outline]
    exact .nil _

mutual

theorem Statement.outlines {ts : List Token} {s : Stmt} (h : Statement ts s) (hts : InOrder ts) :
    Outlines ts s.outline := by
  match h with
  | .expression hs =>
    rw [hs.outline]
    exact .nil _
  | .print .. | .return .. | .break .. | .continue .. => exact .nil _
  | .block _ hbody _ =>
    exact .part hts (List.sublist_cons_of_sublist _ (List.sublist_append_left _ _)) hbody.outlines
  | .ifThen _ _ _ _ hthen =>
    rw [Stmt.outline, Stmt.outlineOption, List.append_nil]
    exact .part hts (List.sublist_append_of_sublist_right (List.sublist_cons_self _ _)) hthen.outlines
  | .ifElse _ _ _ _ hthen _ _ helse =>
    refine .parts hts ?_ hthen.outlines helse.outlines
    exact (List.sublist_append_of_sublist_right (List.sublist_cons_self _ _)).append
      (List.sublist_cons_self _ _)
  | .whileLoop _ _ _ _ hbody =>
    exact .part hts (List.sublist_append_of_sublist_right (List.sublist_cons_self _ _)) hbody.outlines
  | .forLoop _ _ hinitializer _ _ _ _ hbody =>
    refine .parts hts ?_ hinitializer.outlines hbody.outlines
    refine .append ?_ (List.sublist_cons_self _ _)
    rw [List.append_assoc]
    exact List.sublist_append_of_sublist_left
      ((List.sublist_cons_self _ _).trans (List.sublist_cons_self _ _))
termination_by structural h

theorem Declaration.outlines {ts : List Token} {s : Stmt} (h : Declaration ts s) (hts : InOrder ts) :
    Outlines ts s.outline := by
  match h with
  | @Declaration.class word name us opening vs closing _ _ _ _ _ _ hmethods _ =>
    have hsplit : word :: name :: us ++ opening :: vs ++ [closing] =
        word :: (name :: us ++ [opening]) ++ vs ++ [closing] := by simp
    rw [hsplit] at hts ⊢
    refine .entry name hts (by simp) rfl rfl rfl (hmethods.outlines (hts.sublist ?_))
    exact (List.sublist_append_right _ _).trans (List.sublist_append_left _ _)
  | @Declaration.function word _ f _ hf =>
    obtain ⟨front, inner, last, rfl, hspan, hbody⟩ :=
      hf.outlines (hts.sublist (List.sublist_cons_self _ _))
    have hsplit : word :: (f.name :: front ++ inner ++ [last]) =
        word :: (f.name :: front) ++ inner ++ [last] := rfl
    rw [hsplit] at hts ⊢
    exact hbody.function hts (by simp) hspan
  | .variable hs => exact hs.outlines hts
  | .statement hs => exact hs.outlines hts
termination_by structural h

theorem Callable.outlines {first : Token} {ts : List Token} {f : Function} (h : Callable first ts f)
    (hts : InOrder ts) : ∃ front inner last, ts = f.name :: front ++ inner ++ [last] ∧
      f.span = ⟨first.position.line, first.position.start, last.position.stop⟩ ∧
      Outlines inner (Stmt.outlineAll f.body) := by
  match h with
  | @Callable.mk _ _ opening us closing brace vs final _ _ _ _ _ _ _ _ hbody _ =>
    refine ⟨opening :: us ++ [closing, brace], vs, final, by simp, rfl, ?_⟩
    refine hbody.outlines (hts.sublist ?_)
    exact List.sublist_append_of_sublist_left (List.sublist_append_of_sublist_right
      (List.sublist_cons_of_sublist _ (List.sublist_cons_self _ _)))
termination_by structural h

theorem Methods.outlines {ts : List Token} {fs : List Function} (h : Methods ts fs) (hts : InOrder ts) :
    Outlines ts (Function.outlineMethods fs) := by
  match h with
  | .nil => exact .nil _
  | @Methods.cons _ _ _ f fs hf hfs =>
    have hrow : Function.outlineMethods (f :: fs) =
        [f.outline .method] ++ Function.outlineMethods fs := rfl
    rw [hrow]
    refine .parts hts (.refl _) (fun hmethod => ?_) hfs.outlines
    obtain ⟨front, inner, last, hsplit, hspan, hbody⟩ := hf.outlines hmethod
    -- a method begins with its name
    obtain ⟨rfl, -⟩ := List.cons.inj hsplit
    rw [hsplit] at hmethod ⊢
    exact hbody.function hmethod List.mem_cons_self hspan
termination_by structural h

/-- **The entries of a program lie in its tokens**, well placed and one behind the other. -/
theorem Declarations.outlines {ts : List Token} {ss : List Stmt} (h : Declarations ts ss)
    (hts : InOrder ts) : Outlines ts (Stmt.outlineAll ss) := by
  match h with
  | .nil => exact .nil _
  | .cons hs hss => exact .parts hts (.refl _) hs.outlines hss.outlines
termination_by structural h

end

end Grammar

/-! ## What entries show -/

/-- How a definition is shown. A parameter has no entry. -/
def SymbolKind.outlineKind? : SymbolKind → Option OutlineKind
  | .class => some .class
  | .function => some .function
  | .variable => some .variable
  | .parameter => none

theorem entries_of_declarations (xs : List Entity) :
    ((xs.map Entity.entry).filter (·.kind ≠ .method)).map
        (fun e => (e.name, e.selection, some e.kind)) =
      (xs.filterMap Entity.declaration?).map
        (fun x => (x.1.lexeme, x.1.position, x.2.outlineKind?)) := by
  induction xs with
  | nil => rfl
  | cons x xs ih =>
    match x with
    | .variable name => exact congrArg (_ :: ·) ih
    | .function ⟨_, _, _, _⟩ => exact congrArg (_ :: ·) ih
    | .method ⟨_, _, _, _⟩ => exact ih
    | .class ⟨_, _, _, _⟩ => exact congrArg (_ :: ·) ih

theorem entries_of_classes (xs : List Entity) :
    (xs.map Entity.entry).filter (·.kind = .class) =
      (xs.filterMap Entity.class?).map Class.outline := by
  induction xs with
  | nil => rfl
  | cons x xs ih =>
    match x with
    | .variable name => exact ih
    | .function ⟨_, _, _, _⟩ => exact ih
    | .method ⟨_, _, _, _⟩ => exact ih
    | .class ⟨_, _, _, _⟩ => exact congrArg (_ :: ·) ih

/-- The entry shows a declaration. -/
structure OutlineEntry.Shows (e : OutlineEntry) (kind : OutlineKind) (token : Token)
    (span : Position) : Prop where
  kind_eq : e.kind = kind
  name_eq : e.name = token.lexeme
  selection_eq : e.selection = token.position
  range_eq : e.range = span

theorem Function.shows_outline (kind : OutlineKind) (f : Function) :
    (f.outline kind).Shows kind f.name f.span := by
  cases f
  exact ⟨rfl, rfl, rfl, rfl⟩

theorem Function.outlineMethods_eq (fs : List Function) :
    Function.outlineMethods fs = fs.map (Function.outline .method) := by
  induction fs with
  | nil => rfl
  | cons f fs ih => rw [outlineMethods, ih, List.map_cons]

theorem Class.shows_outline (k : Class) : k.outline.Shows .class k.name k.span ∧
    List.Forall₂ (fun m c => c.Shows .method m.name m.span) k.methods k.outline.children := by
  obtain ⟨name, superclass, methods, span⟩ := k
  refine ⟨⟨rfl, rfl, rfl, rfl⟩, ?_⟩
  rw [outline, Function.outlineMethods_eq, List.forall₂_map_right_iff, List.forall₂_same]
  exact fun m _ => m.shows_outline .method

/-- **The outline of a text without errors** is well nested. Apart from methods, its entries in
preorder are the definitions of the text, parameters apart; the entries of classes are those of
its classes, and the entries in each of them are its methods. -/
theorem outline_of_valid (source : String) (h : (analyze source).Valid) :
    (∀ e ∈ entriesAll (analyze source).outline, e.WellPlaced) ∧
      ((analyze source).outline.Pairwise fun a b => a.range.stop ≤ b.range.start) ∧
      ((entriesAll (analyze source).outline).filter (·.kind ≠ .method)).map
          (fun e => (e.name, e.selection, some e.kind)) =
        ((analyze source).symbols.definitions.toList.filter (·.kind ≠ .parameter)).map
          (fun d => (d.token.lexeme, d.token.position, d.kind.outlineKind?)) ∧
      List.Forall₂ (fun k e => e.Shows .class k.name k.span ∧
          List.Forall₂ (fun m c => c.Shows .method m.name m.span) k.methods e.children)
        (Stmt.classesAll (parse source 0).tree)
        ((entriesAll (analyze source).outline).filter (·.kind = .class)) ∧
      (∀ e ∈ (analyze source).outline, e.kind ≠ .method) ∧
      ∀ e ∈ entriesAll (analyze source).outline, e.kind ≠ .class →
        ∀ c ∈ e.children, c.kind ≠ .method := by
  obtain ⟨hclean, hsymbols, -, houtline⟩ := analyze_of_valid h
  have hlie := (declarations_of_clean source 0 hclean).outlines (inOrder_tokens source)
  have hentries := Stmt.entriesAll_outlineAll (parse source 0).tree
  rw [houtline, hsymbols, outline]
  refine ⟨hlie.placed, hlie.apart, ?_, ?_, Stmt.kind_outlineAll _, ?_⟩
  · rw [hentries, entries_of_declarations, Stmt.declaration?_entitiesAll, ← definitions_of_resolve,
      SymbolGraph.declarations, List.filter_map, List.map_map]
    rfl
  · rw [hentries, entries_of_classes, List.forall₂_map_right_iff, Stmt.classesAll, List.forall₂_same]
    exact fun k _ => k.shows_outline
  · intro e he
    rw [hentries] at he
    obtain ⟨x, -, rfl⟩ := List.mem_map.mp he
    exact x.kind_children

/-- A class with a method in a block, a function and a variable in the method. -/
theorem outline_of_valid_class :
    (analyze "\x7b class A \x7b m(p) \x7b fun f() \x7b var v; \x7d f(); \x7d \x7d A().m(1); \x7d").Valid ∧
      ∀ e ∈ entriesAll (analyze
          "\x7b class A \x7b m(p) \x7b fun f() \x7b var v; \x7d f(); \x7d \x7d A().m(1); \x7d").outline,
        e.WellPlaced :=
  ⟨by decide +kernel, (outline_of_valid _ (by decide +kernel)).1⟩

end Lox
