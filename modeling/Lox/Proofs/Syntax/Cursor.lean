import Lox.Proofs.Ensures
import Lox.Proofs.Syntax.Regular
import Lox.Report.Basic
import Lox.Syntax.Cursor

/-!
# The tokens in front of a cursor

* `Cursor.tokens`: the token in view and those behind it, **`Cursor.passes_advance`**: moving on
  takes one token off their front;
* `Ended`: a row of tokens whose last one, and no other, is the end of the text;
* `Grave`: complaints that are all about errors;
* `Cursor.Sound`: what every cursor keeps to, `Cursor.Leads`: what can change on the way from one
  cursor to another one, `Cursor.Passes`: one token was passed;
* `Halted`: a rule that gave up has noted a problem;
* `ensures_accept?`, `ensures_expect`, …: what the basic rules do.
-/

namespace Lox

/-- A row of tokens whose last one, and no other, is the end of the text. -/
inductive Ended : List Token → Prop where
  | last {t} : t.terminal = .endOfInput → Ended [t]
  | cons {t ts} : t.terminal ≠ .endOfInput → Ended ts → Ended (t :: ts)

theorem Ended.ne_nil {ts : List Token} (h : Ended ts) : ts ≠ [] := by
  cases h <;> simp

theorem Ended.tail_ne_nil {t : Token} {ts : List Token} (h : Ended (t :: ts))
    (ht : t.terminal ≠ .endOfInput) : ts ≠ [] := by
  cases h with
  | last hend => exact absurd hend ht
  | cons _ hts => exact hts.ne_nil

theorem Ended.of_suffix {ts us : List Token} (h : Ended ts) (hs : us <:+ ts) (hne : us ≠ []) :
    Ended us := by
  induction h with
  | last ht =>
    rcases List.suffix_cons_iff.mp hs with rfl | hs
    · exact .last ht
    · exact absurd (List.suffix_nil.mp hs) hne
  | cons ht hts ih =>
    rcases List.suffix_cons_iff.mp hs with rfl | hs
    · exact .cons ht hts
    · exact ih hs

/-- All complaints are about errors. -/
def Grave (complaints : List Complaint) : Prop := ∀ x ∈ complaints, x.isError = true

namespace Cursor

/-- The token in view and those behind it. -/
def tokens (c : Cursor) : List Token := c.current :: c.pending.filterMap Except.toOption

theorem pull_spec (last : Token) (complaints : List Complaint) (items : List Item) :
    (items.filterMap Except.toOption ≠ [] →
      (pull last complaints items).1 ::
        (pull last complaints items).2.1.filterMap Except.toOption =
          items.filterMap Except.toOption) ∧
      complaints <:+ (pull last complaints items).2.2 ∧
      (Grave complaints → Grave (pull last complaints items).2.2) := by
  induction items generalizing complaints with
  | nil => exact ⟨fun h => absurd rfl h, List.suffix_refl _, id⟩
  | cons item items ih =>
    cases item with
    | ok t => exact ⟨fun _ => rfl, List.suffix_refl _, id⟩
    | error p =>
      obtain ⟨htokens, hcomplaints, hgrave⟩ := ih (⟨.lexical p.value, p.position⟩ :: complaints)
      exact ⟨htokens, (List.suffix_cons _ _).trans hcomplaints,
        fun h => hgrave (List.forall_mem_cons.mpr ⟨rfl, h⟩)⟩

theorem pull_lexed {last : Token} {complaints : List Complaint} {items : List Item}
    (h : (pull last complaints items).2.2 = []) :
    ∃ us : List Token, items = us.map .ok ++ (pull last complaints items).2.1 := by
  cases items with
  | nil => exact ⟨[], rfl⟩
  | cons item items =>
    cases item with
    | ok t => exact ⟨[t], rfl⟩
    | error p =>
      have hsuffix := (pull_spec last (⟨.lexical p.value, p.position⟩ :: complaints) items).2.1
      rw [pull] at h
      rw [h, List.suffix_nil] at hsuffix
      cases hsuffix

/-! ## Sound cursors and ways between them -/

/-- The tokens in front of the cursor end with the end of the text, and each is written the way
its kind is written. -/
structure Sound (c : Cursor) : Prop where
  ended : Ended c.tokens
  spelled : ∀ t ∈ c.tokens, t.Spelled

/-- On the way from `c` to `d` tokens were passed, numbers given away and problems noted. -/
structure Leads (c d : Cursor) : Prop where
  tokens : d.tokens <:+ c.tokens
  nextId : c.nextId ≤ d.nextId
  complaints : c.complaints <:+ d.complaints
  grave : Grave c.complaints → Grave d.complaints
  lexed : d.complaints = [] → ∃ us : List Token, c.pending = us.map .ok ++ d.pending

/-- Between `c` and `d` stands the token `t`. -/
structure Passes (c : Cursor) (t : Token) (d : Cursor) : Prop where
  tokens : c.tokens = t :: d.tokens
  nextId : d.nextId = c.nextId
  complaints : c.complaints <:+ d.complaints
  grave : Grave c.complaints → Grave d.complaints
  lexed : d.complaints = [] → ∃ us : List Token, c.pending = us.map .ok ++ d.pending

/-- No problem was noted on the way from `c` to `d`. -/
def Silent (c d : Cursor) : Prop := d.complaints = c.complaints

namespace Leads

variable {c d e : Cursor}

theorem refl (c : Cursor) : c.Leads c :=
  ⟨List.suffix_refl _, Nat.le_refl _, List.suffix_refl _, id, fun _ => ⟨[], rfl⟩⟩

theorem trans (h : c.Leads d) (h' : d.Leads e) : c.Leads e where
  tokens := h'.tokens.trans h.tokens
  nextId := Nat.le_trans h.nextId h'.nextId
  complaints := h.complaints.trans h'.complaints
  grave := h'.grave ∘ h.grave
  lexed := by
    intro he
    obtain ⟨vs, hvs⟩ := h'.lexed he
    obtain ⟨us, hus⟩ := h.lexed (List.suffix_nil.mp (he ▸ h'.complaints))
    exact ⟨us ++ vs, by rw [hus, hvs, List.map_append, List.append_assoc]⟩

theorem sound (h : c.Leads d) (hc : c.Sound) : d.Sound :=
  ⟨hc.ended.of_suffix h.tokens (by simp [Cursor.tokens]),
    fun t ht => hc.spelled t (h.tokens.subset ht)⟩

theorem length_le (h : c.Leads d) : d.tokens.length ≤ c.tokens.length := h.tokens.length_le

/-- Where nothing is noted at all, nothing was noted on the way there. -/
theorem silent (h : c.Leads d) (hd : d.complaints = []) : c.Silent d := by
  have hc := h.complaints
  rw [hd, List.suffix_nil] at hc
  rw [Silent, hd, hc]

theorem silent_of_trans (h : c.Leads d) (h' : d.Leads e) (hs : c.Silent e) :
    c.Silent d ∧ d.Silent e := by
  have hd : d.complaints <:+ c.complaints := by
    have he := h'.complaints
    rwa [hs] at he
  have heq : d.complaints = c.complaints :=
    hd.eq_of_length (Nat.le_antisymm hd.length_le h.complaints.length_le)
  exact ⟨heq, hs.trans heq.symm⟩

end Leads

theorem Passes.leads {c d : Cursor} {t : Token} (h : c.Passes t d) : c.Leads d :=
  ⟨by rw [h.tokens]; exact List.suffix_cons _ _, Nat.le_of_eq h.nextId.symm, h.complaints, h.grave,
    h.lexed⟩

theorem Passes.length_lt {c d : Cursor} {t : Token} (h : c.Passes t d) :
    d.tokens.length < c.tokens.length := by
  rw [h.tokens]
  exact Nat.lt_succ_self _

/-- **Moving on takes one token off the front.** -/
theorem passes_advance {c : Cursor} (hc : c.Sound) (hend : c.current.terminal ≠ .endOfInput) :
    c.Passes c.current c.advance := by
  have hrest : c.pending.filterMap Except.toOption ≠ [] := hc.ended.tail_ne_nil hend
  have hat : c.atEnd = false := by simpa [atEnd] using hend
  obtain ⟨htokens, hcomplaints, hgrave⟩ := pull_spec c.current c.complaints c.pending
  rw [advance, hat]
  exact ⟨by rw [Cursor.tokens, Cursor.tokens]; exact congrArg _ (htokens hrest).symm, rfl, hcomplaints,
    hgrave, pull_lexed⟩

theorem advance_of_atEnd {c : Cursor} (h : c.current.terminal = .endOfInput) : c.advance = c := by
  rw [advance, if_pos (by simp [atEnd, h])]

/-- Moving on passes the token in view, unless the text ends with it. -/
theorem leads_advance {c : Cursor} (hc : c.Sound) : c.Leads c.advance := by
  by_cases hend : c.current.terminal = .endOfInput
  · rw [advance_of_atEnd hend]
    exact .refl c
  · exact (passes_advance hc hend).leads

namespace Sound

variable {c : Cursor} (hc : c.Sound)

include hc

theorem advance : c.advance.Sound := (leads_advance hc).sound hc

theorem note (problem : SyntaxProblem) (place : Position) : (c.note problem place).Sound :=
  ⟨hc.ended, hc.spelled⟩

theorem number (id : ExprId) : { c with nextId := id }.Sound := ⟨hc.ended, hc.spelled⟩

end Sound

end Cursor

/-! ## The basic rules -/

/-- A rule that gave up has noted a problem; no rule runs out of fuel. -/
def Halted (c : Cursor) (h : Halt) (d : Cursor) : Prop :=
  h = .syntaxProblem ∧ c.Leads d ∧ ¬ c.Silent d

theorem Halted.trans {c d e : Cursor} {h : Halt} (hl : c.Leads d) (hh : Halted d h e) :
    Halted c h e :=
  ⟨hh.1, hl.trans hh.2.1, fun hs => hh.2.2 (hl.silent_of_trans hh.2.1 hs).2⟩

namespace Parser

variable {c : Cursor}

@[simp] theorem ensures_peek {ok : Terminal → Cursor → Prop} {halt : Halt → Cursor → Prop} :
    Ensures peek c ok halt ↔ ok c.current.terminal c := Iff.rfl

@[simp] theorem ensures_advance {ok : Token → Cursor → Prop} {halt : Halt → Cursor → Prop} :
    Ensures advance c ok halt ↔ ok c.current c.advance := Iff.rfl

@[simp] theorem ensures_freshId {ok : ExprId → Cursor → Prop} {halt : Halt → Cursor → Prop} :
    Ensures freshId c ok halt ↔ ok c.nextId { c with nextId := c.nextId + 1 } := Iff.rfl

@[simp] theorem ensures_complain {problem : SyntaxProblem} {place : Token}
    {ok : Unit → Cursor → Prop} {halt : Halt → Cursor → Prop} :
    Ensures (complain problem place) c ok halt ↔ ok () (c.note problem place.position) := Iff.rfl

theorem leads_note (problem : SyntaxProblem) (place : Position) :
    c.Leads (c.note problem place) ∧ ¬ c.Silent (c.note problem place) :=
  ⟨⟨List.suffix_refl _, Nat.le_refl _, List.suffix_cons _ _,
      fun h => List.forall_mem_cons.mpr ⟨rfl, h⟩, fun _ => ⟨[], rfl⟩⟩,
    fun h => absurd (congrArg List.length h) (by simp [Cursor.note])⟩

theorem leads_freshId : c.Leads { c with nextId := c.nextId + 1 } :=
  ⟨List.suffix_refl _, Nat.le_succ _, List.suffix_refl _, id, fun _ => ⟨[], rfl⟩⟩

theorem ensures_fail {α : Type} (problem : SyntaxProblem) :
    Ensures (fail problem : Parser α) c (fun _ _ => False) (Halted c) := by
  obtain ⟨hleads, hheard⟩ := leads_note (c := c) problem c.current.position
  exact ⟨rfl, hleads, hheard⟩

theorem ensures_accept? (hc : c.Sound) {terminal : Terminal} (hend : terminal ≠ .endOfInput) :
    Ensures (accept? terminal) c
      (fun
        | some t, d => c.Passes t d ∧ t.terminal = terminal ∧ t.Spelled
        | none, d => d = c ∧ c.current.terminal ≠ terminal)
      (Halted c) := by
  rw [accept?, ensures_bind, ensures_peek]
  by_cases h : c.current.terminal = terminal
  · rw [if_pos (by simpa using h)]
    have hpass := Cursor.passes_advance hc (h.symm ▸ hend)
    exact ⟨hpass, h, hc.spelled _ List.mem_cons_self⟩
  · rw [if_neg (by simpa using h)]
    exact ⟨rfl, h⟩

theorem ensures_expect (hc : c.Sound) {terminal : Terminal} (hend : terminal ≠ .endOfInput)
    (problem : SyntaxProblem) :
    Ensures (expect terminal problem) c
      (fun t d => c.Passes t d ∧ t.terminal = terminal ∧ t.Spelled) (Halted c) := by
  rw [expect]
  refine (ensures_accept? hc hend).bind (fun a d _ h => ?_) (fun _ _ h => h)
  cases a with
  | some t => exact h
  | none =>
    obtain ⟨rfl, -⟩ := h
    exact (ensures_fail problem).mono (fun _ _ _ h => h.elim) (fun _ _ h => h)

theorem ensures_expectMark (hc : c.Sound) (mark : Punct) (place : Place) :
    Ensures (expectMark mark place) c (fun t d => c.Passes t d ∧ t.IsMark mark) (Halted c) :=
  (ensures_expect hc (by simp) _).mono
    (fun _ _ _ h => ⟨h.1, Token.terminal_eq_punct.mp h.2.1⟩) (fun _ _ h => h)

theorem ensures_expect_identifier (hc : c.Sound) (problem : SyntaxProblem) :
    Ensures (expect .identifier problem) c (fun t d => c.Passes t d ∧ t.Names) (Halted c) :=
  (ensures_expect hc (by simp) _).mono
    (fun _ _ _ h => ⟨h.1, Token.terminal_eq_identifier.mp h.2.1, h.2.2⟩) (fun _ _ h => h)

theorem ensures_advance_of (hc : c.Sound) (hend : c.current.terminal ≠ .endOfInput)
    {halt : Halt → Cursor → Prop} :
    Ensures advance c
      (fun t d => t = c.current ∧ c.Passes t d ∧ t.Spelled) halt :=
  ⟨rfl, Cursor.passes_advance hc hend, hc.spelled _ List.mem_cons_self⟩

end Parser

end Lox
