import Lox.Proofs.Syntax.Unwinding
import Lox.Proofs.Token.Tiling

/-!
# Progress of the parser

Whatever is wrong with a text, the parser comes to its end. Each round of a row of declarations passes a
token, so that the bound on the depth of the tree is never reached, and no larger one makes a difference.

* `pending_parse`: behind a run on a whole text nothing is left;
* `declarations_ends`, `wholeExpression_ends`: a run on a text ends, and takes nothing but its items;
* `everyAttempt_progresses`: every attempt passes a token or ends the text;
* `unwound_parse`: where the problems stand with which declarations were given up;
* `Progresses`: all of this together, **`parser_progresses`**: so it is for every text.
-/

namespace Lox

open Lox.Parser

variable (source : String) (firstId : ExprId)

/-! ## The end of a run -/

theorem pending_parse {tree : List Stmt} {d : Cursor}
    (hrun : declarations (enoughFuel (scan source)) (.start (scan source) firstId) = .ok tree d) :
    d.current.terminal = .endOfInput ∧ d.pending = [] := by
  have hend := ((ensures_parse source firstId).ok_of_eq hrun).2
  have hkeeps : Course.leading.Keeps (declarations (enoughFuel (scan source))) :=
    keeps_declarationsFrom (keeps_declaration Course.steady_leading _).1.inside _ _ _
  obtain ⟨hleads, hpending⟩ := (hkeeps _).ok_of_eq hrun (sound_start source firstId)
  refine ⟨hend, ?_⟩
  -- the last item of a text is a token, and no token is left
  have hnone := pending_of_leads source firstId hleads hend
  obtain ⟨front, last, hscan⟩ := Scanner.items_concat (s := .ofString source) rfl
  have hsuffix : d.pending <:+ front ++ [.ok last] := by
    rw [← hscan]
    exact hpending.trans (Cursor.pull_suffix _ _ _)
  obtain hnil | ⟨items, item, hitems⟩ := List.eq_nil_or_concat d.pending
  · exact hnil
  · rw [List.concat_eq_append] at hitems
    rw [hitems] at hsuffix hnone
    obtain ⟨more, hmore⟩ := hsuffix
    rw [← List.append_assoc] at hmore
    obtain rfl := List.singleton_inj.mp (List.append_inj' hmore rfl).2
    simp [Except.toOption] at hnone

section

variable {fuel : Nat} (hf : enoughFuel (scan source) ≤ fuel) (beyond : List Item)

include hf

/-- **A run on a text ends**, with every bound that is large enough, and leaves all that stands behind
the text. -/
theorem declarations_ends {d : Cursor} (hrun : declarations (enoughFuel (scan source))
    (.start (scan source) firstId) = .ok (parse source firstId).tree d) :
    declarations fuel (.start (scan source ++ beyond) firstId) =
      .ok (parse source firstId).tree { d with pending := beyond } := by
  have hpending := (pending_parse source firstId hrun).2
  rw [Cursor.start_append beyond (ended_tokens source).ne_nil firstId,
    declarations_before hf beyond (sound_start source firstId) (by simp [hrun]), hrun, behindResult,
    Cursor.before, hpending, List.nil_append]

/-- **A run on a text that is a single expression ends**, too. -/
theorem wholeExpression_ends :
    wholeExpression fuel (.start (scan source ++ beyond) firstId) =
      behindResult beyond (wholeExpression (enoughFuel (scan source)) (.start (scan source) firstId)) := by
  have hreads := ensures_parseExpression source firstId
  rw [Cursor.start_append beyond (ended_tokens source).ne_nil firstId]
  refine wholeExpression_before hf beyond (sound_start source firstId) fun d hd => ?_
  cases (hreads.halt_of_eq hd).1

end

/-! ## Attempts -/

/-- The attempt passes a token or ends the text. -/
def Attempt.Progresses (a : Attempt) : Prop := ∃ o d passed, a.ended = .ok o d ∧
  a.start.tokens = passed ++ d.tokens ∧ (passed ≠ [] ∨ d.current.terminal = .endOfInput)

theorem exists_passed {fuel : Nat} {c d : Cursor} {o : Option Stmt} (hc : c.Sound)
    (hrun : declaration fuel c = .ok o d) :
    ∃ passed, c.tokens = passed ++ d.tokens ∧ (passed ≠ [] ∨ d.current.terminal = .endOfInput) := by
  have hleads := (((keeps_declaration Course.steady_leading fuel).1 c).ok_of_eq hrun hc).1
  obtain ⟨passed, hpassed⟩ := hleads.tokens
  refine ⟨passed, hpassed.symm, ?_⟩
  by_cases hend : c.current.terminal = .endOfInput
  · -- only the end is left, and it stays in view
    rw [Cursor.tokens, Cursor.tokens, hc.ended.eq_singleton hend] at hpassed
    cases passed with
    | nil => exact .inr ((List.cons.inj hpassed).1 ▸ hend)
    | cons t passed => simp at hpassed
  · -- with a bound that is large enough the declaration is the same
    have henough := declaration_before (Nat.le_max_left fuel (c.tokens.length + 2)) [] hc hrun
    rw [Cursor.before_nil, Cursor.before_nil] at henough
    have hdeclares := ((declares_declaration _).1 c hc hend (by omega)).ok_of_eq henough
    have hlt : d.tokens.length < c.tokens.length := by
      cases o with
      | none => exact hdeclares.2.2
      | some s => exact hdeclares.shorter
    refine .inl fun hnil => ?_
    rw [hnil, List.nil_append] at hpassed
    rw [hpassed] at hlt
    exact Nat.lt_irrefl _ hlt

theorem everyAttempt_progresses : EveryAttempt source firstId Attempt.Progresses := by
  refine everyAttempt_of_declaration (fun blocks fuel c o d hc hrun => ?_) source firstId
  obtain ⟨passed, hpassed, hprogress⟩ := exists_passed hc hrun
  exact ⟨o, d, passed, hrun, hpassed, hprogress⟩

/-! ## Problems that unwind -/

/-- No two of the complaints stand at the same place, unless that place is `last`. -/
def Apart (last : Position) (complaints : List Complaint) : Prop :=
  complaints.Pairwise fun x y => x.position = y.position → x.position = last

/-- **The problems with which declarations were given up** stand at tokens of their own in front
of the end of the text, and at the end one more at most than blocks stand open there. -/
theorem unwound_parse : ∃ (front : List Token) (last : Token) (ts : List Token) (n : Nat),
    tokens source = front ++ [last] ∧ ts.Sublist front ∧ n ≤ openBlocks source firstId + 1 ∧
    ((parse source firstId).complaints.filter Complaint.unwinds).map (·.position) =
      ts.map Token.position ++ List.replicate n last.position := by
  obtain ⟨d, n, hrun, hcomplaints, hn, hd⟩ := tallied_parse source firstId
  obtain ⟨hend, -⟩ := pending_parse source firstId hrun
  obtain ⟨passed, ts, hall, hts, hplaces⟩ := hd.places
  rw [Cursor.tokens, hd.sound.ended.eq_singleton hend] at hall
  refine ⟨passed, d.current, ts, n, hall, hts, hn, ?_⟩
  rw [hcomplaints, List.filter_reverse]
  exact hplaces

/-- The course on which no declaration is given up. -/
def Course.quiet : Course where
  Goes c d := d.unwound = c.unwound
  refl _ := rfl
  trans := fun h h' => h'.trans h
  advance c := c.unwound_advance
  number _ := rfl
  note c h := Cursor.unwound_note h c _
  target := fun {c d} _ h => (Cursor.unwound_note rfl d _).trans (h.trans c.unwound_advance)

/-- A single expression is given up at most once. -/
theorem unwound_parseExpression :
    ((parseExpression source firstId).complaints.filter Complaint.unwinds).length ≤ 1 := by
  obtain ⟨d, hcomplaints, hway⟩ := goes_parseExpression source firstId Course.quiet
  have hstart := Cursor.unwound_start (scan source) firstId
  rw [hcomplaints, List.filter_reverse, List.length_reverse]
  show d.unwound.length ≤ 1
  obtain hgoes | ⟨e, problem, hgoes, hproblem, rfl⟩ := hway
  · have hd : d.unwound = [] := Eq.trans hgoes hstart
    rw [hd]
    exact Nat.zero_le 1
  · have he : e.unwound = [] := Eq.trans hgoes hstart
    rw [Cursor.unwound_giveUp hproblem, he]
    exact Nat.le_refl 1

/-! ## Progress -/

/-- The parser comes to the end of the text. -/
structure Progresses (source : String) (firstId : ExprId) : Prop where
  /-- A run on the text ends with its tree, with every bound that is large enough. The end is in view
  then and every item was taken, once and in its turn; none was asked for behind them. -/
  ends : ∃ d : Cursor, d.current.terminal = .endOfInput ∧
    ∀ fuel ≥ enoughFuel (scan source), ∀ beyond,
      declarations fuel (.start (scan source ++ beyond) firstId) =
        .ok (parse source firstId).tree { d with pending := beyond }
  /-- So does a run on it as a single expression, or it is given up. It asks for no item behind the text
  either. -/
  ends_expression : ∃ result, (∀ d, result ≠ .error .outOfFuel d) ∧
    ∀ fuel ≥ enoughFuel (scan source), ∀ beyond,
      wholeExpression fuel (.start (scan source ++ beyond) firstId) = behindResult beyond result
  /-- Each round of a row of declarations passes a token or ends the text. -/
  rounds : EveryAttempt source firstId Attempt.Progresses
  /-- No two problems that unwind stand at the same token in front of the end of the text. -/
  apart : ∃ last : Token, (tokens source).getLast? = some last ∧
    Apart last.position ((parse source firstId).complaints.filter Complaint.unwinds)
  /-- There are no more of them than tokens and blocks that stand open at the end, and one. -/
  bounded : ((parse source firstId).complaints.filter Complaint.unwinds).length ≤
    (tokens source).dropLast.length + openBlocks source firstId + 1
  /-- As a single expression the text is given up once at most. -/
  bounded_expression :
    ((parseExpression source firstId).complaints.filter Complaint.unwinds).length ≤ 1

/-- **The parser always ends and always makes progress**, whatever is wrong with the text. -/
theorem parser_progresses : Progresses source firstId := by
  obtain ⟨front, last, ts, n, htokens, hts, hn, hplaces⟩ := unwound_parse source firstId
  constructor
  case ends =>
    obtain ⟨d, hrun, -⟩ := exists_of_parse source firstId
    exact ⟨d, (pending_parse source firstId hrun).1, fun fuel hf beyond =>
      declarations_ends source firstId hf beyond hrun⟩
  case ends_expression =>
    refine ⟨_, fun d hd => ?_, fun fuel hf beyond => wholeExpression_ends source firstId hf beyond⟩
    cases ((ensures_parseExpression source firstId).halt_of_eq hd).1
  case rounds => exact everyAttempt_progresses source firstId
  case apart =>
    refine ⟨last, by rw [htokens, List.getLast?_concat], ?_⟩
    have hstarts := starts_tokens source
    rw [htokens] at hstarts
    have hinside := (List.pairwise_append.mp hstarts).1.sublist hts
    have hplaced : (ts.map Token.position ++ List.replicate n last.position).Pairwise fun p q =>
        p = q → p = last.position := by
      refine List.pairwise_append.mpr ⟨?_, ?_, fun p _ q hq hpq => ?_⟩
      · refine List.pairwise_map.mpr (hinside.imp fun {t u} hlt heq => ?_)
        rw [heq] at hlt
        exact absurd hlt (Nat.lt_irrefl _)
      · exact List.pairwise_replicate.mpr (.inr fun _ => rfl)
      · rw [hpq]
        exact List.eq_of_mem_replicate hq
    rw [← hplaces] at hplaced
    exact List.pairwise_map.mp hplaced
  case bounded =>
    have hlength := congrArg List.length hplaces
    have hle := hts.length_le
    rw [List.length_map, List.length_append, List.length_map, List.length_replicate] at hlength
    rw [htokens, List.dropLast_concat]
    omega
  case bounded_expression => exact unwound_parseExpression source firstId

end Lox
