import Mathlib.Order.Lattice.Nat
import Lox.Proofs.Syntax.Attempts

/-!
# How often declarations are given up

A problem that unwinds is noted at the token in view, and going on behind it passes that token. So no two
of them stand at the same token, unless the text ends with it: there one attempt after the other is given
up, from the innermost block outwards.

* `Attempt.MeetsEnd`: the end of the text comes into view in an attempt, `openBlocks`: how many blocks
  stand open around the innermost such attempt;
* `Cursor.Tallied`: the problems that unwound stand at tokens that were passed, and some at the end;
* `Course.tally`: the course on which only so many come to stand at the end;
* **`tallied_parse`**: at the end of a text there is one more of them at most than blocks stand open.
-/

namespace Lox

open Lox.Parser

/-! ## Open blocks -/

/-- The end of the text comes into view in the attempt. -/
def Attempt.MeetsEnd (a : Attempt) : Prop :=
  a.start.current.terminal ≠ .endOfInput ∧
    ∃ o d, a.ended = .ok o d ∧ d.current.terminal = .endOfInput

/-- How many blocks stand open when the end of the text comes into view: every attempt in which it does
stands in so many at most. -/
noncomputable def openBlocks (source : String) (firstId : ExprId) : Nat :=
  sInf {k | EveryAttempt source firstId fun a => a.MeetsEnd → a.blocks ≤ k}

theorem everyAttempt_openBlocks (source : String) (firstId : ExprId) :
    EveryAttempt source firstId fun a => a.MeetsEnd → a.blocks ≤ openBlocks source firstId := by
  have hbound : EveryAttempt source firstId fun a => a.MeetsEnd → a.blocks ≤ enoughFuel (scan source) :=
    everyAttempt_of_blocks firstId fun a ha _ => Nat.le_of_lt ha
  have hnonempty : {k | EveryAttempt source firstId fun a => a.MeetsEnd → a.blocks ≤ k}.Nonempty :=
    ⟨_, hbound⟩
  exact Nat.sInf_mem hnonempty

/-! ## Where problems unwound -/

/-- The problems that unwound so far stand at tokens that were passed, each at one of its own, and `n` of
them at the end of the text. -/
structure Cursor.Tallied (all : List Token) (n : Nat) (c : Cursor) : Prop where
  sound : c.Sound
  places : ∃ passed ts : List Token, all = passed ++ c.tokens ∧ ts.Sublist passed ∧
    c.unwound.reverse.map (·.position) =
      ts.map Token.position ++ List.replicate n c.current.position
  atEnd : 0 < n → c.current.terminal = .endOfInput

namespace Cursor.Tallied

variable {all : List Token} {n : Nat} {c : Cursor}

theorem eq_zero (h : c.Tallied all n) (hend : c.current.terminal ≠ .endOfInput) : n = 0 :=
  Nat.eq_zero_of_not_pos fun hn => hend (h.atEnd hn)

theorem start (source : String) (firstId : ExprId) :
    (Cursor.start (scan source) firstId).Tallied (Lox.tokens source) 0 where
  sound := sound_start source firstId
  places := ⟨[], [], (tokens_start source firstId).symm, .slnil, by rw [unwound_start]; rfl⟩
  atEnd := fun h => absurd h (Nat.lt_irrefl 0)

theorem advance (h : c.Tallied all n) : c.advance.Tallied all n := by
  by_cases hend : c.current.terminal = .endOfInput
  · rwa [Cursor.advance_of_atEnd hend]
  · obtain rfl := h.eq_zero hend
    have hpass := Cursor.passes_advance h.sound hend
    obtain ⟨passed, ts, hall, hts, hplaces⟩ := h.places
    refine ⟨hpass.leads.sound h.sound, ⟨passed ++ [c.current], ts, ?_, ?_, ?_⟩,
      fun hn => absurd hn (Nat.lt_irrefl 0)⟩
    · rw [hall, hpass.tokens, List.append_assoc]
      rfl
    · exact hts.trans (List.sublist_append_left _ _)
    · rw [c.unwound_advance]
      exact hplaces

theorem note (h : c.Tallied all n) {problem : SyntaxProblem} (hproblem : problem.unwinds = false)
    (place : Position) : (c.note problem place).Tallied all n :=
  ⟨h.sound.note _ _, by rw [unwound_note hproblem]; exact h.places, h.atEnd⟩

/-- At the end of the text one problem more unwinds. -/
theorem giveUp_atEnd (h : c.Tallied all n) {problem : SyntaxProblem} (hproblem : problem.unwinds = true)
    (hend : c.current.terminal = .endOfInput) :
    (c.note problem c.current.position).Tallied all (n + 1) := by
  obtain ⟨passed, ts, hall, hts, hplaces⟩ := h.places
  refine ⟨h.sound.note _ _, ⟨passed, ts, hall, hts, ?_⟩, fun _ => hend⟩
  rw [unwound_giveUp hproblem, List.reverse_cons, List.map_append, hplaces, List.append_assoc,
    List.replicate_succ']
  rfl

/-- In front of the end a problem unwinds at a token of its own, which is passed. -/
theorem giveUp_inside (h : c.Tallied all n) {problem : SyntaxProblem} (hproblem : problem.unwinds = true)
    (hend : c.current.terminal ≠ .endOfInput) :
    (c.note problem c.current.position).advance.Tallied all 0 := by
  obtain rfl := h.eq_zero hend
  have hpass := Cursor.passes_advance (h.sound.note problem c.current.position) hend
  obtain ⟨passed, ts, hall, hts, hplaces⟩ := h.places
  refine ⟨hpass.leads.sound (h.sound.note _ _), ⟨passed ++ [c.current], ts ++ [c.current], ?_, ?_, ?_⟩,
    fun hn => absurd hn (Nat.lt_irrefl 0)⟩
  · have htokens : c.tokens = c.current :: (c.note problem c.current.position).advance.tokens :=
      hpass.tokens
    rw [hall, htokens, List.append_assoc]
    rfl
  · exact hts.append (.refl _)
  · rw [unwound_advance, unwound_giveUp hproblem, List.reverse_cons, List.map_append, hplaces,
      List.map_append, List.append_assoc]
    exact (List.append_nil _).symm

end Cursor.Tallied

/-- The course on which no more than `limit` problems that unwound come to stand at the end. -/
def Course.tally (all : List Token) (limit : Nat) : Course where
  Goes c d := ∀ n, c.Tallied all n → ∃ m ≤ max n limit, d.Tallied all m
  refl _ n h := ⟨n, Nat.le_max_left _ _, h⟩
  trans := fun h h' n hc =>
    have ⟨m, hm, hd⟩ := h n hc
    have ⟨k, hk, he⟩ := h' m hd
    ⟨k, Nat.le_trans hk (Nat.max_le.mpr ⟨hm, Nat.le_max_right _ _⟩), he⟩
  advance _ n h := ⟨n, Nat.le_max_left _ _, h.advance⟩
  number _ n h := ⟨n, Nat.le_max_left _ _, ⟨h.sound.number _, h.places, h.atEnd⟩⟩
  note _ hproblem n h := ⟨n, Nat.le_max_left _ _, h.note hproblem _⟩
  target := fun _ h n hc =>
    have ⟨m, hm, hd⟩ := h n hc.advance
    ⟨m, hm, hd.note rfl _⟩

/-- **In every run, one problem more at most unwinds at the end of the text than blocks stand open
there.** -/
theorem tallied_parse (source : String) (firstId : ExprId) :
    ∃ d n, declarations (enoughFuel (scan source)) (.start (scan source) firstId) =
        .ok (parse source firstId).tree d ∧
      (parse source firstId).complaints = d.complaints.reverse ∧
      n ≤ openBlocks source firstId + 1 ∧ d.Tallied (tokens source) n := by
  have hevery := everyAttempt_openBlocks source firstId
  generalize openBlocks source firstId = k at hevery ⊢
  -- within an attempt in so many blocks, as many fewer may come to stand at the end
  have hkeeps := (keeps_watched (fun a => a.MeetsEnd → a.blocks ≤ k)
    (fun blocks => Course.tally (tokens source) (k + 1 - blocks)) ?_ ?_ 0 (enoughFuel (scan source))).1
  · obtain ⟨d, hrun, hcomplaints, hgoes⟩ := goes_of_keepsInside source firstId hkeeps hevery
    obtain ⟨n, hn, hd⟩ := hgoes 0 (.start source firstId)
    exact ⟨d, n, hrun, hcomplaints, by simpa using hn, hd⟩
  case refine_1 =>
    intro blocks c d s _ _ h n hc
    obtain ⟨m, hm, hd⟩ := h n hc
    exact ⟨m, by omega, hd⟩
  case refine_2 =>
    rintro blocks fuel c e f hallowed hend ⟨d, problem, hgoes, hproblem, rfl⟩ hskips n hc
    obtain rfl := hc.eq_zero hend
    obtain ⟨m, hm, hd⟩ := hgoes 0 hc
    have hskips' := goes_of_synchronize (C := Course.tally (tokens source) (k + 1 - blocks)) hskips
    by_cases hdend : d.current.terminal = .endOfInput
    · have he := hd.giveUp_atEnd hproblem hdend
      obtain ⟨j, hj, hf⟩ := hskips' (m + 1) he.advance
      refine ⟨j, ?_, hf⟩
      by_cases hj0 : j = 0
      · omega
      · -- the attempt ends the text, and stands in no more blocks than are open there
        have hblocks : blocks ≤ k :=
          hallowed ⟨hend, none, f, rfl, hf.atEnd (Nat.pos_of_ne_zero hj0)⟩
        omega
    · exact hskips' 0 (hd.giveUp_inside hproblem hdend)

end Lox
