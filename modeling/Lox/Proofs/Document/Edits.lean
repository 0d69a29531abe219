import Lox.Proofs.Binding.Consistent
import Lox.Proofs.Syntax.AcceptStatement
import Lox.Proofs.Syntax.Counting
import Lox.Proofs.Syntax.Respelling
import Lox.Proofs.Token.Lexicon
import Lox.Proofs.Token.Lookahead
import Lox.Document.Analysis

/-!
# Editing identifiers of a text

The edits of a document are carried out at once. Where they put another identifier in the place of
identifiers of one spelling, the scanner finds the same tokens as before, but for their spelling and
their offsets, and the parser the same tree.

* `revised`, `applyAll`: a text with edits carried out;
* `Renaming`: some identifiers of a text, and another spelling for them; `Renaming.edits`,
  `Renaming.edited`, `Renaming.respelling`: the edits, the edited text and how it is spelled;
* **`Renaming.scan_edited`**: the items of the edited text;
* **`Renaming.parse_edited`**: its tree.
-/

namespace Lox

open Lexicon Scanner

/-! ## Edits -/

section Edits

variable (edits : List TextEdit)

/-- The text that is put in front of the place at `offset`. -/
def insertedAt (offset : Nat) : List Char :=
  (edits.filter (·.position.start == offset)).flatMap (·.newText.toList)

/-- Another text is put in the place of what stands at `offset`. -/
def replaces (offset : Nat) : Bool :=
  edits.any fun e => e.position.start ≤ offset && offset < e.position.stop

/-- The characters from `offset` on, with the edits carried out. -/
def revised (offset : Nat) : List Char → List Char
  | [] => []
  | c :: cs =>
    insertedAt edits offset ++ (if replaces edits offset then [] else [c]) ++
      revised (offset + c.utf8Size) cs

/-- The text with all edits carried out. Their places count in the text as it was. -/
def applyAll (source : String) : String :=
  String.ofList (revised edits 0 source.toList ++ insertedAt edits (byteLength source.toList))

variable {edits} {offset : Nat} {cs ds : List Char}

theorem revised_append : revised edits offset (cs ++ ds) =
    revised edits offset cs ++ revised edits (offset + byteLength cs) ds := by
  induction cs generalizing offset with
  | nil => rfl
  | cons c cs ih =>
    rw [List.cons_append, revised, ih, revised, byteLength, Nat.add_assoc]
    simp only [List.append_assoc]

theorem revised_quiet (h : ∀ e ∈ edits, e.position.start < e.position.stop ∧
    (e.position.stop ≤ offset ∨ offset + byteLength cs ≤ e.position.start)) :
    revised edits offset cs = cs := by
  induction cs generalizing offset with
  | nil => rfl
  | cons c cs ih =>
    have hsize := Char.utf8Size_pos c
    rw [byteLength] at h
    have hnone : insertedAt edits offset = [] := by
      refine List.flatMap_eq_nil_iff.mpr fun e he => ?_
      obtain ⟨he, hstart⟩ := List.mem_filter.mp he
      have := h e he
      have := eq_of_beq hstart
      omega
    have hkept : replaces edits offset = false := by
      refine List.any_eq_false.mpr fun e he => ?_
      have := h e he
      simp only [Bool.and_eq_true, decide_eq_true_eq]
      omega
    rw [revised, hnone, hkept, ih fun e he => ?_]
    · rfl
    · have := h e he
      omega

theorem revised_replaced (h : ∀ e ∈ edits, e.position.start < offset ∨
    offset + byteLength cs ≤ e.position.start) {edit : TextEdit} (hedit : edit ∈ edits)
    (hstart : edit.position.start ≤ offset) (hstop : offset + byteLength cs ≤ edit.position.stop) :
    revised edits offset cs = [] := by
  induction cs generalizing offset with
  | nil => rfl
  | cons c cs ih =>
    have hsize := Char.utf8Size_pos c
    rw [byteLength] at h hstop
    have hnone : insertedAt edits offset = [] := by
      refine List.flatMap_eq_nil_iff.mpr fun e he => ?_
      obtain ⟨he, hbegins⟩ := List.mem_filter.mp he
      have := h e he
      have := eq_of_beq hbegins
      omega
    have hreplaced : replaces edits offset = true := by
      refine List.any_eq_true.mpr ⟨edit, hedit, ?_⟩
      simp only [Bool.and_eq_true, decide_eq_true_eq]
      omega
    rw [revised, hnone, hreplaced, ih (fun e he => ?_) (by omega) (by omega)]
    · rfl
    · have := h e he
      omega

end Edits

/-- The characters that fit into the first `bytes` bytes of a text. -/
def firstBytes (bytes : Nat) : List Char → List Char
  | [] => []
  | c :: cs => if c.utf8Size ≤ bytes then c :: firstBytes (bytes - c.utf8Size) cs else []

theorem firstBytes_append (front back : List Char) :
    firstBytes (byteLength front) (front ++ back) = front := by
  induction front with
  | nil =>
    cases back with
    | nil => rfl
    | cons c back => exact if_neg (Nat.not_le.mpr (Char.utf8Size_pos c))
  | cons c front ih =>
    rw [List.cons_append, byteLength, firstBytes, if_pos (Nat.le_add_right _ _),
      Nat.add_sub_cancel_left, ih]

/-! ## Identifiers in a text -/

/-- An identifier is the lexeme in front of what does not go on with it. -/
theorem munch_name {name rest : List Char} (h : Writes name .identifier)
    (hrest : ∀ c ∈ rest.head?, isWordPart c = false) :
    ∃ c cs, name ++ rest = c :: cs ∧ isWordStart c = true ∧
      munch c cs = ⟨name, rest, .token .identifier⟩ := by
  obtain ⟨c, cs, rfl, hmunch⟩ := munch_writes h
  have hc := munch_identifier (congrArg Munch.lexeme hmunch)
  refine ⟨c, cs ++ rest, rfl, hc, ?_⟩
  rw [munch_word hc, Munch.word, Munch.mk.injEq, List.cons.injEq] at hmunch
  obtain ⟨⟨-, htake⟩, -, hkind⟩ := hmunch
  have hall : ∀ d ∈ cs, isWordPart d = true := List.takeWhile_eq_self_iff.mp htake
  have hstop : rest.takeWhile isWordPart = [] ∧ rest.dropWhile isWordPart = rest := by
    cases rest with
    | nil => exact ⟨rfl, rfl⟩
    | cons d rest => simp [hrest d rfl]
  rw [munch_word hc, Munch.word, List.takeWhile_append_of_pos hall, List.dropWhile_append_of_pos hall,
    hstop.1, hstop.2, List.append_nil]
  rw [htake] at hkind
  rw [hkind]

theorem count_of_name {name : List Char} (h : Writes name .identifier) : name.count '\n' = 0 := by
  refine List.count_eq_zero.mpr fun hmem => ?_
  cases h with
  | name hc hcs =>
    obtain rfl | hmem := List.mem_cons.mp hmem
    · revert hc
      unfold IsLetter
      decide
    · have := hcs _ hmem
      revert this
      unfold IsLetter IsDigit
      decide

namespace Scanner

theorem Scans.offset_le {s t : Scanner} {items : List Item} (h : Scans s items t) {u : Token}
    (hu : .ok u ∈ items) : s.offset ≤ u.position.start := by
  induction h with
  | done => cases hu
  | dropped _ _ _ ih => exact (Nat.le_add_right _ _).trans (ih hu)
  | problem _ _ _ ih =>
    obtain hu | hu := List.mem_cons.mp hu
    · cases hu
    · exact (Nat.le_add_right _ _).trans (ih hu)
  | token _ _ _ ih =>
    obtain hu | hu := List.mem_cons.mp hu
    · cases hu
      exact Nat.le_refl _
    · exact (Nat.le_add_right _ _).trans (ih hu)

end Scanner

/-- The item of a text with other names. -/
def Item.respell (r : Respelling) : Item → Item
  | .ok t => .ok (t.respell r)
  | .error p => .error ⟨p.value, p.position.relocate r.places⟩

/-! ## Identifiers and another spelling for them -/

/-- Some identifiers of a text, all of one spelling, and another identifier to put in their places. -/
structure Renaming (source : String) where
  chosen : List Token
  old : String
  new : String
  nodup : chosen.Nodup
  chosen_names : ∀ t ∈ chosen, t ∈ names (tokens source)
  chosen_lexeme : ∀ t ∈ chosen, t.lexeme = old
  writes_new : Writes new.toList .identifier

namespace Renaming

variable {source : String} (q : Renaming source)

/-- The edits that give the identifiers the other spelling. -/
def edits : List TextEdit := q.chosen.map fun t => ⟨t.position, q.new⟩

/-- The text with the identifiers in the other spelling. -/
def edited : String := applyAll q.edits source

/-- How the edited text is spelled. -/
def respelling : Respelling where
  chosen id := q.chosen.any (·.id == id)
  old := q.old
  new := q.new
  offset o := byteLength (revised q.edits 0 (firstBytes o source.toList))

variable {q} {t u : Token} {front cs : List Char} {c : Char}

theorem chosen_tokens (ht : t ∈ q.chosen) : t ∈ tokens source := (mem_names.mp (q.chosen_names t ht)).1

theorem offset_respelling {back : List Char} (h : source.toList = front ++ back) :
    q.respelling.offset (byteLength front) = byteLength (revised q.edits 0 front) := by
  simp only [respelling, h, firstBytes_append]

theorem picks_iff (ht : t ∈ tokens source) : q.respelling.picks t = true ↔ t ∈ q.chosen := by
  rw [Respelling.picks, Bool.and_eq_true, beq_iff_eq, respelling]
  constructor
  · rintro ⟨-, h⟩
    obtain ⟨u, hu, hid⟩ := List.any_eq_true.mp h
    rwa [← eq_of_id_tokens source (chosen_tokens hu) ht (eq_of_beq hid)]
  · intro h
    exact ⟨Token.terminal_eq_identifier.mpr (mem_names.mp (q.chosen_names t h)).2,
      List.any_eq_true.mpr ⟨t, h, beq_self_eq_true _⟩⟩

theorem respelled_of_chosen (ht : t ∈ q.chosen) : t.respelled q.respelling = q.new :=
  Token.respelled_of_picks ((picks_iff (chosen_tokens ht)).mpr ht)

theorem respelled_of_not_chosen (hmem : t ∈ tokens source) (ht : t ∉ q.chosen) :
    t.respelled q.respelling = t.lexeme :=
  Token.respelled_of_not_picks (Bool.eq_false_iff.mpr fun h => ht ((picks_iff hmem).mp h))

theorem start_lt_stop (ht : t ∈ q.chosen) : t.position.start < t.position.stop := by
  obtain ⟨hmem, hname⟩ := mem_names.mp (q.chosen_names t ht)
  obtain ⟨front, c, cs, -, -, hread⟩ := isRead_of_isName hmem hname
  rw [hread.start, hread.stop, byteLength_append]
  have := byteLength_pos (taken_ne_nil c cs)
  omega

theorem apart (ht : t ∈ q.chosen) (hu : u ∈ q.chosen) (hne : t ≠ u) :
    t.position.stop ≤ u.position.start ∨ u.position.stop ≤ t.position.start := by
  have ht := chosen_tokens ht
  have hu := chosen_tokens hu
  obtain hlt | heq | hgt := Nat.lt_trichotomy t.id u.id
  · exact .inl (stop_le_start source ht hu hlt)
  · exact absurd (eq_of_id_tokens source ht hu heq) hne
  · exact .inr (stop_le_start source hu ht hgt)

/-! ## Pieces of the text -/

theorem mem_edits {e : TextEdit} : e ∈ q.edits ↔ ∃ t ∈ q.chosen, ⟨t.position, q.new⟩ = e :=
  List.mem_map

theorem revised_of_not_chosen {offset : Nat} {text : List Char} (h : ∀ t ∈ q.chosen,
    t.position.stop ≤ offset ∨ offset + byteLength text ≤ t.position.start) :
    revised q.edits offset text = text := by
  refine revised_quiet fun e he => ?_
  obtain ⟨t, ht, rfl⟩ := mem_edits.mp he
  exact ⟨start_lt_stop ht, h t ht⟩

/-- At the beginning of one of the identifiers the new spelling is put in front. -/
theorem insertedAt_chosen (ht : t ∈ q.chosen) : insertedAt q.edits t.position.start = q.new.toList := by
  obtain ⟨before, behind, hsplit⟩ := List.append_of_mem ht
  have hnodup := q.nodup
  rw [hsplit, List.nodup_middle, List.nodup_cons] at hnodup
  have hnone {ts : List Token} (hts : ∀ u ∈ ts, u ∈ before ++ behind) :
      (ts.map fun u => (⟨u.position, q.new⟩ : TextEdit)).filter
        (·.position.start == t.position.start) = [] := by
    refine List.filter_eq_nil_iff.mpr fun e he => ?_
    obtain ⟨u, hu, rfl⟩ := List.mem_map.mp he
    have hmem : u ∈ q.chosen := by
      rw [hsplit]
      exact List.perm_middle.symm.subset (List.mem_cons_of_mem t (hts u hu))
    have hne : t ≠ u := by
      rintro rfl
      exact hnodup.1 (hts t hu)
    have := start_lt_stop ht
    have := start_lt_stop hmem
    have := apart ht hmem hne
    simp only [beq_iff_eq]
    omega
  rw [insertedAt, edits, hsplit, List.map_append, List.map_cons, List.filter_append,
    List.filter_cons_of_pos (by exact beq_self_eq_true _), hnone fun _ => List.mem_append_left _,
    hnone fun _ => List.mem_append_right _, List.nil_append, List.flatMap_singleton]

/-- One of the identifiers becomes the new spelling. -/
theorem revised_of_chosen (ht : t ∈ q.chosen) {text : List Char}
    (hstop : t.position.stop = t.position.start + byteLength text) :
    revised q.edits t.position.start text = q.new.toList := by
  have hpos := start_lt_stop ht
  have hedit : (⟨t.position, q.new⟩ : TextEdit) ∈ q.edits := mem_edits.mpr ⟨t, ht, rfl⟩
  cases text with
  | nil =>
    rw [byteLength] at hstop
    omega
  | cons c cs =>
    have hsize := Char.utf8Size_pos c
    rw [byteLength] at hstop
    have hreplaced : replaces q.edits t.position.start = true := by
      refine List.any_eq_true.mpr ⟨_, hedit, ?_⟩
      simp only [Bool.and_eq_true, decide_eq_true_eq]
      omega
    rw [revised, insertedAt_chosen ht, hreplaced,
      revised_replaced (fun e he => ?_) hedit (Nat.le_add_right _ _) (by dsimp only; omega)]
    · simp
    · obtain ⟨u, hu, rfl⟩ := mem_edits.mp he
      dsimp only
      obtain rfl | hne := eq_or_ne t u
      · omega
      · have := apart ht hu hne
        have := start_lt_stop hu
        omega

theorem insertedAt_end : insertedAt q.edits (byteLength source.toList) = [] := by
  refine List.flatMap_eq_nil_iff.mpr fun e he => ?_
  obtain ⟨he, hstart⟩ := List.mem_filter.mp he
  obtain ⟨t, ht, rfl⟩ := mem_edits.mp he
  obtain ⟨hmem, hname⟩ := mem_names.mp (q.chosen_names t ht)
  obtain ⟨front, c, cs, hsource, -, hread⟩ := isRead_of_isName hmem hname
  have hstart := eq_of_beq hstart
  dsimp only at hstart
  rw [hread.start, hsource, byteLength_append, byteLength] at hstart
  have := Char.utf8Size_pos c
  omega

theorem toList_edited : q.edited.toList = revised q.edits 0 source.toList := by
  rw [edited, applyAll, insertedAt_end, List.append_nil, String.toList_ofList]

/-! ## The scanner -/

variable (q)

/-- The scanner at the same place of the edited text, behind `front`. -/
def scanner (front : List Char) (s : Scanner) : Scanner :=
  ⟨revised q.edits (byteLength front) s.rest, byteLength (revised q.edits 0 front), s.line, s.nextId,
    s.finished⟩

variable {q}

/-- **A lexeme of the edited text**, in the place of one of the text. Behind both of them the scanners are
at the same place again. -/
theorem lexeme_scanner {s : Scanner} {c : Char} {cs taken : List Char} {lexeme : Lexeme}
    (hr : s.rest = c :: cs)
    (htaken : revised q.edits (byteLength front) (munch c cs).taken = taken)
    (hmunch : ∃ d ds, taken ++ revised q.edits (byteLength (front ++ (munch c cs).taken))
        (munch c cs).rest = d :: ds ∧
      munch d ds = ⟨taken, revised q.edits (byteLength (front ++ (munch c cs).taken))
        (munch c cs).rest, lexeme⟩)
    (hlines : taken.count '\n' = (munch c cs).taken.count '\n') :
    ∃ d ds, (q.scanner front s).rest = d :: ds ∧ (munch d ds).taken = taken ∧
      (munch d ds).lexeme = lexeme ∧
      ∀ id, (q.scanner front s).behindLexeme d ds id =
        q.scanner (front ++ (munch c cs).taken) (s.behindLexeme c cs id) := by
  obtain ⟨d, ds, hrest, hmunch⟩ := hmunch
  have hoffset : byteLength (revised q.edits 0 (front ++ (munch c cs).taken)) =
      byteLength (revised q.edits 0 front) + byteLength taken := by
    rw [revised_append, byteLength_append, Nat.zero_add, htaken]
  refine ⟨d, ds, ?_, by rw [hmunch], by rw [hmunch], fun id => ?_⟩
  · rw [← hrest, scanner, hr]
    dsimp only
    rw [← taken_append_rest c cs, revised_append, htaken, byteLength_append]
  · simp only [Scanner.behindLexeme, Scanner.pass, scanner, hmunch, hlines, hoffset]

theorem lexeme_kept {s : Scanner} {c : Char} {cs : List Char} (hr : s.rest = c :: cs)
    (hoffset : s.offset = byteLength front)
    (hquiet : ∀ u ∈ q.chosen, u.position.stop ≤ s.offset ∨
      (s.behindLexeme c cs s.nextId).offset ≤ u.position.start)
    (halike : BeginsAlike (munch c cs).rest
      (revised q.edits (byteLength (front ++ (munch c cs).taken)) (munch c cs).rest)) :
    BeginsAlike s.rest (q.scanner front s).rest ∧
      ∃ d ds, (q.scanner front s).rest = d :: ds ∧ (munch d ds).taken = (munch c cs).taken ∧
        (munch d ds).lexeme = (munch c cs).lexeme ∧
        ∀ id, (q.scanner front s).behindLexeme d ds id =
          q.scanner (front ++ (munch c cs).taken) (s.behindLexeme c cs id) := by
  have htaken : revised q.edits (byteLength front) (munch c cs).taken = (munch c cs).taken := by
    rw [← hoffset]
    exact revised_of_not_chosen hquiet
  have hhere : munch c cs = ⟨(munch c cs).taken, (munch c cs).rest, (munch c cs).lexeme⟩ := rfl
  obtain ⟨ds, hrest, hmunch⟩ := munch_alike hhere halike
  have hlexeme := lexeme_scanner hr htaken ⟨c, ds, hrest, hmunch⟩ rfl
  refine ⟨?_, hlexeme⟩
  rw [scanner, hr, ← taken_append_rest c cs]
  dsimp only
  rw [revised_append, htaken, ← byteLength_append]
  exact halike.append _

theorem lexeme_chosen {s : Scanner} {c : Char} {cs : List Char} {kind : TokenKind}
    (hr : s.rest = c :: cs) (hm : (munch c cs).lexeme = .token kind)
    (hoffset : s.offset = byteLength front) (ht : s.lexemeToken c cs kind ∈ q.chosen)
    (halike : BeginsAlike (munch c cs).rest
      (revised q.edits (byteLength (front ++ (munch c cs).taken)) (munch c cs).rest)) :
    BeginsAlike s.rest (q.scanner front s).rest ∧
      ∃ d ds, (q.scanner front s).rest = d :: ds ∧ (munch d ds).taken = q.new.toList ∧
        (munch d ds).lexeme = .token kind ∧
        ∀ id, (q.scanner front s).behindLexeme d ds id =
          q.scanner (front ++ (munch c cs).taken) (s.behindLexeme c cs id) := by
  obtain rfl : kind = .identifier := (mem_names.mp (q.chosen_names _ ht)).2
  have hc := munch_identifier hm
  have htaken : revised q.edits (byteLength front) (munch c cs).taken = q.new.toList := by
    rw [← hoffset]
    exact revised_of_chosen ht rfl
  have hstop : ∀ d ∈ (munch c cs).rest.head?, isWordPart d = false := by
    intro d hd
    rw [munch_word hc] at hd
    have hnot := List.head?_dropWhile_not isWordPart cs
    have hd : (cs.dropWhile isWordPart).head? = some d := hd
    rwa [hd] at hnot
  obtain ⟨d, ds, hrest, hd, hmunch⟩ := munch_name q.writes_new
    (halike.head (fun _ _ => isWordPart_of_isWordStart_eq) hstop)
  have hlexeme := lexeme_scanner hr htaken ⟨d, ds, hrest, hmunch⟩
    ((count_of_name q.writes_new).trans (count_of_name (writes_munch hm)).symm)
  refine ⟨?_, hlexeme⟩
  obtain ⟨_, _, hrest', -, -, -⟩ := hlexeme
  have hfront : (q.scanner front s).rest = d :: ds := by
    rw [← hrest, scanner, hr]
    dsimp only
    rw [← taken_append_rest c cs, revised_append, htaken, ← byteLength_append]
  rw [hr, hfront]
  exact @BeginsAlike.word [] _ _ _ _ hc hd

/-- Behind a lexeme the scanner is in the text again. -/
theorem source_behindLexeme {s : Scanner} {c : Char} {cs : List Char} (hr : s.rest = c :: cs)
    (hsource : source.toList = front ++ s.rest) (hoffset : s.offset = byteLength front) (id : TokenId) :
    source.toList = front ++ (munch c cs).taken ++ (s.behindLexeme c cs id).rest ∧
      (s.behindLexeme c cs id).offset = byteLength (front ++ (munch c cs).taken) := by
  have hpast := past_behindLexeme hr id
  exact ⟨by rw [hsource, hpast.rest, List.append_assoc],
    by rw [hpast.offset, byteLength_append, hoffset]⟩

theorem respell_lexemeToken {s : Scanner} {c d : Char} {cs ds : List Char} {kind : TokenKind}
    (hr : s.rest = c :: cs) (hsource : source.toList = front ++ s.rest)
    (hoffset : s.offset = byteLength front)
    (hspelling : (s.lexemeToken c cs kind).respelled q.respelling = String.ofList (munch d ds).taken)
    (hbehind : ∀ id, (q.scanner front s).behindLexeme d ds id =
      q.scanner (front ++ (munch c cs).taken) (s.behindLexeme c cs id)) :
    (s.lexemeToken c cs kind).respell q.respelling = (q.scanner front s).lexemeToken d ds kind := by
  obtain ⟨hsource', hoffset'⟩ := source_behindLexeme hr hsource hoffset s.nextId
  rw [Token.respell, hspelling, lexemeToken, lexemeToken, hbehind, Scanner.token, Scanner.token]
  simp only [Position.relocate, Respelling.places, id, scanner, hoffset', hoffset,
    offset_respelling hsource, offset_respelling hsource']

/-- **On the way through the edited text the items are those of the text**, in the other spelling. -/
theorem scans_scanner {s t : Scanner} {items : List Item} (h : s.Scans items t) (ht : t.rest = [])
    (hsource : source.toList = front ++ s.rest) (hoffset : s.offset = byteLength front)
    (hitems : ∀ u, .ok u ∈ items → u ∈ tokens source)
    (hahead : ∀ u ∈ q.chosen, u.position.stop ≤ s.offset ∨ .ok u ∈ items) :
    (q.scanner front s).Scans (items.map (Item.respell q.respelling))
        (q.scanner source.toList t) ∧
      BeginsAlike s.rest (q.scanner front s).rest := by
  induction h generalizing front with
  | @done s =>
    rw [ht, List.append_nil] at hsource
    rw [hsource]
    refine ⟨.done, ?_⟩
    rw [scanner, ht]
    exact .refl
  | @dropped s c cs items t hr hm hrest ih =>
    obtain ⟨hsource', hoffset'⟩ := source_behindLexeme hr hsource hoffset s.nextId
    obtain ⟨hscans, halike⟩ := ih ht hsource' hoffset' hitems fun u hu =>
      (hahead u hu).imp_left fun h => h.trans (Nat.le_add_right _ _)
    obtain ⟨hfront, d, ds, hrest', -, hlexeme, hbehind⟩ :=
      lexeme_kept hr hoffset (fun u hu => (hahead u hu).imp_right hrest.offset_le) halike
    exact ⟨.dropped hrest' (hlexeme.trans hm) (hbehind _ ▸ hscans), hfront⟩
  | @problem s c cs p items t hr hm hrest ih =>
    obtain ⟨hsource', hoffset'⟩ := source_behindLexeme hr hsource hoffset s.nextId
    have hbehind' : ∀ u ∈ q.chosen, u.position.stop ≤ s.offset ∨ .ok u ∈ items :=
      fun u hu => (hahead u hu).imp_right fun h => (List.mem_cons.mp h).resolve_left (by nofun)
    obtain ⟨hscans, halike⟩ := ih ht hsource' hoffset'
      (fun u hu => hitems u (List.mem_cons_of_mem _ hu)) fun u hu =>
        (hbehind' u hu).imp_left fun h => h.trans (Nat.le_add_right _ _)
    obtain ⟨hfront, d, ds, hrest', -, hlexeme, hbehind⟩ :=
      lexeme_kept hr hoffset (fun u hu => (hbehind' u hu).imp_right hrest.offset_le) halike
    refine ⟨?_, hfront⟩
    have hitem : Item.respell q.respelling (.error (s.lexemeProblem c cs p)) =
        .error ((q.scanner front s).lexemeProblem d ds p) := by
      rw [lexemeProblem, lexemeProblem, hbehind, Item.respell]
      simp only [Position.relocate, Respelling.places, id, scanner, hoffset', hoffset,
        offset_respelling hsource, offset_respelling hsource']
    rw [List.map_cons, hitem]
    exact .problem hrest' (hlexeme.trans hm) (hbehind _ ▸ hscans)
  | @token s c cs kind items t hr hm hrest ih =>
    obtain ⟨hsource', hoffset'⟩ := source_behindLexeme hr hsource hoffset (s.nextId + 1)
    have hmem := hitems _ List.mem_cons_self
    obtain ⟨hscans, halike⟩ := ih ht hsource' hoffset'
      (fun u hu => hitems u (List.mem_cons_of_mem _ hu)) fun u hu => by
        obtain hstop | hu := hahead u hu
        · exact .inl (hstop.trans (Nat.le_add_right _ _))
        · obtain hu | hu := List.mem_cons.mp hu
          · cases hu
            exact .inl (Nat.le_refl _)
          · exact .inr hu
    by_cases hchosen : s.lexemeToken c cs kind ∈ q.chosen
    · obtain ⟨hfront, d, ds, hrest', htaken, hlexeme, hbehind⟩ :=
        lexeme_chosen hr hm hoffset hchosen halike
      refine ⟨?_, hfront⟩
      have hspelling : (s.lexemeToken c cs kind).respelled q.respelling =
          String.ofList (munch d ds).taken := by
        rw [respelled_of_chosen hchosen, htaken, String.ofList_toList]
      rw [List.map_cons, Item.respell, respell_lexemeToken hr hsource hoffset hspelling hbehind]
      exact .token hrest' hlexeme (hbehind _ ▸ hscans)
    · have hquiet : ∀ u ∈ q.chosen, u.position.stop ≤ s.offset ∨
          (s.behindLexeme c cs s.nextId).offset ≤ u.position.start := by
        refine fun u hu => (hahead u hu).imp_right fun h => ?_
        obtain h | h := List.mem_cons.mp h
        · cases h
          exact absurd hu hchosen
        · exact hrest.offset_le h
      obtain ⟨hfront, d, ds, hrest', htaken, hlexeme, hbehind⟩ := lexeme_kept hr hoffset hquiet halike
      refine ⟨?_, hfront⟩
      have hspelling : (s.lexemeToken c cs kind).respelled q.respelling =
          String.ofList (munch d ds).taken := by
        rw [respelled_of_not_chosen hmem hchosen, htaken]
        rfl
      rw [List.map_cons, Item.respell, respell_lexemeToken hr hsource hoffset hspelling hbehind]
      exact .token hrest' (hlexeme.trans hm) (hbehind _ ▸ hscans)

variable (q)

/-- **The items of the edited text** are those of the text, in the other spelling. -/
theorem scan_edited : scan q.edited = (scan source).map (Item.respell q.respelling) := by
  obtain ⟨items, e, hscans, hrest, hfinished, hitems⟩ := scans_items (s := .ofString source) rfl
  have hscan : scan source = items ++ [.ok (e.token e .endOfInput [])] := hitems
  have hmem (u : Token) (hu : .ok u ∈ items) : u ∈ tokens source :=
    mem_tokens.mpr (hscan ▸ List.mem_append_left _ hu)
  have hahead (u : Token) (hu : u ∈ q.chosen) :
      u.position.stop ≤ (ofString source).offset ∨ .ok u ∈ items := by
    obtain ⟨htoken, hname⟩ := mem_names.mp (q.chosen_names u hu)
    rw [mem_tokens, hscan, List.mem_append, List.mem_singleton] at htoken
    refine .inr (htoken.resolve_right fun hend => ?_)
    cases hend
    cases hname
  obtain ⟨hscans', -⟩ := scans_scanner hscans hrest (List.nil_append _).symm rfl hmem hahead
  have hstart : q.scanner [] (ofString source) = ofString q.edited := by
    rw [ofString, ofString, toList_edited]
    rfl
  rw [hstart] at hscans'
  have hend : Item.respell q.respelling (.ok (e.token e .endOfInput [])) =
      .ok ((q.scanner source.toList e).token (q.scanner source.toList e) .endOfInput []) := by
    obtain ⟨text, hpast⟩ := hscans.past
    have hoffset : e.offset = byteLength source.toList := by
      rw [hpast.offset, ← List.append_nil text, ← hrest, ← hpast.rest]
      exact Nat.zero_add _
    have hwhole := offset_respelling (q := q) (List.append_nil source.toList).symm
    rw [Item.respell, Token.respell, Token.respelled_of_not_picks (Token.not_picks_of_terminal fun h => by cases h)]
    simp only [Scanner.token, Position.relocate, Respelling.places, id, scanner, hoffset, hwhole]
  have hlast : (q.scanner source.toList e).rest = [] := by
    rw [scanner, hrest]
    rfl
  rw [scan, hscans'.items_eq rfl, items_nil (s := q.scanner source.toList e) hfinished hlast, hscan,
    List.map_append, List.map_singleton, hend]

theorem tokens_edited : tokens q.edited = (tokens source).map (Token.respell q.respelling) := by
  rw [tokens, scan_edited, tokens]
  induction scan source with
  | nil => rfl
  | cons item items ih =>
    cases item with
    | ok t => exact congrArg (t.respell _ :: ·) ih
    | error p => exact ih

/-- **The tree of the edited text** is that of the text, in the other spelling. -/
theorem parse_edited (hclean : (parse source 0).clean = true)
    (hspares : q.respelling.Spares (Stmt.namingsAll (parse source 0).tree)) :
    (parse q.edited 0).clean = true ∧
      (parse q.edited 0).tree = Stmt.respellAll q.respelling (parse source 0).tree := by
  have hlexed : (scan q.edited).all Except.isOk = true := by
    have hall := lexed_of_clean _ _ hclean
    rw [scan_edited, List.all_map, ← hall]
    congr 1
    funext item
    cases item <;> rfl
  have hprogram := (declarations_of_clean _ _ hclean).respell hspares
  rw [List.map_dropLast, ← tokens_edited] at hprogram
  obtain ⟨hclean', htree⟩ := parse_of_accepted 0 hlexed hprogram.accepted
  refine ⟨hclean', ?_⟩
  -- both trees have the numbers that the parser gives, and nothing else tells them apart
  have hcounted := counted_parse hclean
  have hcounted' := counted_parse hclean'
  rw [Stmt.CountedAll] at hcounted
  rw [Stmt.CountedAll, ← Stmt.countAll_unnumbered, htree, Stmt.countAll_unnumbered,
    Stmt.countAll_respell, hcounted, Prod.mk.injEq] at hcounted'
  exact hcounted'.1.symm

end Renaming

end Lox
