import Lox.Proofs.Session.Legal

/-!
# Static scopes and scopes at run time

The resolver counts the scopes of the text, the run counts links between opened scopes. At every
point of the history of a session the two agree, also in functions of earlier submissions.

* `Activity.Reads`: the occurrences whose binding an activity reads;
* `Aligned`: the distance of every occurrence that is read leads to the instance of the scope in
  which its name was found, `alignment`: the watch for that;
* **`Session.scopes_stay_aligned`**: no run ever begins an activity that is not aligned.
-/

namespace Lox

/-- The activity reads the binding of an occurrence: of a variable, of `this` or `super`, or of the
superclass of a class. -/
inductive Activity.Reads : Activity → Occurrence → Prop where
  | variable {fuel use} : Reads (.evaluate fuel (.variable use)) use
  | this {fuel keyword} : Reads (.evaluate fuel (.this keyword)) keyword
  | super {fuel keyword method} : Reads (.evaluate fuel (.super keyword method)) keyword
  | superclass {fuel use name methods span} :
      Reads (.execute fuel (.class ⟨name, some use, methods, span⟩)) use

/-- An activity begins where static scopes and scopes at run time agree. The labels name for every
scope that is ever opened what opened it and the scopes around it. -/
structure Aligned (sites : List (Site × Mark)) (labels : Origins) (m : Machine) (a : Activity) :
    Prop where
  /-- What an activity opens is labelled by it. -/
  opened : Labelled labels (a.Opens m)
  /-- The distance leads to an instance of the scope in which the name was found, which binds it. -/
  reached : ∀ use d, a.Reads use → m.distances[use.id]? = some d →
    ∃ p : Site, (p, .read use) ∈ sites ∧ p.distance? use.name.lexeme = some d ∧
      m.Reaches labels p use.name.lexeme d
  /-- A variable whose distance is known can be read. -/
  read : ∀ use d, a.Reads use → m.distances[use.id]? = some d → ∃ v, Eval.read use m = .ok v m
  /-- The words `super` and `this` can be read as well. -/
  dispatched : ∀ fuel keyword method, a = .evaluate fuel (.super keyword method) →
    ∀ problem place m', Eval.superMethod keyword method m =
      .error (.failure (.problem problem place)) m' → problem = .undefinedProperty method.lexeme

/-- Every activity must be aligned. -/
def alignment (sites : List (Site × Mark)) (e : Ending) : Watch where
  allowed a m := Aligned sites e.labels m a
  signal := e.signal

variable {known : List (Site × Mark)} {o : Origins} {m : Machine}

theorem Activity.Reads.site {a : Activity} {use : Occurrence} (h : a.Reads use)
    (hb : Begins known o m a) :
    ∃ p : Site, Mirrors m o m.current p.frames ∧ (p, .read use) ∈ known := by
  cases h with
  | «variable» =>
    obtain ⟨-, p, hm, hs⟩ := hb
    exact ⟨p, hm, hs (by simp [Expr.sites, Site.mark, Expr.marks])⟩
  | this =>
    obtain ⟨-, p, hm, hs⟩ := hb
    exact ⟨p, hm, hs (by simp [Expr.sites, Site.mark, Expr.marks])⟩
  | super =>
    obtain ⟨-, p, hm, hs⟩ := hb
    exact ⟨p, hm, hs (by simp [Expr.sites, Site.mark, Expr.marks])⟩
  | superclass =>
    obtain ⟨-, p, hm, hs⟩ := hb
    exact ⟨p, hm, hs (by simp [Stmt.sites, Class.sites, Occurrence.sitesOption])⟩

theorem Begins.good {a : Activity} (h : Begins known o m a) : m.Good known o := by
  cases a <;> exact h.1

theorem Machine.Reaches.mono {o' : Origins} {p : Site} {name : String} {d : Nat}
    (h : m.Reaches o p name d) (ho : o <+: o') : m.Reaches o' p name d := by
  obtain ⟨k, hk, hlabel, hown⟩ := h
  obtain ⟨hlt, hlabel⟩ := List.getElem?_eq_some_iff.mp hlabel
  exact ⟨k, hk, by rw [← hlabel, List.prefix_iff_getElem?.mp ho k hlt], hown⟩

theorem read_of_reaches {p : Site} {use : Occurrence} {d : Nat}
    (h : m.Reaches o p use.name.lexeme d) (hd : m.distances[use.id]? = some d) :
    ∃ v, Eval.read use m = .ok v m := by
  obtain ⟨k, hk, -, hown⟩ := h
  have hholder : m.holder? use = some k := by
    rw [Machine.holder?, hd]
    exact Scopes.holderAt?_eq _ hk hown
  obtain ⟨v, hv⟩ := Option.isSome_iff_exists.mp hown
  have hlocate : Eval.locate use m = .ok k m := by
    rw [Eval.locate, get_bind, hholder]
    rfl
  refine ⟨v, ?_⟩
  rw [Eval.read, bind_of_ok hlocate, get_bind, hv]
  rfl

/-- At the site of `super` the scopes of `super` and `this` lie behind one another, and the first
one binds a class. -/
theorem superMethod_of_legal {p : Site} {keyword : Occurrence} {method : Token}
    (hm : Mirrors m o m.current p.frames) (hlegal : (Mark.super keyword).Legal m.distances p)
    {problem : RuntimeProblem} {place : Position} {m' : Machine}
    (h : Eval.superMethod keyword method m = .error (.failure (.problem problem place)) m') :
    problem = .undefinedProperty method.lexeme := by
  obtain ⟨d, hthis, hd, hsuper, -⟩ := hlegal
  obtain ⟨inner, hinner, -, hown⟩ := reaches_of_distance? hm hthis
  obtain ⟨this, hthis⟩ := Option.isSome_iff_exists.mp hown
  obtain ⟨superclass, hclass⟩ : ∃ c, m.scopes.getAt m.current (d + 1) Keyword.super.spelling =
      some (.class c) := by
    rw [Site.distance?, List.findIdx?_eq_some_iff_getElem] at hsuper
    obtain ⟨hlt, hname, -⟩ := hsuper
    obtain ⟨k, hk, hmk⟩ := hm.ancestor hlt
    rw [List.drop_eq_getElem_cons hlt] at hmk
    obtain ⟨c, hc⟩ := hmk.holds.super (List.contains_iff_mem.mp hname)
    exact ⟨c, (Scopes.getAt_eq _ hk _).trans hc⟩
  have hthis : m.scopes.getAt m.current d Keyword.this.spelling = some this :=
    (Scopes.getAt_eq _ hinner _).trans hthis
  rw [Eval.superMethod, get_bind] at h
  simp only [hd, hclass, hthis] at h
  cases hfound : superclass.method? method.lexeme with
  | some found =>
    rw [hfound] at h
    cases h
  | none =>
    rw [hfound] at h
    cases h
    rfl

/-- What begins in a good machine is aligned. -/
theorem permits_alignment {sites : List (Site × Mark)} (hsub : known ⊆ sites) :
    Permits known (alignment sites) := by
  intro o final a m ho hb hl
  have hlegal := hb.good.legal
  have reached {use : Occurrence} {d : Nat} (h : a.Reads use)
      (hd : m.distances[use.id]? = some d) :
      ∃ p : Site, (p, .read use) ∈ sites ∧ p.distance? use.name.lexeme = some d ∧
        m.Reaches final.labels p use.name.lexeme d := by
    obtain ⟨p, hm, hmem⟩ := h.site hb
    have hp : p.distance? use.name.lexeme = some d := (hlegal _ hmem).symm.trans hd
    exact ⟨p, hsub hmem, hp, (reaches_of_distance? hm hp).mono ho⟩
  refine ⟨hl, fun use d => reached, fun use d h hd => ?_, ?_⟩
  · obtain ⟨p, -, -, hp⟩ := reached h hd
    exact read_of_reaches hp hd
  · rintro fuel keyword method rfl problem place m' h
    obtain ⟨-, p, hm, hs⟩ := hb
    have hmem : (p, Mark.super keyword) ∈ known := hs (by simp [Expr.sites, Site.mark, Expr.marks])
    exact superMethod_of_legal hm (hlegal _ hmem) h

/-- **Static scopes and scopes at run time stay aligned.** For every history of a session there is
one labelling of all scopes that are ever opened, so that no program without static errors ever
begins an activity that is not aligned. -/
theorem Session.scopes_stay_aligned (clock : Nat → Float) (calls : List Call) :
    ∃ labels : Origins, labels[(start clock).machine.globals]? = some [.top] ∧
      ∀ before call later task, calls = before ++ call :: later →
        ((start clock).afterAll before).launch? call = some task → ∀ signal,
          task.watched (alignment ((start clock).sitesAll calls) ⟨labels, signal⟩)
              (((start clock).afterAll before).learned task.tree) =
            task.perform (((start clock).afterAll before).learned task.tree) :=
  exists_labels clock calls _ fun _ hsub => permits_alignment hsub

end Lox
