import AndInverter.Clausal.Learning
import AndInverter.Proofs.Clausal.Formula
import Mathlib.Data.List.Nodup

/-!
# Decision procedures

A solver decides if each of its answers is right, whatever it was asked before: no model where it
finds none, and a model of the formula and the assumptions where it finds one. The plain solver and
the one that learns decide.
-/

namespace AndInverter.Clausal

def IsModel (m : Nat → Bool) (f : Formula) (assumptions : List Literal) : Prop :=
  f.eval m = true ∧ ∀ l ∈ assumptions, l.eval m = true

namespace Solver

variable {σ : Type}

inductive Reached (s : Solver σ) (f : Formula) : σ → Prop where
  | start : Reached s f s.start
  | solve {t : σ} (h : Reached s f t) (assumptions : List Literal) :
    Reached s f ((s.solve f assumptions).run t).2

/-- After some questions about a formula the solver gives out on another one, for the reason. -/
def GivesOut (s : Solver σ) (f : Formula) (reason : String) : Prop :=
  ∃ t assumptions, s.Reached f t ∧ ((s.solve f assumptions).run t).1 = .unknown reason

def Correct (f : Formula) (assumptions : List Literal) : Outcome → Prop
  | .unsatisfiable => ∀ m, ¬ IsModel m f assumptions
  | .satisfiable m => IsModel m f assumptions
  | .unknown _ => False

/-- The solver is sound and complete under assumptions, and never gives out. -/
def Decides (s : Solver σ) : Prop :=
  ∀ f t, s.Reached f t → ∀ assumptions, Correct f assumptions ((s.solve f assumptions).run t).1

/-- Where the solver reports a model, it gives one of the formula and the assumptions. It may give
out, and miss models. -/
def GivesModels (s : Solver σ) : Prop :=
  ∀ f t, s.Reached f t → ∀ assumptions m,
    ((s.solve f assumptions).run t).1 = .satisfiable m → IsModel m f assumptions

theorem Decides.givesModels {s : Solver σ} (hs : s.Decides) : s.GivesModels := by
  intro f t ht assumptions m hm
  have hcorrect := hs f t ht assumptions
  rw [hm] at hcorrect
  exact hcorrect

theorem Decides.not_givesOut {s : Solver σ} (hs : s.Decides) (f : Formula) (reason : String) :
    ¬ s.GivesOut f reason := by
  rintro ⟨t, assumptions, ht, houtcome⟩
  have hcorrect := hs f t ht assumptions
  rw [houtcome] at hcorrect
  exact hcorrect

end Solver

variable {cs : List Clause} {c : Clause} {l k : Literal} {ls : List Literal} {m : Nat → Bool}

theorem eval_assign (hl : l.eval m = true) :
    Satisfies m (assign l cs) ↔ Satisfies m cs := by
  have hfilter (c : Clause) : Clause.eval m (c.filter (· != l.complement)) = Clause.eval m c := by
    rw [Bool.eq_iff_iff, Clause.eval, Clause.eval, List.any_eq_true, List.any_eq_true]
    constructor
    · rintro ⟨k, hk, hm⟩
      exact ⟨k, (List.mem_filter.mp hk).1, hm⟩
    · rintro ⟨k, hk, hm⟩
      refine ⟨k, List.mem_filter.mpr ⟨hk, ?_⟩, hm⟩
      rw [bne_iff_ne]
      rintro rfl
      rw [Consequence.eval_complement, hl] at hm
      cases hm
  induction cs with
  | nil => rfl
  | cons c cs ih =>
    rw [assign]
    split
    · rename_i hc
      have hm : Clause.eval m c = true := List.any_eq_true.mpr ⟨l, by simpa using hc, hl⟩
      simp only [satisfies_cons, hm, true_and, ih]
    · simp only [satisfies_cons, hfilter, ih]

theorem var_ne_of_mem_assign (hc : c ∈ assign l cs) (hk : k ∈ c) : k.var ≠ l.var := by
  induction cs with
  | nil => cases hc
  | cons d cs ih =>
    rw [assign] at hc
    split at hc
    · exact ih hc
    · rename_i hd
      rcases List.mem_cons.mp hc with rfl | hc
      · obtain ⟨hkd, hne⟩ := List.mem_filter.mp hk
        intro hvar
        rw [bne_iff_ne] at hne
        rcases k with ⟨v, b⟩
        rcases l with ⟨w, b'⟩
        cases hvar
        by_cases hb : b = b'
        · subst hb
          exact hd (by simpa using hkd)
        · refine hne ?_
          cases b <;> cases b' <;> simp_all [Literal.complement]
      · exact ih hc

theorem exists_mem_of_mem_assign (hc : c ∈ assign l cs) (hk : k ∈ c) : ∃ d ∈ cs, k ∈ d := by
  induction cs with
  | nil => cases hc
  | cons d cs ih =>
    rw [assign] at hc
    have hrec (h : c ∈ assign l cs) : ∃ d' ∈ d :: cs, k ∈ d' := by
      obtain ⟨d', hd', hk'⟩ := ih h
      exact ⟨d', List.mem_cons_of_mem d hd', hk'⟩
    split at hc
    · exact hrec hc
    · rcases List.mem_cons.mp hc with rfl | hc
      · exact ⟨d, List.mem_cons_self, (List.mem_filter.mp hk).1⟩
      · exact hrec hc

theorem eq_nil_of_shortest?_eq_none (h : shortest? cs = none) : cs = [] := by
  cases cs with
  | nil => rfl
  | cons c cs =>
    rw [shortest?] at h
    split at h
    · cases h
    · split at h <;> cases h

theorem mem_of_shortest?_eq_nil (h : shortest? cs = some []) (m : Nat → Bool) :
    ¬ Satisfies m cs := by
  intro hm
  have hnil := hm [] (mem_of_shortest? h)
  cases hnil

theorem search_of_none (hs : shortest? cs = none) : search cs = some [] := by
  rw [search]
  split <;> simp_all

theorem search_of_nil (hs : shortest? cs = some []) : search cs = none := by
  rw [search]
  split <;> simp_all

theorem search_of_cons (hs : shortest? cs = some (l :: c)) : search cs =
    match search (assign l cs) with
    | some ls => some (l :: ls)
    | none => (search (assign l.complement cs)).map (l.complement :: ·) := by
  rw [search]
  split
  · simp_all
  · simp_all
  · rename_i hs'
    rw [hs] at hs'
    cases hs'
    rfl

/-- The clauses have no model if the search fails. -/
theorem not_satisfied_of_search (h : search cs = none) (m : Nat → Bool) :
    ¬ Satisfies m cs := by
  induction cs using search.induct with
  | case1 cs hs =>
    rw [search_of_none hs] at h
    cases h
  | case2 cs hs => exact mem_of_shortest?_eq_nil hs m
  | case3 cs l tail hs ls hls ih =>
    rw [search_of_cons hs, hls] at h
    cases h
  | case4 cs l tail hs hnone ih ih' =>
    rw [search_of_cons hs, hnone, Option.map_eq_none_iff] at h
    -- A model takes one of the two branches, and neither of them found one.
    intro hm
    cases hl : l.eval m with
    | true => exact ih hnone ((eval_assign hl).mpr hm)
    | false =>
      have hl' : l.complement.eval m = true := by rw [Consequence.eval_complement, hl]; rfl
      exact ih' h ((eval_assign hl').mpr hm)

/-- What a search finds makes all clauses true. -/
theorem satisfied_of_search (h : search cs = some ls) (hm : ∀ l ∈ ls, l.eval m = true) :
    Satisfies m cs := by
  induction cs using search.induct generalizing ls with
  | case1 cs hs =>
    rw [eq_nil_of_shortest?_eq_none hs]
    exact satisfies_nil m
  | case2 cs hs =>
    rw [search_of_nil hs] at h
    cases h
  | case3 cs l tail hs ks hks ih =>
    rw [search_of_cons hs, hks] at h
    cases h
    obtain ⟨hl, hks'⟩ := List.forall_mem_cons.mp hm
    exact (eval_assign hl).mp (ih hks hks')
  | case4 cs l tail hs hnone ih ih' =>
    rw [search_of_cons hs, hnone] at h
    obtain ⟨ks, hks, rfl⟩ := Option.map_eq_some_iff.mp h
    obtain ⟨hl, hks'⟩ := List.forall_mem_cons.mp hm
    exact (eval_assign hl).mp (ih' hks hks')

def ChosenFrom (cs : List Clause) (ls : List Literal) : Prop :=
  (∀ k ∈ ls, ∃ c ∈ cs, ∃ l ∈ c, l.var = k.var) ∧ (ls.map Literal.var).Nodup

theorem ChosenFrom.cons (hl : ∃ c ∈ cs, ∃ k ∈ c, k.var = l.var)
    (h : ChosenFrom (assign l cs) ls) : ChosenFrom cs (l :: ls) := by
  refine ⟨List.forall_mem_cons.mpr ⟨hl, fun k hk => ?_⟩, ?_⟩
  · obtain ⟨c, hc, k', hk', hvar⟩ := h.1 k hk
    obtain ⟨d, hd, hkd⟩ := exists_mem_of_mem_assign hc hk'
    exact ⟨d, hd, k', hkd, hvar⟩
  · refine List.nodup_cons.mpr ⟨fun hmem => ?_, h.2⟩
    obtain ⟨k, hk, hvar⟩ := List.mem_map.mp hmem
    obtain ⟨c, hc, k', hk', hvar'⟩ := h.1 k hk
    exact var_ne_of_mem_assign hc hk' (hvar'.trans hvar)

theorem chosenFrom_of_search (h : search cs = some ls) : ChosenFrom cs ls := by
  induction cs using search.induct generalizing ls with
  | case1 cs hs =>
    rw [search_of_none hs] at h
    cases h
    exact ⟨by simp, List.nodup_nil⟩
  | case2 cs hs =>
    rw [search_of_nil hs] at h
    cases h
  | case3 cs l tail hs ks hks ih =>
    rw [search_of_cons hs, hks] at h
    cases h
    exact (ih hks).cons ⟨_, mem_of_shortest? hs, l, List.mem_cons_self, rfl⟩
  | case4 cs l tail hs hnone ih ih' =>
    rw [search_of_cons hs, hnone] at h
    obtain ⟨ks, hks, rfl⟩ := Option.map_eq_some_iff.mp h
    exact (ih' hks).cons ⟨_, mem_of_shortest? hs, l, List.mem_cons_self, rfl⟩

theorem eval_of_nodup (h : (ls.map Literal.var).Nodup) (hl : l ∈ ls) :
    l.eval (fun v => ls.contains ⟨v, true⟩) = true := by
  have hinj : ∀ k ∈ ls, k.var = l.var → k = l := fun k hk => List.inj_on_of_nodup_map h hk hl
  rcases l with ⟨v, b⟩
  cases b with
  | true => simpa [Literal.eval] using hl
  | false =>
    have hnot : ⟨v, true⟩ ∉ ls := fun h => by cases hinj _ h rfl
    simpa [Literal.eval] using hnot

theorem satisfies_iff_isModel {f : Formula} {assumptions : List Literal} :
    Satisfies m (assumptions.map ([·]) ++ f.clauses.toList) ↔ IsModel m f assumptions := by
  rw [Satisfies, List.forall_mem_append, List.forall_mem_map, and_comm, IsModel, Formula.eval,
    ← Array.all_toList, List.all_eq_true]
  simp [Clause.eval]

theorem branching_decides : Solver.branching.Decides := by
  intro f t _ assumptions
  cases hs : search (assumptions.map ([·]) ++ f.clauses.toList) with
  | none =>
    have hrun : ((Solver.branching.solve f assumptions).run t).1 = .unsatisfiable := by
      simp only [Solver.branching, hs]
      rfl
    rw [hrun]
    exact fun m hm => not_satisfied_of_search hs m (satisfies_iff_isModel.mpr hm)
  | some ls =>
    have hrun : ((Solver.branching.solve f assumptions).run t).1 =
        .satisfiable fun v => ls.contains ⟨v, true⟩ := by
      simp only [Solver.branching, hs]
      rfl
    rw [hrun]
    exact satisfies_iff_isModel.mp (satisfied_of_search hs fun l hl =>
      eval_of_nodup (chosenFrom_of_search hs).2 hl)

/-- A dead end without literals is a consequence that no assignment makes true, and a total trail is
tested. Whatever else the search finds is left to the plain solver. -/
theorem learning_decides : Solver.learning.Decides := by
  intro f t _ assumptions
  have hplain : Solver.Correct f assumptions ((Solver.branching.solve f assumptions).run t).1 :=
    branching_decides f t .start assumptions
  cases hfound : exploreAll (assumptions.map ([·]) ++ f.clauses.toList) with
  | complete trail =>
    simp only [Solver.learning, hfound]
    split
    · rename_i hm
      exact satisfies_iff_isModel.mp hm
    · exact hplain
  | deadEnd c =>
    simp only [Solver.learning, hfound]
    split
    · rename_i hc
      exact fun m hm => c.not_satisfies (List.isEmpty_iff.mp hc) m (satisfies_iff_isModel.mpr hm)
    · exact hplain

end AndInverter.Clausal
