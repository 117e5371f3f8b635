import AndInverter.Proofs.Unateness.Carrying

/-!
# Answers do not depend on the storage

A larger store builds the same diagrams, and every verdict that a smaller store reaches is reached
in it as well, whatever was asked before and whether or not it was answered.
-/

namespace AndInverter

open DiagramStore DiagramQuery

variable {s s' : DiagramStore} {bits bits' : Nat}

theorem emptyStore_eq_ok_iff :
    emptyStore bits = .ok s ↔ (1 ≤ bits ∧ bits ≤ 31) ∧ s = ofBits bits := by
  by_cases hbits : 1 ≤ bits ∧ bits ≤ 31
  · rw [emptyStore_of_bounds hbits]
    exact ⟨fun h => ⟨hbits, (Except.ok.inj h).symm⟩, fun h => congrArg Except.ok h.2.symm⟩
  · rw [emptyStore_of_not_bounds hbits]
    exact ⟨fun h => (by cases h), fun h => absurd h.1 hbits⟩

theorem buildIn_eq_ok_iff {α β : Type} {build : DiagramQuery α} {finish : α → DiagramStore → β}
    {b : β} : buildIn bits build finish = .ok b ↔
      ∃ s a s', emptyStore bits = .ok s ∧ build.run s = (.ok a, s') ∧ b = finish a s' := by
  unfold buildIn
  rw [Except.bind_eq_ok_iff]
  constructor
  · rintro ⟨s, hs, hrun⟩
    split at hrun
    · rename_i a s' hbuild
      exact ⟨s, a, s', hs, hbuild, Except.pure_eq_ok_iff.mp hrun⟩
    · cases hrun
  · rintro ⟨s, a, s', hs, hrun, rfl⟩
    refine ⟨s, hs, ?_⟩
    rw [hrun]
    rfl

/-- What is built in a store is built in a larger one, with the same result. -/
theorem exists_buildIn_of_le {α β : Type} {build : DiagramQuery α}
    {finish : α → DiagramStore → β} {b : β}
    (hcarries : ∀ s s' : DiagramStore, s.WellFormed → s'.WellFormed → Roomier False s s' →
      Carries False (build.run s) (build.run s'))
    (hle : bits ≤ bits') (hbits' : bits' ≤ 31) (hb : buildIn bits build finish = .ok b) :
    ∃ a s s', b = finish a s ∧ buildIn bits' build finish = .ok (finish a s') ∧
      Roomier False s s' := by
  obtain ⟨s, a, t, hs, hrun, rfl⟩ := buildIn_eq_ok_iff.mp hb
  obtain ⟨hbits, rfl⟩ := emptyStore_eq_ok_iff.mp hs
  have hpos := Nat.le_trans hbits.1 hle
  have h := hcarries (ofBits bits) (ofBits bits') (wellFormed_ofBits hbits.1 hbits.2)
    (wellFormed_ofBits hpos hbits') (roomier_ofBits hbits.1 hle)
  rw [hrun] at h
  obtain ⟨hr, hroom⟩ := h.ok rfl
  refine ⟨a, t, _, rfl, buildIn_eq_ok_iff.mpr ⟨ofBits bits', a, _, ?_, Prod.ext hr rfl, rfl⟩, hroom⟩
  exact emptyStore_eq_ok_iff.mpr ⟨⟨hpos, hbits'⟩, rfl⟩

namespace OutputDiagrams

variable {g : Graph} {d d' : OutputDiagrams}

theorem drawOutputs_carries {ahead : Prop} (hg : g.WellFormed) (hs : s.WellFormed)
    (hs' : s'.WellFormed) (h : Roomier ahead s s') :
    Carries ahead ((drawOutputs g).run s) ((drawOutputs g).run s') := by
  have hlift (x : Except Failure (Array Ref)) : (liftExcept x : DiagramQuery _) = liftM x := by
    cases x with
    | ok _ => rfl
    | error _ => rfl
  unfold drawOutputs
  simp only [hlift]
  exact Graph.bindNodeFunctions_carries hg hg.drawable hs hs' h _

def subject (d : OutputDiagrams) (h : Graph) (output input : Nat) : Except Failure Ref := do
  h.requireOutput output
  h.requireInput input
  if (d.functions.size, d.numInputs) ≠ (h.numOutputs, h.numInputs) then
    throw (.fault .foreignDiagrams)
  match d.functions[output]? with
  | some f => return f
  | none => throw (.fault .outOfRange)

theorem classify_eq (d : OutputDiagrams) (h : Graph) (output input : Nat) :
    d.classify h output input =
      let query : DiagramQuery Verdict := do
        let f ← d.subject h output input
        compareCofactors (frame d.numInputs) f (input + 1) output input
      ((query.run d.store).1, ⟨(query.run d.store).2, d.functions, d.numInputs⟩) := by
  rw [OutputDiagrams.classify, subject]
  cases h.requireOutput output with
  | error e => rfl
  | ok _ =>
    cases h.requireInput input with
    | error e => rfl
    | ok _ =>
      by_cases hsame : (d.functions.size, d.numInputs) ≠ (h.numOutputs, h.numInputs)
      · simp only [if_pos hsame]
        rfl
      · simp only [if_neg hsame]
        cases d.functions[output]? with
        | none => rfl
        | some f => rfl

theorem classify_of_refused {h : Graph} {output input : Nat} {e : Failure}
    (he : d.subject h output input = .error e) : d.classify h output input = (.error e, d) := by
  rw [classify_eq, he]
  rfl

theorem classify_of_subject {h : Graph} {output input : Nat} {f : Ref}
    (hf : d.subject h output input = .ok f) :
    d.classify h output input =
      (((compareCofactors (frame d.numInputs) f (input + 1) output input).run d.store).1,
        ⟨((compareCofactors (frame d.numInputs) f (input + 1) output input).run d.store).2,
          d.functions, d.numInputs⟩) := by
  have hlift : (liftM (Except.ok f : Except Failure Ref) : DiagramQuery Ref).run d.store =
      (.ok f, d.store) := rfl
  rw [classify_eq, hf]
  dsimp only
  rw [run_bind_of_ok hlift]

theorem subject_eq_ok_iff {h : Graph} {output input : Nat} {f : Ref} :
    d.subject h output input = .ok f ↔
      (output < h.numOutputs ∧ input < h.numInputs) ∧
        (d.functions.size, d.numInputs) = (h.numOutputs, h.numInputs) ∧
        d.functions[output]? = some f := by
  unfold subject Graph.requireOutput Graph.requireInput
  by_cases houtput : output < h.numOutputs
  · by_cases hinput : input < h.numInputs
    · rw [if_pos houtput, if_pos hinput, Except.ok_bind, Except.ok_bind, Except.guard_eq_ok_iff,
        not_not]
      cases d.functions[output]? with
      | some q =>
        rw [Except.pure_eq_ok_iff, Option.some.injEq, eq_comm (a := f)]
        exact ⟨fun h => ⟨⟨houtput, hinput⟩, h⟩, And.right⟩
      | none => simp [throw, throwThe, MonadExceptOf.throw]
    · rw [if_pos houtput, if_neg hinput]
      exact ⟨fun h => (by cases h), fun h => absurd h.1.2 hinput⟩
  · rw [if_neg houtput]
    exact ⟨fun h => (by cases h), fun h => absurd h.1.1 houtput⟩

/-- The same functions, in a store of `2 ^ bits` cells and in one with more room. -/
structure Matches (g : Graph) (bits bits' : Nat) (d d' : OutputDiagrams) : Prop where
  shows : d.Shows g bits
  shows' : d'.Shows g bits'
  functions_eq : d'.functions = d.functions
  roomier : Roomier True d.store d'.store

namespace Matches

theorem classify (hd : Matches g bits bits' d d') (h : Graph) (output input : Nat) :
    Matches g bits bits' (d.classify h output input).2 (d'.classify h output input).2 ∧
      ∀ v, (d.classify h output input).1 = .ok v → (d'.classify h output input).1 = .ok v := by
  have hinputs : d'.numInputs = d.numInputs :=
    hd.shows'.numInputs_eq.trans hd.shows.numInputs_eq.symm
  have hsubject : d'.subject h output input = d.subject h output input := by
    rw [subject, subject, hd.functions_eq, hinputs]
  cases hf : d.subject h output input with
  | error e =>
    rw [classify_of_refused hf, classify_of_refused (hsubject.trans hf)]
    exact ⟨hd, fun v hv => (by cases hv)⟩
  | ok f =>
    rw [classify_of_subject hf, classify_of_subject (hsubject.trans hf), hd.functions_eq, hinputs]
    obtain ⟨⟨houtput, hinput⟩, hsame, hf⟩ := subject_eq_ok_iff.mp hf
    obtain ⟨hsize, hnum⟩ := Prod.mk.inj hsame
    rw [← hsize] at houtput
    rw [← hnum] at hinput
    obtain ⟨f', hf', hden⟩ := hd.shows.denotes (hd.shows.size_eq ▸ houtput)
    rw [hf] at hf'
    cases hf'
    have hden' := hden.of_includes hd.shows.wellFormed.toReduced hd.roomier.toIncludes
    have hquery := hd.shows.comparison_grows (hd.shows.numInputs_eq ▸ hinput) output hden
    have hquery' := hd.shows'.comparison_grows (hd.shows.numInputs_eq ▸ hinput) output hden'
    have hcarries := compareCofactors_carries hd.shows.wellFormed hd.shows'.wellFormed hd.roomier
      hden.holds (Nat.succ_ne_zero input) (frame d.numInputs) output input
    rw [hinputs] at hquery'
    obtain ⟨hext, hs⟩ := hquery.final_extends
    obtain ⟨hext', hs'⟩ := hquery'.final_extends
    have hshows' := hd.shows'.of_extends hs' hext'
    rw [hinputs] at hshows'
    rw [hd.functions_eq] at hshows'
    exact ⟨⟨hd.shows.of_extends hs hext, hshows', rfl, hcarries.roomier⟩,
      fun v hv => (hcarries.ok hv).1⟩

end Matches

/-- What is built in the smaller store is built in the larger one, by the same nodes. -/
theorem exists_ofGraph (hg : g.WellFormed) (hle : bits ≤ bits') (hbits' : bits' ≤ 31)
    (hd : ofGraph g bits = .ok d) :
    ∃ d', ofGraph g bits' = .ok d' ∧ d'.store.size = d.store.size ∧ Matches g bits bits' d d' := by
  have hshows := (ofGraph_yields hg bits).of_eq_ok hd
  obtain ⟨functions, t, t', rfl, hd', hroom⟩ := exists_buildIn_of_le
    (fun s s' hs hs' h => drawOutputs_carries hg hs hs' h) hle hbits' hd
  have hshows' := (ofGraph_yields hg bits').of_eq_ok hd'
  exact ⟨_, hd', hroom.size_eq.resolve_right And.right, hshows, hshows', rfl, hroom.ahead_true⟩

def after (d : OutputDiagrams) (queries : List (Graph × Nat × Nat)) : OutputDiagrams :=
  queries.foldl (fun d q => (d.classify q.1 q.2.1 q.2.2).2) d

theorem Matches.after (hd : Matches g bits bits' d d') (queries : List (Graph × Nat × Nat)) :
    Matches g bits bits' (d.after queries) (d'.after queries) := by
  induction queries generalizing d d' with
  | nil => exact hd
  | cons q queries ih => exact ih (hd.classify q.1 q.2.1 q.2.2).1

end OutputDiagrams

namespace ConeDiagram

variable {g : Graph} {d d' : ConeDiagram} {output : Nat}

theorem drawRoot_carries {ahead : Prop} (hg : g.WellFormed) {root : Nat} {c : Cone}
    (hroot : root < g.size) (hc : g.IsCone root c) {varOf : Nat → Nat}
    (hvar : ∀ i ∈ g.coneInputs c, varOf i ≠ 0) (hs : s.WellFormed) (hs' : s'.WellFormed)
    (h : Roomier ahead s s') :
    Carries ahead ((drawRoot g varOf c root).run s) ((drawRoot g varOf c root).run s') :=
  Graph.bindNodeFunctions_carries hg (hc.drawable hg hroot hvar) hs hs' h fun built =>
    Graph.outputFunction built root

structure Matches (g : Graph) (output bits bits' : Nat) (d d' : ConeDiagram) : Prop where
  shows : d.Shows g output bits
  shows' : d'.Shows g output bits'
  function_eq : d'.function = d.function
  frame_eq : d'.frame = d.frame
  roomier : Roomier True d.store d'.store

namespace Matches

theorem classify (hd : Matches g output bits bits' d d') (h : Graph) (input : Nat) :
    Matches g output bits bits' (d.classify h input).2 (d'.classify h input).2 ∧
      ∀ v, (d.classify h input).1 = .ok v → (d'.classify h input).1 = .ok v := by
  by_cases hinput : input < h.numInputs
  case neg =>
    rw [classify_of_refused d hinput, classify_of_refused d' hinput]
    exact ⟨hd, fun v hv => (by cases hv)⟩
  have houtput : d'.output = d.output := hd.shows'.output_eq.trans hd.shows.output_eq.symm
  by_cases hv : d.frame.varOf input = 0
  case pos =>
    have hv' : d'.frame.varOf input = 0 := hd.frame_eq ▸ hv
    rw [classify_of_varOf_eq_zero hinput hv, classify_of_varOf_eq_zero hinput hv', houtput]
    exact ⟨hd, fun v hv => hv⟩
  have hv' : d'.frame.varOf input ≠ 0 := hd.frame_eq ▸ hv
  have hcarries := compareCofactors_carries hd.shows.wellFormed hd.shows'.wellFormed hd.roomier
    hd.shows.denotes.holds hv d.frame d.output input
  obtain ⟨hext, hs⟩ := (hd.shows.comparison_grows hv).final_extends
  obtain ⟨hext', hs'⟩ := (hd.shows'.comparison_grows hv').final_extends
  have hshows' := hd.shows'.of_extends hs' hext'
  rw [hd.frame_eq, hd.function_eq, houtput] at hshows'
  rw [classify_of_varOf_ne_zero hinput hv, classify_of_varOf_ne_zero hinput hv', hd.frame_eq,
    hd.function_eq, houtput]
  exact ⟨⟨hd.shows.of_extends hs hext, hshows', rfl, rfl, hcarries.roomier⟩,
    fun v hv => (hcarries.ok hv).1⟩

end Matches

theorem exists_ofOutput (hg : g.WellFormed) (houtput : output < g.numOutputs) (hle : bits ≤ bits')
    (hbits' : bits' ≤ 31) (hd : ofOutput g output bits = .ok d) :
    ∃ d', ofOutput g output bits' = .ok d' ∧ d'.store.size = d.store.size ∧
      Matches g output bits bits' d d' := by
  have hshows := (ofOutput_yields hg houtput bits).of_eq_ok hd
  obtain ⟨root, c, hid, -, hcone, heq⟩ := exists_ofOutput_eq hg houtput
  rw [heq] at hd
  obtain ⟨function, t, t', rfl, hd', hroom⟩ := exists_buildIn_of_le
    (fun s s' hs hs' h => drawRoot_carries hg (hg.output_lt hid) hcone
      (fun i hi => varOf_coneInputs_ne_zero g c hi) hs hs' h) hle hbits' hd
  rw [← heq] at hd'
  have hshows' := (ofOutput_yields hg houtput bits').of_eq_ok hd'
  exact ⟨_, hd', hroom.size_eq.resolve_right And.right, hshows, hshows', rfl, rfl, hroom.ahead_true⟩

def after (d : ConeDiagram) (queries : List (Graph × Nat)) : ConeDiagram :=
  queries.foldl (fun d q => (d.classify q.1 q.2).2) d

theorem Matches.after (hd : Matches g output bits bits' d d') (queries : List (Graph × Nat)) :
    Matches g output bits bits' (d.after queries) (d'.after queries) := by
  induction queries generalizing d d' with
  | nil => exact hd
  | cons q queries ih => exact ih (hd.classify q.1 q.2).1

theorem lt_numOutputs_of_ofOutput (hd : ofOutput g output bits = .ok d) :
    output < g.numOutputs := by
  by_contra houtput
  have hrequire : g.requireOutput output =
      .error (.error (.outputOutOfRange output g.numOutputs)) := if_neg houtput
  rw [ofOutput, hrequire] at hd
  cases hd

end ConeDiagram

/-- With more bits nothing changes but that an operation, a construction or a query may succeed that
is denied a cell before. What succeeds comes to the same references, numbers of nodes and verdicts,
also after queries that succeed only with more bits. -/
theorem answers_with_room (hle : bits ≤ bits') (hbits' : bits' ≤ 31) :
    (∀ steps s, Succeeds bits steps s → ∃ s', Succeeds bits' steps s') ∧
    ∀ g : Graph, g.Built →
      (∀ d, OutputDiagrams.ofGraph g bits = .ok d →
        ∃ d', OutputDiagrams.ofGraph g bits' = .ok d' ∧ d'.functions = d.functions ∧
          d'.numInputs = d.numInputs ∧ d'.store.size = d.store.size ∧
          ∀ queries h output input v, ((d.after queries).classify h output input).1 = .ok v →
            ((d'.after queries).classify h output input).1 = .ok v) ∧
      ∀ output d, ConeDiagram.ofOutput g output bits = .ok d →
        ∃ d', ConeDiagram.ofOutput g output bits' = .ok d' ∧ d'.output = d.output ∧
          d'.function = d.function ∧ d'.frame = d.frame ∧ d'.store.size = d.store.size ∧
          ∀ queries h input v, ((d.after queries).classify h input).1 = .ok v →
            ((d'.after queries).classify h input).1 = .ok v := by
  refine ⟨fun steps s hs => ?_, fun g hg => ⟨fun d hd => ?_, fun output d hd => ?_⟩⟩
  · obtain ⟨-, s', hs', -⟩ := hs.with_room hle hbits'
    exact ⟨s', hs'⟩
  · obtain ⟨d', hd', hsize, hmatches⟩ :=
      OutputDiagrams.exists_ofGraph hg.wellFormed hle hbits' hd
    refine ⟨d', hd', hmatches.functions_eq, ?_, hsize, fun queries h output input => ?_⟩
    · rw [hmatches.shows'.numInputs_eq, hmatches.shows.numInputs_eq]
    · exact ((hmatches.after queries).classify h output input).2
  · have houtput := ConeDiagram.lt_numOutputs_of_ofOutput hd
    obtain ⟨d', hd', hsize, hmatches⟩ :=
      ConeDiagram.exists_ofOutput hg.wellFormed houtput hle hbits' hd
    refine ⟨d', hd', ?_, hmatches.function_eq, hmatches.frame_eq, hsize, fun queries h input => ?_⟩
    · rw [hmatches.shows'.output_eq, hmatches.shows.output_eq]
    · exact ((hmatches.after queries).classify h input).2

/-- What fits into eight cells comes out the same with a million: two variables and their
conjunction, and the diagrams of two outputs with their answers. -/
theorem answers_with_room_twoOutputs : 3 ≤ 20 ∧ 20 ≤ 31 ∧
    (∃ s, Succeeds 20 [(.and ⟨2⟩ ⟨3⟩, ⟨4⟩, 4), (.var 2, ⟨3⟩, 3), (.var 1, ⟨2⟩, 2)] s) ∧
    ∃ d v, OutputDiagrams.ofGraph .twoOutputs 20 = .ok d ∧
      ((d.after [(.twoOutputs, 7, 0)]).classify .twoOutputs 1 0).1 = .ok v ∧
      v.unateness = .negative := by
  have hle : 3 ≤ 20 := by decide
  have hbits' : 20 ≤ 31 := by decide
  obtain ⟨hsteps, hgraph⟩ := answers_with_room hle hbits'
  refine ⟨hle, hbits', ?_, ?_⟩
  · have hvars : Succeeds 3 [(.var 2, ⟨3⟩, 3), (.var 1, ⟨2⟩, 2)] _ :=
      (Succeeds.next (.start rfl) (by decide) (Except.eq_ok_of_toOption (by decide +kernel))
        (by decide +kernel)).next (by decide) (Except.eq_ok_of_toOption (by decide +kernel))
        (by decide +kernel)
    exact hsteps _ _ (hvars.next (by decide +kernel)
      (Except.eq_ok_of_toOption (by decide +kernel)) (by decide +kernel))
  · have heval : (OutputDiagrams.ofGraph .twoOutputs 3).toOption.any (fun d =>
        ((d.after [(.twoOutputs, 7, 0)]).classify .twoOutputs 1 0).1.toOption.any
          fun v => v.unateness = .negative) = true := by decide +kernel
    obtain ⟨d, hd, heval⟩ := Except.exists_eq_ok_of_any heval
    obtain ⟨v, hv, hnegative⟩ := Except.exists_eq_ok_of_any heval
    obtain ⟨d', hd', -, -, -, hsame⟩ := (hgraph _ Graph.twoOutputs_built).1 d hd
    exact ⟨d', v, hd', hsame _ _ _ _ v hv, of_decide_eq_true hnegative⟩

end AndInverter
