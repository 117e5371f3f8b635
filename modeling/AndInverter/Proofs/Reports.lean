import AndInverter.Proofs.Queries
import AndInverter.Proofs.Unateness.Fitting
import AndInverter.Proofs.Unateness.Report

/-!
# Reports of both methods agree

Once the diagrams have reported about all outputs, their store holds whatever a query makes. So from
then on, and from any state before, all queries are answered, and both methods report the same.
-/

namespace AndInverter

open Clausal DiagramStore NetworkM

variable {σ : Type} {g : Graph} {n m : Network} {d : OutputDiagrams} {s t : DiagramStore}
  {P Q : DiagramStore → Prop} {R : Nat → Nat → DiagramStore → Prop} {err : Prop}
  {bits output input : Nat}

/-- What all comparisons do to a store with the functions of all outputs: they answer exactly, or
fail as `err` allows, they keep `Q` of the store and make `R` true of it. -/
structure OutputDiagrams.Progress (d : OutputDiagrams) (g : Graph) (Q : DiagramStore → Prop)
    (R : Nat → Nat → DiagramStore → Prop) (err : Prop) : Prop where
  step {s : DiagramStore} {f : Ref} {output input : Nat} : input < g.numInputs →
    d.store.Extends s → s.WellFormed → Q s → d.functions[output]? = some f →
    s.Denotes (fun y => g.truthFunction output fun i => y (i + 1)) f →
    Ensures (compareCofactors (frame d.numInputs) f (input + 1) output input) s
      (fun v s' => s.Extends s' ∧ s'.WellFormed ∧ Q s' ∧ Answers g output input v ∧
        R output input s')
      (fun _ s' => s.Extends s' ∧ s'.WellFormed ∧ Q s' ∧ err)
  mono {s s' : DiagramStore} {output input : Nat} : R output input s → s.WellFormed →
    s.Extends s' → R output input s'

def Network.Grown (g : Graph) (d : OutputDiagrams) (P : DiagramStore → Prop) (m : Network) : Prop :=
  ∃ s, m = ⟨g, some ⟨s, d.functions, d.numInputs⟩⟩ ∧ d.store.Extends s ∧ s.WellFormed ∧ P s

namespace OutputDiagrams.Progress

/-- With any number of cells, a store comes to hold what is compared. -/
theorem of_shows (hd : d.Shows g bits) : d.Progress g (fun _ => True)
    (fun output input s => s.HoldsComparison ((frame g.numInputs).read (g.truthFunction output))
      (input + 1)) True where
  step {s f output input} hinput hext hs _ _ hf := by
    refine Ensures.mono ((hd.of_extends hs hext).comparison_grows hinput output hf)
      (fun v s' ⟨hext', hs', hexact, hholds⟩ => ?_) fun e s' hfails => ?_
    · exact ⟨hext', hs', trivial, ⟨hexact.output_eq, hexact.input_eq, hexact.describes⟩, hholds⟩
    · exact ⟨hfails.grows, hfails.wellFormed, trivial, trivial⟩
  mono hholds hs hext := hholds.of_extends hs.toReduced hext

/-- Where a store holds all comparisons, a store that fits into it stays so, and nothing fails. -/
theorem of_fits (hd : d.Shows g bits) (ht : t.Reduced)
    (hholds : ∀ output < g.numOutputs, ∀ input < g.numInputs,
      t.HoldsComparison ((frame g.numInputs).read (g.truthFunction output)) (input + 1)) :
    d.Progress g (·.Fits t) (fun _ _ _ => True) False where
  step {s f output input} hinput hext hs hfits hf hden := by
    have hshows := hd.of_extends hs hext
    have houtput : output < g.numOutputs :=
      hd.size_eq ▸ (Array.getElem?_eq_some_iff.mp hf).1
    have hroom :
        FindsRoom (compareCofactors (frame d.numInputs) f (input + 1) output input) s t := by
      have hcompared := hholds output houtput input hinput
      rw [hd.numInputs_eq]
      rw [← varOf_frame hinput] at hcompared ⊢
      exact compareCofactors_findsRoom hs ht hfits (covers_frame (g.dependsOn_truthFunction output))
        (denotes_read hden) (Array.mem_range.mpr hinput) hcompared output
    refine (Ensures.and (hshows.comparison_grows hinput output hden) hroom).mono
      (fun v s' ⟨⟨hext', hs', hexact, _⟩, hfits'⟩ => ?_) fun e s' ⟨_, hfalse⟩ => hfalse.elim
    exact ⟨hext', hs', hfits', ⟨hexact.output_eq, hexact.input_eq, hexact.describes⟩, trivial⟩
  mono _ _ _ := trivial

end OutputDiagrams.Progress

def DiagramStore.Steady (P : DiagramStore → Prop) : Prop :=
  ∀ {s s' : DiagramStore}, P s → s.WellFormed → s.Extends s' → P s'

namespace Network.Grown

theorem imp {P' : DiagramStore → Prop} (hm : m.Grown g d P) (h : ∀ s, P s → P' s) :
    m.Grown g d P' := by
  obtain ⟨s, rfl, hext, hs, hP⟩ := hm
  exact ⟨s, rfl, hext, hs, h s hP⟩

/-- A query to the diagrams answers, and all that was true of the store before stays so. -/
theorem classifyByDiagrams_ensures (hp : d.Progress g Q R err) (hd : d.Shows g bits)
    (houtput : output < g.numOutputs) (hinput : input < g.numInputs) (hP : Steady P)
    (hm : m.Grown g d fun s => Q s ∧ P s) :
    Ensures (classifyByDiagrams output input) m
      (fun v m' => Answers g output input v ∧
        m'.Grown g d fun s => Q s ∧ P s ∧ R output input s)
      fun _ m' => err ∧ m'.Grown g d fun s => Q s ∧ P s := by
  obtain ⟨s, rfl, hext, hs, hQ, hPs⟩ := hm
  have hshows := hd.of_extends hs hext
  obtain ⟨f, hf, hden⟩ := hshows.denotes houtput
  have hstep := hp.step hinput hext hs hQ hf hden
  have hrun : (classifyByDiagrams output input).run ⟨g, some ⟨s, d.functions, d.numInputs⟩⟩ =
      ((OutputDiagrams.classify g output input ⟨s, d.functions, d.numInputs⟩).1,
        ⟨g, some (OutputDiagrams.classify g output input ⟨s, d.functions, d.numInputs⟩).2⟩) := rfl
  rw [hshows.classify_eq houtput hinput hf] at hrun
  dsimp only at hrun
  simp only [Ensures] at hstep ⊢
  rw [hrun]
  split at hstep
  · rename_i v s' hquery
    obtain ⟨hext', hs', hQ', hanswer, hR⟩ := hstep
    rw [hquery]
    exact ⟨hanswer, s', rfl, hext.trans hext', hs', hQ', hP hPs hs hext', hR⟩
  · rename_i e s' hquery
    obtain ⟨hext', hs', hQ', herr⟩ := hstep
    rw [hquery]
    exact ⟨herr, s', rfl, hext.trans hext', hs', hQ', hP hPs hs hext'⟩

theorem classifyInputs_ensures (hp : d.Progress g Q R err) (hd : d.Shows g bits)
    (houtput : output < g.numOutputs) (hP : Steady P) (s : Solver σ)
    (hm : m.Grown g d fun s => Q s ∧ P s) :
    Ensures (classifyInputs s output .diagrams) m
      (fun vs m' => List.Forall₂ (Answers g output) (List.range g.numInputs) vs ∧
        m'.Grown g d fun s => Q s ∧ P s ∧ ∀ input < g.numInputs, R output input s)
      fun _ m' => err ∧ m'.Grown g d fun s => Q s := by
  obtain ⟨t, rfl, hext, ht, hQ, hPt⟩ := hm
  apply Ensures.bindGet
  refine Ensures.mono (Ensures.mapM (P := fun done m => Grown g d
    (fun s => Q s ∧ P s ∧ ∀ input ∈ done, R output input s) m) (fun input done m hi hm => ?_)
    ⟨t, rfl, hext, ht, hQ, hPt, nofun⟩) (fun vs m' ⟨hvs, hm'⟩ => ⟨hvs, ?_⟩)
    fun _ _ => id
  · have hsteady : Steady fun s => P s ∧ ∀ input ∈ done, R output input s :=
      fun ⟨hPs, hR⟩ hs hext => ⟨hP hPs hs hext, fun i hi => hp.mono (hR i hi) hs hext⟩
    refine (classifyByDiagrams_ensures hp hd houtput (List.mem_range.mp hi) hsteady hm).mono
      (fun v m' ⟨hv, hm'⟩ => ⟨hv, hm'.imp fun s ⟨hQ, ⟨hPs, hR⟩, hlast⟩ => ⟨hQ, hPs, ?_⟩⟩)
      fun e m' ⟨herr, hm'⟩ => ⟨herr, hm'.imp fun _ h => h.1⟩
    intro i hi
    rcases List.mem_append.mp hi with hi | hi
    · exact hR i hi
    · rw [List.mem_singleton.mp hi]
      exact hlast
  · exact hm'.imp fun s ⟨hQ, hPs, hR⟩ => ⟨hQ, hPs, fun i hi => hR i (List.mem_range.mpr hi)⟩

end Network.Grown

/-- A report keeps what the queries about all outputs and inputs of the graph keep. -/
theorem NetworkM.keeps_report {P : Network → Prop} (hgraph : ∀ m, P m → m.graph = g)
    (h : ∀ output < g.numOutputs, ∀ input < g.numInputs, Keeps P (classifyByDiagrams output input))
    (s : Solver σ) (method : Method) : Keeps P (report s method) := by
  intro m hm
  refine (keeps_requireMethod _ method m hm).bind fun _ m hm => ?_
  apply Ensures.bindGet
  rw [hgraph m hm]
  refine Keeps.mapM (fun output houtput => ?_) m hm
  refine Keeps.bind (fun m hm => ?_) fun vs => keeps_ofExcept _ _
  apply Ensures.bindGet
  cases method with
  | satisfiability => exact keeps_ofExcept _ _ m hm
  | diagrams =>
    rw [hgraph m hm]
    exact Keeps.mapM (fun input hinput =>
      h output (List.mem_range.mp houtput) input (List.mem_range.mp hinput)) m hm

/-- A report lists the outputs in order, if the verdicts about the inputs of each output are
right. -/
theorem NetworkM.report_ensures (hg : g.WellFormed) (s : Solver σ) (method : Method)
    {I : List Nat → Network → Prop} {err : Failure → Network → Prop}
    (hrequire : (requireMethod method).run m = (.ok (), m)) (hgraph : m.graph = g)
    (h : ∀ output done m, output < g.numOutputs → I done m →
      Ensures (classifyInputs s output method) m
        (fun vs m' => List.Forall₂ (Answers g output) (List.range g.numInputs) vs ∧
          I (done ++ [output]) m') err) (hm : I [] m) :
    Ensures (report s method) m
      (fun rs m' => List.Forall₂ (fun output (r : UnatenessReport) =>
          r.Lists g output fun input => dependence (g.truthFunction output) input)
        (List.range g.numOutputs) rs ∧ I (List.range g.numOutputs) m') err := by
  unfold report
  rw [Ensures, run_bind_of_ok hrequire]
  apply Ensures.bindGet
  rw [hgraph]
  refine Ensures.mapM (fun output done m hmem hm => ?_) hm
  have houtput := List.mem_range.mp hmem
  refine (h output done m houtput hm).bind fun vs m' hvm => ?_
  obtain ⟨hvs, hm'⟩ := hvm
  obtain ⟨r, hr, hlists⟩ := UnatenessReport.ofVerdicts_lists hg houtput
    (hvs.imp fun i v hv => ⟨hv.2.1, hv.unateness_eq⟩)
  rw [hr]
  exact Ensures.result ⟨hlists, hm'⟩

/-- A solver that decides answers about all inputs, and leaves the network alone. -/
theorem NetworkM.classifyInputs_ensures_of_decides (hg : g.WellFormed) {s : Solver σ}
    (hs : s.Decides) (hgraph : m.graph = g) (houtput : output < g.numOutputs) :
    Ensures (classifyInputs s output .satisfiability) m
      (fun vs m' => List.Forall₂ (Answers g output) (List.range g.numInputs) vs ∧ m' = m)
      fun _ _ => False := by
  apply Ensures.bindGet
  obtain ⟨c, hok, hc⟩ := ConeCopies.ofOutput_covers hg houtput
  have hquery : Ensures (c.classifyInputs s) s.start
      (fun vs t => List.Forall₂ (Answers g output) (List.range g.numInputs) vs ∧
        s.Reached c.formula t) fun _ _ => False := by
    unfold ConeCopies.classifyInputs
    rw [hc.graph_eq]
    refine Ensures.mapM (P := fun _ t => s.Reached c.formula t) (fun input _ t hi ht => ?_) .start
    exact (ConeCopies.classify_ensures hg hc hs ht (List.mem_range.mp hi)).mono
      (fun _ _ ⟨ht, hv⟩ => ⟨hv, ht⟩) fun _ _ => id
  obtain ⟨vs, hvs, hall, -⟩ := hquery.exists_result
  rw [hgraph]
  dsimp only
  rw [hok, Except.ok_bind, ConeCopies.Query.answer, hvs]
  exact Ensures.result ⟨hall, rfl⟩

namespace Network.Grown

theorem graph_eq (hm : m.Grown g d P) : m.graph = g := by
  obtain ⟨s, rfl, -⟩ := hm
  rfl

theorem run_requireMethod (hm : m.Grown g d P) :
    (requireMethod .diagrams).run m = (.ok (), m) := by
  obtain ⟨s, rfl, -⟩ := hm
  rfl

theorem refusal?_eq_none (hm : m.Grown g d P) (hhashed : g.isHashed = true)
    (houtput : output < g.numOutputs) (hinput : input < g.numInputs) (method : Method) :
    m.refusal? output input method = none := by
  obtain ⟨s, rfl, -⟩ := hm
  rw [refusal?_eq_none_iff]
  exact ⟨houtput, hinput, by simp [hhashed], by simp⟩

/-- A report of the diagrams is exact. -/
theorem report_ensures (hg : g.WellFormed) (hp : d.Progress g Q R err) (hd : d.Shows g bits)
    (s : Solver σ) (hm : m.Grown g d Q) :
    Ensures (report s .diagrams) m
      (fun rs m' => List.Forall₂ (fun output (r : UnatenessReport) =>
          r.Lists g output fun input => dependence (g.truthFunction output) input)
        (List.range g.numOutputs) rs ∧
        m'.Grown g d fun s =>
          Q s ∧ ∀ output < g.numOutputs, ∀ input < g.numInputs, R output input s)
      fun _ m' => err ∧ m'.Grown g d Q := by
  refine (NetworkM.report_ensures (I := fun done m => Grown g d
    (fun s => Q s ∧ ∀ output ∈ done, ∀ input < g.numInputs, R output input s) m) hg s .diagrams
    hm.run_requireMethod hm.graph_eq (fun output done m houtput hm => ?_)
    (hm.imp fun s hQ => ⟨hQ, nofun⟩)).mono
    (fun rs m' ⟨hrs, hm'⟩ => ⟨hrs, hm'.imp fun s ⟨hQ, hR⟩ => ⟨hQ, fun o ho =>
      hR o (List.mem_range.mpr ho)⟩⟩) fun _ _ => id
  have hsteady : Steady fun s => ∀ output ∈ done, ∀ input < g.numInputs, R output input s :=
    fun hR hs hext o ho i hi => hp.mono (hR o ho i hi) hs hext
  refine (classifyInputs_ensures hp hd houtput hsteady s hm).mono
    (fun vs m' ⟨hvs, hm'⟩ => ⟨hvs, hm'.imp fun s ⟨hQ, hR, hlast⟩ => ⟨hQ, fun o ho => ?_⟩⟩)
    fun _ _ => id
  rcases List.mem_append.mp ho with ho | ho
  · exact hR o ho
  · rw [List.mem_singleton.mp ho]
    exact hlast

theorem keeps_classifyByDiagrams (hp : d.Progress g Q R err) (hd : d.Shows g bits)
    (houtput : output < g.numOutputs) (hinput : input < g.numInputs) :
    Keeps (Grown g d Q) (classifyByDiagrams output input) := by
  intro m hm
  have hquery := classifyByDiagrams_ensures (P := fun _ => True) hp hd houtput hinput
    (fun h _ _ => h) (hm.imp fun s hQ => ⟨hQ, trivial⟩)
  exact hquery.mono (fun _ _ h => h.2.imp fun _ h => h.1) fun _ _ h => h.2.imp fun _ h => h.1

theorem keeps_classify (hp : d.Progress g Q R err) (hd : d.Shows g bits) (s : Solver σ)
    (output input : Nat) (method : Method) :
    Keeps (Grown g d Q) (classify s output input method) := by
  intro m hm
  apply Ensures.of_final
  cases hrefusal : m.refusal? output input method with
  | some e =>
    rw [run_classify_of_refusal s hrefusal]
    exact hm
  | none =>
    cases method with
    | satisfiability =>
      rw [run_classify_satisfiability s hrefusal]
      exact hm
    | diagrams =>
      obtain ⟨houtput, hinput, -⟩ := refusal?_eq_none_iff.mp hrefusal
      rw [hm.graph_eq] at houtput hinput
      rw [run_classify_diagrams s hrefusal]
      exact (keeps_classifyByDiagrams hp hd houtput hinput).final hm

theorem keeps_report (hp : d.Progress g Q R err) (hd : d.Shows g bits) (s : Solver σ)
    (method : Method) : Keeps (Grown g d Q) (report s method) :=
  NetworkM.keeps_report (fun _ hm => hm.graph_eq)
    (fun _ houtput _ hinput => keeps_classifyByDiagrams hp hd houtput hinput) s method

end Network.Grown

namespace Network

/-- The networks that queries and reports lead to, refused or not, answered or not. -/
inductive Queried (n : Network) : Network → Prop where
  | start : Queried n n
  | classify {σ : Type} {m : Network} (h : Queried n m) (s : Solver σ) (output input : Nat)
    (method : Method) : Queried n ((NetworkM.classify s output input method).run m).2
  | report {σ : Type} {m : Network} (h : Queried n m) (s : Solver σ) (method : Method) :
    Queried n ((NetworkM.report s method).run m).2

theorem Reached.keeps_classifyByDiagrams {h : Graph} (houtput : output < h.numOutputs)
    (hinput : input < h.numInputs) :
    Keeps (fun m => Reached g m ∧ m.graph = h) (NetworkM.classifyByDiagrams output input) := by
  rintro ⟨_, _ | d⟩ ⟨hm, rfl⟩
  · exact ⟨hm, rfl⟩
  · have hrefusal : refusal? ⟨_, some d⟩ output input .diagrams = none :=
      refusal?_eq_none_iff.mpr ⟨houtput, hinput, by simp, by simp⟩
    have hstep := hm.classify .branching output input .diagrams
    rw [run_classify_diagrams _ hrefusal] at hstep
    exact Ensures.of_final ⟨hstep, rfl⟩

/-- Reports lead to no other networks than the queries they are made of. -/
theorem Queried.reached (hm : n.Queried m) (hn : Reached g n) : Reached g m := by
  induction hm with
  | start => exact hn
  | classify _ s output input method ih => exact ih.classify s output input method
  | @report _ m _ s method ih =>
    have hkeeps := NetworkM.keeps_report (P := fun m' => Reached g m' ∧ m'.graph = m.graph)
      (fun _ h => h.2) (fun _ houtput _ hinput =>
        Reached.keeps_classifyByDiagrams houtput hinput) s method
    exact (hkeeps.final ⟨ih, rfl⟩).1

theorem Queried.grown (hm : n.Queried m) (hp : d.Progress g Q R err) (hd : d.Shows g bits)
    (hn : n.Grown g d Q) : m.Grown g d Q := by
  induction hm with
  | start => exact hn
  | classify _ s output input method ih =>
    exact (Grown.keeps_classify hp hd s output input method).final ih
  | report _ s method ih => exact (Grown.keeps_report hp hd s method).final ih

/-- Where no query to the diagrams fails, both methods answer, and both give the same kind. -/
theorem Grown.exists_verdict (hg : g.WellFormed) (hp : d.Progress g Q R False)
    (hd : d.Shows g bits) (hm : m.Grown g d Q) (hhashed : g.isHashed = true) {s : Solver σ}
    (hs : s.Decides) (houtput : output < g.numOutputs) (hinput : input < g.numInputs)
    (method : Method) :
    ∃ v, ((NetworkM.classify s output input method).run m).1 = .ok v ∧
      v.unateness = dependence (g.truthFunction output) input := by
  have hrefusal := hm.refusal?_eq_none hhashed houtput hinput method
  cases method with
  | satisfiability =>
    obtain ⟨c, hok, hc⟩ := ConeCopies.ofOutput_covers hg houtput
    obtain ⟨v, hv, -, hanswer⟩ := (ConeCopies.classify_ensures hg hc hs .start hinput).exists_result
    refine ⟨v, ?_, hanswer.unateness_eq⟩
    rw [run_classify_satisfiability s hrefusal, hm.graph_eq, hok]
    exact hv
  | diagrams =>
    have hquery := classifyByDiagrams_ensures (P := fun _ => True) hp hd houtput hinput
      (fun h _ _ => h) (hm.imp fun s hQ => ⟨hQ, trivial⟩)
    obtain ⟨v, hv, hanswer, -⟩ := (hquery.mono (fun _ _ => id) fun _ _ => And.left).exists_result
    refine ⟨v, ?_, hanswer.unateness_eq⟩
    rw [run_classify_diagrams s hrefusal]
    exact hv

/-- Where no query to the diagrams fails, both methods report the exact dependences. -/
theorem Grown.exists_report (hg : g.WellFormed) (hp : d.Progress g Q R False)
    (hd : d.Shows g bits) (hm : m.Grown g d Q) (hhashed : g.isHashed = true) {s : Solver σ}
    (hs : s.Decides) (method : Method) :
    ∃ rs, ((NetworkM.report s method).run m).1 = .ok rs ∧
      List.Forall₂ (fun output (r : UnatenessReport) =>
          r.Lists g output fun input => dependence (g.truthFunction output) input)
        (List.range g.numOutputs) rs := by
  cases method with
  | satisfiability =>
    have hrequire : (requireMethod .satisfiability).run m = (.ok (), m) := by
      rw [NetworkM.run_requireMethod, hm.graph_eq, hhashed]
      rfl
    have hreport := NetworkM.report_ensures (I := fun _ m' => m'.graph = g) hg s .satisfiability
      hrequire hm.graph_eq (fun output done m' houtput hm' =>
        (classifyInputs_ensures_of_decides hg hs hm' houtput).mono
          (fun _ _ ⟨hvs, hm''⟩ => ⟨hvs, hm'' ▸ hm'⟩) fun _ _ => id) hm.graph_eq
    obtain ⟨rs, hrs, hlists, -⟩ := hreport.exists_result
    exact ⟨rs, hrs, hlists⟩
  | diagrams =>
    have hreport := Grown.report_ensures hg hp hd s hm
    obtain ⟨rs, hrs, hlists, -⟩ := (hreport.mono (fun _ _ => id) fun _ _ => And.left).exists_result
    exact ⟨rs, hrs, hlists⟩

/-- Reports that list the same dependences are the same. -/
theorem reports_eq {kinds : Nat → Nat → Unateness} {outputs : List Nat}
    {rs rs' : List UnatenessReport}
    (h : List.Forall₂ (fun output (r : UnatenessReport) => r.Lists g output (kinds output))
      outputs rs)
    (h' : List.Forall₂ (fun output (r : UnatenessReport) => r.Lists g output (kinds output))
      outputs rs') : rs = rs' :=
  List.right_unique_forall₂' (fun _ _ _ hr hr' => hr.eq hr') h h'

/-- Let a report of the diagrams succeed in some state of a hashed and collapsed network, and let
the solver decide. Then in all states that queries and reports lead to, and queries alone reach
them, both methods report the same, one report for each output in order, and all queries are
answered. The lists of a report name the inputs by what the queries answer. -/
theorem Reached.reports_agree (hg : g.Built) (hn : Reached g n) (hhashed : n.graph.isHashed = true)
    (hcollapsed : n.diagrams.isSome = true) {s : Solver σ} (hs : s.Decides) (hm : n.Queried m)
    {rs : List UnatenessReport} (hrs : ((NetworkM.report s .diagrams).run m).1 = .ok rs) :
    ∃ kinds : Nat → Nat → Unateness,
      List.Forall₂ (fun output (r : UnatenessReport) => r.Lists n.graph output (kinds output))
        (List.range n.graph.numOutputs) rs ∧
      ∀ m' method, n.Queried m' → Reached g m' ∧
        ((NetworkM.report s method).run m').1 = .ok rs ∧
        ∀ output < n.graph.numOutputs, ∀ input < n.graph.numInputs, ∃ v,
          ((NetworkM.classify s output input method).run m').1 = .ok v ∧
            v.unateness = kinds output input := by
  obtain ⟨d, hd⟩ := Option.isSome_iff_exists.mp hcollapsed
  have hcurrent := hn.current hg
  have hwf := hcurrent.built.wellFormed
  obtain ⟨bits, hshows⟩ := hcurrent.shows hd
  have heq : n = ⟨n.graph, some ⟨d.store, d.functions, d.numInputs⟩⟩ := by
    rcases n with ⟨graph, diagrams⟩
    exact congrArg (Network.mk graph) hd
  -- The store after the report holds all that is compared, and every store before it fits into it.
  have hgrown := hm.grown (.of_shows hshows) hshows
    ⟨d.store, heq, .refl d.store, hshows.wellFormed, trivial⟩
  have hreport := Grown.report_ensures hwf (.of_shows hshows) hshows s hgrown
  obtain ⟨hlists, t, -, hext, ht, -, hholds⟩ := hreport.of_toOption_eq (by rw [hrs]; rfl)
  have hprogress := OutputDiagrams.Progress.of_fits hshows ht.toReduced hholds
  have hfits : n.Grown n.graph d (·.Fits t) :=
    ⟨d.store, heq, .refl d.store, hshows.wellFormed, .of_extends hshows.wellFormed.toReduced hext⟩
  refine ⟨_, hlists, fun m' method hm' => ?_⟩
  have hgrown' := hm'.grown hprogress hshows hfits
  obtain ⟨rs', hrs', hlists'⟩ := hgrown'.exists_report hwf hprogress hshows hhashed hs method
  rw [hrs', reports_eq hlists' hlists]
  exact ⟨hm'.reached hn, rfl, fun output houtput input hinput =>
    hgrown'.exists_verdict hwf hprogress hshows hhashed hs houtput hinput method⟩

end Network

def Graph.shadowed : Graph :=
  let g := ((Build.input (some "a")).run .empty).2
  let g := ((Build.input (some "b")).run g).2
  let g := ((Build.gate ⟨1, false⟩ ⟨2, false⟩).run g).2
  let g := ((Build.gate ⟨1, true⟩ ⟨2, false⟩).run g).2
  let g := ((Build.gate ⟨3, true⟩ ⟨4, true⟩).run g).2
  let g := ((Build.output ⟨5, true⟩ (some "y")).run g).2
  ((Build.output ⟨2, true⟩ (some "z")).run g).2

theorem Graph.shadowed_built : shadowed.Built :=
  .output (.output (.gate (.gate (.gate (.input (.input .empty _) _) _ _) _ _) _ _) _ _) _ _

theorem Graph.isHashed_shadowed : shadowed.isHashed = true := by
  rw [isHashed, Bool.and_eq_true, distinctPairs_iff]
  exact ⟨by decide +kernel, by decide +kernel, fun _ _ => Std.HashSet.not_mem_empty⟩

namespace Network

def shadowed : Network := ((NetworkM.collapse 3).run ⟨Graph.shadowed, none⟩).2

/-- An input that does not matter is in both lists, by either method. -/
theorem Reached.reports_agree_shadowed :
    Graph.shadowed.Built ∧ Reached .shadowed shadowed ∧ shadowed.graph.isHashed = true ∧
      shadowed.diagrams.isSome = true ∧ Solver.branching.Decides ∧ shadowed.Queried shadowed ∧
      ∃ rs, ((NetworkM.report .branching .diagrams).run shadowed).1 = .ok rs ∧
        ((NetworkM.report .branching .satisfiability).run shadowed).1 = .ok rs ∧
        rs.map UnatenessReport.positive = [["a", "b"], ["a"]] ∧
        rs.map UnatenessReport.negative = [["a"], ["a", "b"]] := by
  have hreached : Reached .shadowed shadowed := .collapse .start 3
  have hhashed : shadowed.graph.isHashed = true := by
    rw [shadowed, NetworkM.graph_collapse]
    exact Graph.isHashed_shadowed
  have hcollapsed : shadowed.diagrams.isSome = true := by decide +kernel
  have heval : ((NetworkM.report .branching .diagrams).run shadowed).1.toOption.any (fun rs =>
      rs.map UnatenessReport.positive = [["a", "b"], ["a"]] ∧
        rs.map UnatenessReport.negative = [["a"], ["a", "b"]]) = true := by decide +kernel
  obtain ⟨rs, hrs, hlists⟩ := Except.exists_eq_ok_of_any heval
  obtain ⟨kinds, -, hall⟩ := Reached.reports_agree Graph.shadowed_built hreached hhashed hcollapsed
    branching_decides .start hrs
  exact ⟨Graph.shadowed_built, hreached, hhashed, hcollapsed, branching_decides, .start, rs, hrs,
    (hall shadowed .satisfiability .start).2.1, of_decide_eq_true hlists⟩

end Network

end AndInverter
