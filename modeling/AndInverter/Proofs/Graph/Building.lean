import AndInverter.Aiger.Reader
import AndInverter.Proofs.Contract
import AndInverter.Proofs.Graph.WellFormed

/-!
# Building keeps graphs well-formed

Every operation that adds nodes keeps a graph well-formed, also when it is denied half way. So do
hashing and reading, and all graphs that come about in these ways are well-formed.
-/

namespace AndInverter

open AndInverter.Graph

namespace Build

variable {g : Graph} {a b e : Edge}

theorem ensures_checkFanin (g : Graph) (e : Edge) :
    Ensures (checkFanin e) g (fun _ g' => g' = g ∧ g.Drives e)
      fun _ g' => g' = g ∧ ¬ g.Drives e := by
  refine Ensures.bindGet ?_
  cases hn : g.nodes[e.node]? with
  | none =>
    refine Ensures.failure ⟨rfl, ?_⟩
    rintro ⟨n, hn', -⟩
    rw [hn] at hn'
    cases hn'
  | some n =>
    by_cases hout : n.isOutput = true
    · simp only [hout, if_true]
      refine Ensures.failure ⟨rfl, ?_⟩
      rintro ⟨m, hm, hnot⟩
      rw [hn] at hm
      cases hm
      rw [hout] at hnot
      cases hnot
    · simp only [hout]
      exact Ensures.result ⟨rfl, n, hn, by simpa using hout⟩

theorem ensures_gate (g : Graph) (a b : Edge) :
    Ensures (gate a b) g (fun e g' => g.Drives a ∧ g.Drives b ∧ g.withGate a b = (e, g'))
      fun _ g' => g' = g ∧ ¬ (g.Drives a ∧ g.Drives b) := by
  refine Ensures.bind ((ensures_checkFanin g a).mono (fun _ _ h => h)
    fun _ _ h => ⟨h.1, fun hab => h.2 hab.1⟩) ?_
  rintro - g' ⟨rfl, ha⟩
  refine Ensures.bind ((ensures_checkFanin g' b).mono (fun _ _ h => h)
    fun _ _ h => ⟨h.1, fun hab => h.2 hab.2⟩) ?_
  rintro - g'' ⟨rfl, hb⟩
  exact Ensures.updateGet ⟨ha, hb, rfl⟩

/-- Sorted edges whose conjunction is not trivial can be the fanins of a hashed gate. -/
theorem proper_of_trivial?_eq_none (h : trivial? a b = none) (hab : a.literal ≤ b.literal) :
    a.literal < b.literal ∧ properPair (a, b) = true := by
  rcases a with ⟨m, c⟩
  rcases b with ⟨n, d⟩
  simp only [trivial?, Edge.constant, Edge.complement, Edge.mk.injEq] at h
  simp only [Edge.literal, properPair, Edge.isConstant] at hab ⊢
  split at h
  · cases h
  split at h
  · cases h
  split at h
  · cases h
  cases c <;> cases d <;> simp_all <;> omega

/-- The ways in which the conjunction of a sorted pair comes about: without a gate, by the gate that
is hashed for the pair, or by a new one. -/
inductive Conjoins (g : Graph) (p : Edge × Edge) : Edge → Graph → Prop where
  | trivial {e : Edge} : trivial? p.1 p.2 = some e → Conjoins g p e g
  | found {id : Nat} : trivial? p.1 p.2 = none → g.hashed[p]? = some id →
    Conjoins g p (.plain id) g
  | added : trivial? p.1 p.2 = none → g.hashed[p]? = none → g.Drives p.1 → g.Drives p.2 →
    Conjoins g p (.plain g.size)
      { g.push (.gate p.1 p.2) with hashed := g.hashed.insert p g.size }

theorem ensures_and (g : Graph) (a b : Edge) :
    Ensures (and a b) g (Conjoins g (Edge.sorted a b))
      fun _ g' => g' = g ∧ ¬ (g.Drives (Edge.sorted a b).1 ∧ g.Drives (Edge.sorted a b).2) := by
  simp only [and]
  cases ht : trivial? (Edge.sorted a b).1 (Edge.sorted a b).2 with
  | some e => exact Ensures.result (.trivial ht)
  | none =>
    refine Ensures.bindGet ?_
    cases hh : g.hashed[((Edge.sorted a b).1, (Edge.sorted a b).2)]? with
    | some id => exact Ensures.result (.found ht hh)
    | none =>
      refine (ensures_gate g _ _).bind ?_
      rintro e g' ⟨ha, hb, he⟩
      cases he
      refine Ensures.bind (Ensures.update ?_) fun _ _ h => Ensures.result h
      exact .added ht hh ha hb

theorem sorted_le (a b : Edge) : (Edge.sorted a b).1.literal ≤ (Edge.sorted a b).2.literal := by
  simp only [Edge.sorted]
  split
  · assumption
  · rename_i h
    exact Nat.le_of_not_le h

theorem Conjoins.wellFormed {g' : Graph} {p : Edge × Edge} (h : Conjoins g p e g')
    (hle : p.1.literal ≤ p.2.literal) (hg : g.WellFormed) : g'.WellFormed := by
  cases h with
  | trivial => exact hg
  | found => exact hg
  | added ht _ ha hb =>
    have hp := proper_of_trivial?_eq_none ht hle
    have hnew : (g.push (.gate p.1 p.2)).nodes[g.size]? = some (.gate p.1 p.2) := by
      simp [push, Graph.size]
    exact (hg.withGate ha hb).withHashed hnew hp.1 hp.2

theorem keeps_and (a b : Edge) : Keeps WellFormed (and a b) := fun g hg =>
  (ensures_and g a b).mono (fun _ _ h => h.wellFormed (sorted_le a b) hg) fun _ _ h => h.1 ▸ hg

theorem keeps_gate (a b : Edge) : Keeps WellFormed (gate a b) := by
  intro g hg
  refine (ensures_gate g a b).mono ?_ fun _ _ h => h.1 ▸ hg
  rintro e g' ⟨ha, hb, he⟩
  cases he
  exact hg.withGate ha hb

theorem keeps_input (name : Option String) : Keeps WellFormed (input name) :=
  fun _ hg => Ensures.updateGet (hg.withInput _)

theorem ensures_output (g : Graph) (e : Edge) (name : Option String) :
    Ensures (output e name) g
      (fun i g' => g.Drives e ∧ g.withOutput e (name.getD g.nextOutputName) = (i, g'))
      fun _ g' => g' = g ∧ ¬ g.Drives e := by
  refine (ensures_checkFanin g e).bind ?_
  rintro - g' ⟨rfl, he⟩
  exact Ensures.updateGet ⟨he, rfl⟩

theorem keeps_output (e : Edge) (name : Option String) : Keeps WellFormed (output e name) := by
  intro g hg
  refine (ensures_output g e name).mono ?_ fun _ _ h => h.1 ▸ hg
  rintro i g' ⟨he, hi⟩
  cases hi
  exact hg.withOutput he _

theorem keeps_or (a b : Edge) : Keeps WellFormed (or a b) :=
  (keeps_and _ _).bind fun _ => Keeps.result _

theorem keeps_xor (a b : Edge) : Keeps WellFormed (xor a b) :=
  (keeps_and _ _).bind fun _ => (keeps_and _ _).bind fun _ => keeps_or _ _

theorem keeps_mux (s t e : Edge) : Keeps WellFormed (mux s t e) :=
  (keeps_and _ _).bind fun _ => (keeps_and _ _).bind fun _ => keeps_or _ _

end Build

namespace Graph

variable {g : Graph}

theorem keeps_image (images : Array (Option Edge)) (e : Edge) :
    Keeps WellFormed (image images e) := by
  simp only [image]
  split
  · exact Keeps.result _
  · exact Keeps.failure _

theorem keeps_scanM {β : Type} {f : Array β → Node → Build β}
    (h : ∀ earlier n, Keeps WellFormed (f earlier n)) : Keeps WellFormed (g.scanM f) := by
  rw [scanM, ← Array.foldlM_toList]
  exact Keeps.foldlM (fun earlier n => (h earlier n).bind fun _ => Keeps.result _) _ _

theorem keeps_rehashInto (g : Graph) : Keeps WellFormed g.rehashInto := by
  simp only [rehashInto]
  refine Keeps.bind ?_ fun inputs => Keeps.bind (keeps_scanM fun earlier n => ?_) fun images => ?_
  · rw [Array.mapM_eq_foldlM, ← Array.foldlM_toList]
    exact Keeps.foldlM (fun _ _ => (Build.keeps_input _).map _) _ _
  · cases n with
    | constant => exact Keeps.result _
    | input i => exact Keeps.result _
    | output i e => exact Keeps.result _
    | gate a b =>
      dsimp only
      split
      · exact (keeps_image _ _).bind fun _ => (keeps_image _ _).bind fun _ =>
          (Build.keeps_and _ _).bind fun _ => Keeps.result _
      · exact Keeps.result _
  · rw [← Array.forIn_toList]
    refine (Keeps.forIn (fun p _ => ?_) _ _).bind fun _ => Keeps.result _
    split
    · exact (keeps_image _ _).bind fun _ => ((Build.keeps_output _ _).map _).bind fun _ =>
        Keeps.result _
    · exact Keeps.result _

theorem rehash_wellFormed {h : Graph} (hr : g.rehash = .ok h) : h.WellFormed := by
  have hk := (keeps_rehashInto g).final empty_wellFormed
  simp only [rehash] at hr
  split at hr
  · rename_i heq
    cases hr
    rwa [heq] at hk
  · cases hr

end Graph

namespace Aiger

namespace Scope

structure WellFormed (s : Scope) : Prop where
  graph : s.graph.WellFormed
  drives {var : Nat} {e : Edge} : s.edges[var]? = some e → s.graph.Drives e

variable {s : Scope} {a b e : Edge}

theorem initial_wellFormed : initial.WellFormed where
  graph := empty_wellFormed
  drives {var e} h := by
    simp only [initial, Std.HashMap.getElem?_insert] at h
    split at h
    · cases h
      exact drives_constant empty_wellFormed false
    · simp at h

/-- What every round keeps of the scope and of the open equations, solving keeps to the end. -/
theorem solve_induction {P : Scope → List Equation → Prop}
    (hround : ∀ s qs, P s qs → P (s.round qs).2 (s.round qs).1) {qs : List Equation} {s' : Scope}
    (hs : P s qs) (h : s.solve qs = .ok s') : P s' [] := by
  induction hn : qs.length using Nat.strongRecOn generalizing s qs with
  | ind n ih =>
    have hr := hround s qs hs
    rw [Scope.solve] at h
    split at h
    · rename_i heq
      cases h
      rwa [heq] at hr
    · rename_i q rest s'' heq
      rw [heq] at hr
      split at h
      · rename_i hlt
        exact ih _ (hn ▸ hlt) hr h rfl
      · cases h

namespace WellFormed

theorem edge? (hs : s.WellFormed) {literal : Nat} (h : s.edge? literal = some e) :
    s.graph.Drives e := by
  obtain ⟨d, hd, rfl⟩ := Option.map_eq_some_iff.mp h
  exact drives_complementIf.mpr (hs.drives hd)

theorem insert (hs : s.WellFormed) {g : Graph} (hg : g.WellFormed) {n : Node}
    (hn : g.nodes = s.graph.nodes.push n) (hout : n.isOutput = false) (var : Nat) :
    WellFormed ⟨g, s.edges.insert var (.plain s.graph.size)⟩ where
  graph := hg
  drives {v e} h := by
    rw [Std.HashMap.getElem?_insert] at h
    split at h
    · cases h
      exact ⟨n, by simp [hn, Edge.plain, Graph.size], hout⟩
    · exact (hs.drives h).push hn

theorem addInput (hs : s.WellFormed) (var : Nat) : (s.addInput var).WellFormed :=
  hs.insert (hs.graph.withInput _) rfl rfl var

theorem addGate (hs : s.WellFormed) (head : Nat) (ha : s.graph.Drives a)
    (hb : s.graph.Drives b) : (s.addGate head a b).WellFormed :=
  hs.insert (hs.graph.withGate ha hb) rfl rfl (variableOf head)

theorem addOutput (hs : s.WellFormed) (he : s.graph.Drives e) : (s.addOutput e).WellFormed where
  graph := hs.graph.withOutput he _
  drives h := (hs.drives h).push (m := .output s.graph.numOutputs e) rfl

theorem round (hs : s.WellFormed) (qs : List Equation) : (s.round qs).2.WellFormed := by
  induction qs generalizing s with
  | nil => exact hs
  | cons q qs ih =>
    simp only [Scope.round]
    split
    · rename_i a b hab
      simp only [operands?, Option.bind_eq_bind, Option.bind_eq_some_iff] at hab
      obtain ⟨a', ha, b', hb, hab⟩ := hab
      cases hab
      exact ih (hs.addGate q.head (hs.edge? ha) (hs.edge? hb))
    · exact ih hs

theorem solve (hs : s.WellFormed) {qs : List Equation} {s' : Scope} (h : s.solve qs = .ok s') :
    s'.WellFormed :=
  solve_induction (P := fun s _ => s.WellFormed) (fun _ qs hs => hs.round qs) hs h

theorem addOutputs (hs : s.WellFormed) {os : Array OutputLine} {s' : Scope}
    (h : s.addOutputs os = .ok s') : s'.WellFormed := by
  rw [Scope.addOutputs, ← Array.foldlM_toList] at h
  generalize os.toList = os at h
  induction os generalizing s with
  | nil =>
    cases h
    exact hs
  | cons o os ih =>
    rw [List.foldlM_cons, Except.bind_eq_ok_iff] at h
    obtain ⟨t, ht, h⟩ := h
    split at ht
    · rename_i e he
      cases ht
      exact ih (hs.addOutput (hs.edge? he)) h
    · cases ht

end WellFormed

end Scope

theorem readInput_wellFormed {h : Header} {s s' : Scope} {l : Line} (hs : s.WellFormed)
    (hr : readInput h s l = .ok s') : s'.WellFormed := by
  simp only [readInput, Except.bind_eq_ok_iff] at hr
  obtain ⟨ns, -, hr⟩ := hr
  split at hr
  · cases hr
  · obtain ⟨-, -, hr⟩ := Except.bind_eq_ok_iff.mp hr
    split at hr
    · cases hr
    · cases hr
      exact hs.addInput _

/-- What every step of a section keeps, the section keeps. -/
theorem readLines_induction {σ : Type} {P : σ → Prop} {step : σ → Line → Except Error σ}
    (hstep : ∀ {s s' l}, P s → step s l = .ok s' → P s') {last n : Nat} {item : String}
    {ls rest : List Line} {s s' : σ} (hs : P s)
    (h : readLines last item step n ls s = .ok (s', rest)) : P s' := by
  induction n generalizing ls s with
  | zero =>
    cases h
    exact hs
  | succ n ih =>
    cases ls with
    | nil => cases h
    | cons l ls =>
      obtain ⟨t, ht, h⟩ := Except.bind_eq_ok_iff.mp h
      exact ih (hstep hs ht) h

theorem Symbol.applyLines_wellFormed {g g' : Graph} {ls : List Line} (hg : g.WellFormed)
    (h : applyLines g ls = .ok g') : g'.WellFormed := by
  induction ls generalizing g with
  | nil =>
    cases h
    exact hg
  | cons l ls ih =>
    simp only [applyLines] at h
    split at h
    · exact ih hg h
    · split at h
      · cases h
        exact hg
      · obtain ⟨s, -, h⟩ := Except.bind_eq_ok_iff.mp h
        split at h
        · rename_i g'' happ
          refine ih ?_ h
          simp only [apply] at happ
          split at happ
          · exact hg.renameInput happ
          · exact hg.renameOutput happ
        · cases h

end Aiger

open Aiger in
theorem Graph.ofAiger_wellFormed {text : String} {g : Graph} (h : ofAiger text = .ok g) :
    g.WellFormed := by
  simp only [ofAiger] at h
  split at h
  · cases h
  · simp only [Except.bind_eq_ok_iff] at h
    obtain ⟨hd, -, -, -, ⟨inputs, rest⟩, hin, ⟨outputs, rest'⟩, -, ⟨gates, rest''⟩, -, s, hsolve,
      s', hout, h⟩ := h
    have hinputs : inputs.WellFormed :=
      readLines_induction readInput_wellFormed Scope.initial_wellFormed hin
    exact Symbol.applyLines_wellFormed ((hinputs.solve hsolve).addOutputs hout).graph h

/-- The graphs that can be built from the empty one by adding inputs, outputs and gates, by
renaming, hashing and reading. The state that a denied operation leaves counts too. -/
inductive Graph.Built : Graph → Prop where
  | empty : Built .empty
  | input {g : Graph} (h : Built g) (name : Option String) : Built ((Build.input name).run g).2
  | output {g : Graph} (h : Built g) (e : Edge) (name : Option String) :
    Built ((Build.output e name).run g).2
  | gate {g : Graph} (h : Built g) (a b : Edge) : Built ((Build.gate a b).run g).2
  | and {g : Graph} (h : Built g) (a b : Edge) : Built ((Build.and a b).run g).2
  | or {g : Graph} (h : Built g) (a b : Edge) : Built ((Build.or a b).run g).2
  | xor {g : Graph} (h : Built g) (a b : Edge) : Built ((Build.xor a b).run g).2
  | mux {g : Graph} (h : Built g) (s t e : Edge) : Built ((Build.mux s t e).run g).2
  | renameInput {g g' : Graph} (h : Built g) {i : Nat} {name : String}
    (hr : g.renameInput i name = .ok g') : Built g'
  | renameOutput {g g' : Graph} (h : Built g) {i : Nat} {name : String}
    (hr : g.renameOutput i name = .ok g') : Built g'
  | rehash {g g' : Graph} (h : Built g) (hr : g.rehash = .ok g') : Built g'
  | aiger {g : Graph} {text : String} (hr : ofAiger text = .ok g) : Built g

theorem Graph.Built.wellFormed {g : Graph} (h : g.Built) : g.WellFormed := by
  induction h with
  | empty => exact empty_wellFormed
  | input _ name ih => exact (Build.keeps_input name).final ih
  | output _ e name ih => exact (Build.keeps_output e name).final ih
  | gate _ a b ih => exact (Build.keeps_gate a b).final ih
  | and _ a b ih => exact (Build.keeps_and a b).final ih
  | or _ a b ih => exact (Build.keeps_or a b).final ih
  | xor _ a b ih => exact (Build.keeps_xor a b).final ih
  | mux _ s t e ih => exact (Build.keeps_mux s t e).final ih
  | renameInput _ hr ih => exact ih.renameInput hr
  | renameOutput _ hr ih => exact ih.renameOutput hr
  | rehash _ hr _ => exact rehash_wellFormed hr
  | aiger hr => exact ofAiger_wellFormed hr

def Graph.reconvergent : Graph :=
  let g := ((Build.input (some "a")).run .empty).2
  let g := ((Build.input (some "b")).run g).2
  let g := ((Build.gate ⟨1, false⟩ ⟨2, false⟩).run g).2
  let g := ((Build.gate ⟨1, true⟩ ⟨2, true⟩).run g).2
  let g := ((Build.gate ⟨3, true⟩ ⟨4, true⟩).run g).2
  ((Build.output ⟨5, false⟩ (some "y")).run g).2

theorem Graph.reconvergent_built : reconvergent.Built :=
  .output (.gate (.gate (.gate (.input (.input .empty _) _) _ _) _ _) _ _) _ _

end AndInverter
