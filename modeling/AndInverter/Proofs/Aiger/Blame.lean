import AndInverter.Proofs.Aiger.Acceptance
import Mathlib

/-!
# Which gate is to blame

Whether the gates of a text can be settled depends only on the lines before the symbols. If each of
these lines makes sense by itself, a variable that is defined twice is reported before any gate is
settled. Otherwise the rounds settle just the grounded gates, and the first gate of the text that is
not grounded is to blame.
-/

namespace AndInverter.Aiger

section Twice

variable {h : Header} {n : Nat} {l : Line} {read : List Line} {s inputs : Scope} {q : Equation}
  {qs : Equations}

theorem readInput_eq_error (hl : l.Holds [n]) (hn : h.MayDefine n) (hmem : variableOf n ∈ s.edges) :
    readInput h s l = .error ((Problem.definedTwice (variableOf n)).at l.number) := by
  have hread : readNumbers l.number 1 (words l.text) = .ok #v[n] := readNumbers_eq_ok_iff.mpr hl
  have hdef : isDefining n = true := isDefining_eq_true_iff.mpr ⟨hn.1, hn.2.1⟩
  have hmax : h.checkLiteral l.number n = .ok () := Header.checkLiteral_eq_ok_iff.mpr hn.2.2
  simp [readInput, hread, Except.ok_bind, hdef, hmax, hmem]
  rfl

theorem readGate_eq_error (hl : l.Holds [q.head, q.left, q.right]) (hq : h.MayDefine q.head)
    (hmax : variableOf q.left ≤ h.maxVar ∧ variableOf q.right ≤ h.maxVar)
    (hmem : variableOf q.head ∈ inputs.edges ∨ variableOf q.head ∈ qs.heads) :
    readGate h inputs qs l =
      .error ((Problem.definedTwice (variableOf q.head)).at l.number) := by
  have hread : readNumbers l.number 3 (words l.text) = .ok #v[q.head, q.left, q.right] :=
    readNumbers_eq_ok_iff.mpr hl
  have hdef : isDefining q.head = true := isDefining_eq_true_iff.mpr ⟨hq.1, hq.2.1⟩
  have hcheck {n : Nat} (hn : variableOf n ≤ h.maxVar) : h.checkLiteral l.number n = .ok () :=
    Header.checkLiteral_eq_ok_iff.mpr hn
  simp [readGate, hread, Except.ok_bind, hdef, hcheck hq.2.2, hcheck hmax.1, hcheck hmax.2, hmem]
  rfl

/-- A section of lines that make sense one by one ends with the first of them whose key is known by
then, and it does not matter what follows. -/
theorem exists_readLines_eq_error {σ α : Type} {step : σ → Line → Except Error σ}
    {R : Line → α → Prop} {P : α → Prop} {f : σ → α → σ} (key : α → Nat) (known : σ → Nat → Prop)
    (hok : ∀ s l a, R l a → P a → ¬ known s (key a) → step s l = .ok (f s a))
    (herror : ∀ s l a, R l a → P a → known s (key a) →
      step s l = .error ((Problem.definedTwice (key a)).at l.number))
    (hf : ∀ s a v, known (f s a) v ↔ v = key a ∨ known s v) {t : σ} {as : List α}
    (hread : List.Forall₂ R read as) (hP : ∀ a ∈ as, P a)
    (hnot : ¬ ((as.map key).Nodup ∧ ∀ a ∈ as, ¬ known t (key a))) :
    ∃ a ∈ as, ∃ line, (List.Duplicate (key a) (as.map key) ∨ known t (key a)) ∧
      ∀ last item rest, readLines last item step as.length (read ++ rest) t =
        .error ((Problem.definedTwice (key a)).at line) := by
  induction hread generalizing t with
  | nil => exact absurd ⟨.nil, by simp⟩ hnot
  | @cons l a read as ha _ ih =>
    obtain ⟨hPa, hPas⟩ := List.forall_mem_cons.mp hP
    by_cases hknown : known t (key a)
    · refine ⟨a, List.mem_cons_self, l.number, .inr hknown, fun last item rest => ?_⟩
      rw [List.cons_append, List.length_cons, readLines, herror t l a ha hPa hknown]
      rfl
    · have hrest : ¬ ((as.map key).Nodup ∧ ∀ b ∈ as, ¬ known (f t a) (key b)) := by
        rintro ⟨hnodup, hnew⟩
        simp only [hf, not_or] at hnew
        refine hnot ⟨List.nodup_cons.mpr ⟨?_, hnodup⟩,
          List.forall_mem_cons.mpr ⟨hknown, fun b hb => (hnew b hb).2⟩⟩
        rintro hmem
        obtain ⟨b, hb, hab⟩ := List.mem_map.mp hmem
        exact (hnew b hb).1 hab
      obtain ⟨b, hb, line, htwice, heq⟩ := ih hPas hrest
      refine ⟨b, List.mem_cons_of_mem a hb, line, ?_, fun last item rest => ?_⟩
      · rw [hf] at htwice
        rcases htwice with hdup | hab | hold
        · exact .inl (hdup.duplicate_cons (key a))
        · exact .inl (List.duplicate_cons_iff.mpr (.inl ⟨hab.symm, List.mem_map_of_mem hb⟩))
        · exact .inr hold
      · rw [List.cons_append, List.length_cons, readLines, hok t l a ha hPa hknown, Except.ok_bind]
        exact heq last item rest

end Twice

namespace Description

variable {d : Description} {text : String} {ls : Sections}

theorem LinesInRange.exists_readInputs_eq_error (hd : d.LinesInRange) (hreads : d.Reads ls)
    (htwice : ¬ (d.inputs.map variableOf).Nodup) :
    ∃ v line, List.Duplicate v (d.inputs.map variableOf) ∧ ∀ last item rest,
      readLines last item (readInput d.header) d.header.numInputs (ls.inputs ++ rest) .initial =
        .error ((Problem.definedTwice v).at line) := by
  have hok (s : Scope) (l : Line) (n : Nat) (hl : l.Holds [n]) (hn : d.header.MayDefine n)
      (hnew : ¬ variableOf n ∈ s.edges) : readInput d.header s l = .ok (s.addInput (variableOf n)) :=
    (readInput_eq_ok_iff ..).mpr ⟨n, hl, ⟨hn, hnew⟩, rfl⟩
  obtain ⟨n, hn, line, hdup, heq⟩ := exists_readLines_eq_error variableOf
    (fun (s : Scope) v => v ∈ s.edges) hok (fun s l n => readInput_eq_error)
    (fun s n v => mem_addInput) hreads.inputs hd.inputs fun h => htwice h.1
  rw [hreads.length_inputs] at heq
  exact ⟨variableOf n, line, hdup.resolve_right (hd.inputs n hn).not_mem_initial, heq⟩

theorem LinesInRange.exists_readGates_eq_error (hd : d.LinesInRange) (hreads : d.Reads ls)
    (hinputs : (d.inputs.map variableOf).Nodup) (htwice : ¬ d.definitions.Nodup) :
    ∃ v line, List.Duplicate v d.definitions ∧ ∀ last item rest,
      readLines last item (readGate d.header (inputScope d.inputs)) d.header.numGates
        (ls.gates ++ rest) {} = .error ((Problem.definedTwice v).at line) := by
  have hok (qs : Equations) (l : Line) (q : Equation)
      (hl : l.number = q.line ∧ l.Holds [q.head, q.left, q.right])
      (hq : d.header.MayDefine q.head ∧
        variableOf q.left ≤ d.header.maxVar ∧ variableOf q.right ≤ d.header.maxVar)
      (hnew : ¬ (variableOf q.head ∈ (inputScope d.inputs).edges ∨ variableOf q.head ∈ qs.heads)) :
      readGate d.header (inputScope d.inputs) qs l = .ok (qs.push q) := by
    rw [not_or] at hnew
    exact (readGate_eq_ok_iff ..).mpr ⟨q, hl, ⟨⟨hq.1, hq.2, hnew.1⟩, hnew.2⟩, rfl⟩
  have hpush (qs : Equations) (q : Equation) (v : Nat) :
      v ∈ (inputScope d.inputs).edges ∨ v ∈ (qs.push q).heads ↔
        v = variableOf q.head ∨ v ∈ (inputScope d.inputs).edges ∨ v ∈ qs.heads := by
    simp [Equations.push, eq_comm (a := v), or_left_comm]
  have hknown : ¬ ((d.gates.map fun q => variableOf q.head).Nodup ∧ ∀ q ∈ d.gates,
      ¬ (variableOf q.head ∈ (inputScope d.inputs).edges ∨
        variableOf q.head ∈ ({} : Equations).heads)) := by
    rintro ⟨hheads, hnew⟩
    refine htwice (List.nodup_append.mpr ⟨hinputs, hheads, ?_⟩)
    rintro v hv _ hhead rfl
    obtain ⟨q, hq, rfl⟩ := List.mem_map.mp hhead
    exact hnew q hq (.inl ((mem_inputScope hd.inputs hinputs).mpr (.inr hv)))
  obtain ⟨q, hq, line, hdup, heq⟩ := exists_readLines_eq_error (fun q => variableOf q.head)
    (fun (qs : Equations) v => v ∈ (inputScope d.inputs).edges ∨ v ∈ qs.heads) hok
    (fun qs l q hl hq => readGate_eq_error hl.2 hq.1 hq.2) hpush hreads.gates
    (fun q hq => ⟨hd.heads q hq, hd.operands q hq⟩) hknown
  rw [hreads.length_gates] at heq
  have hhead : variableOf q.head ∈ d.gates.map fun q => variableOf q.head :=
    List.mem_map_of_mem hq
  refine ⟨variableOf q.head, line, ?_, heq⟩
  rcases hdup with hdup | hinput | hnone
  · exact hdup.mono_sublist (List.sublist_append_right _ _)
  · have hinput : variableOf q.head ∈ d.inputs.map variableOf :=
      ((mem_inputScope hd.inputs hinputs).mp hinput).resolve_left (hd.heads q hq).variableOf_ne_zero
    exact List.duplicate_iff_sublist.mpr
      ((List.singleton_sublist.mpr hinput).append (List.singleton_sublist.mpr hhead))
  · simp at hnone

/-- A variable that is defined twice is reported before any gate is settled. -/
theorem LinesInRange.exists_definedTwice (hd : d.LinesInRange) (hbegins : d.Begins text)
    (htwice : ¬ d.definitions.Nodup) : ∃ v line, List.Duplicate v d.definitions ∧
      Graph.ofAiger text = .error ((Problem.definedTwice v).at line) := by
  obtain ⟨ls, hls, hreads⟩ := hbegins
  simp only [Graph.ofAiger, hls, Sections.lines, hreads.ofWords_eq, hd.check_eq, Except.ok_bind]
  by_cases hinputs : (d.inputs.map variableOf).Nodup
  · obtain ⟨v, line, hdup, hgates⟩ := hd.exists_readGates_eq_error hreads hinputs htwice
    refine ⟨v, line, hdup, ?_⟩
    simp only [hreads.readInputs_eq hd hinputs, hreads.readOutputs_eq hd, Except.ok_bind, hgates]
    rfl
  · obtain ⟨v, line, hdup, hread⟩ := hd.exists_readInputs_eq_error hreads hinputs
    refine ⟨v, line, hdup.mono_sublist (List.sublist_append_left _ _), ?_⟩
    rw [hread]
    rfl

def settlement (d : Description) : Scope.Settlement := (inputScope d.inputs).settle d.gates

theorem InRange.covers_settlement (hd : d.InRange) :
    d.settlement.scope.Covers d.inputs d.gates d.settlement.left [] :=
  hd.covers.settle hd

/-- The gates that are left over are the ones that are not grounded. -/
theorem InRange.mem_left_iff (hd : d.InRange) {q : Equation} (hq : q ∈ d.gates) :
    q ∈ d.settlement.left ↔ ¬ d.Grounded (variableOf q.head) :=
  hd.covers_settlement.mem_todo_iff hd (fun _ => Scope.operands?_of_mem_left) hq

theorem InRange.mem_edges_iff (hd : d.InRange) {q : Equation} (hq : q ∈ d.gates) :
    variableOf q.head ∈ d.settlement.scope.edges ↔ d.Grounded (variableOf q.head) := by
  refine ⟨hd.covers_settlement.grounded hd, fun hground => ?_⟩
  have hleft : q ∉ d.settlement.left := fun hleft => (hd.mem_left_iff hq).mp hleft hground
  exact ((hd.covers_settlement.gate hq).resolve_left hleft).head_mem

theorem InRange.settles_iff (hd : d.InRange) {q : Equation} (hq : q ∈ d.gates) :
    d.settlement.scope.Settles q ↔ d.Grounded (variableOf q.head) := by
  rw [← hd.mem_edges_iff hq]
  refine ⟨Scope.Settles.head_mem, fun hhead => ?_⟩
  exact (hd.covers_settlement.gate hq).resolve_left
    fun hleft => hd.covers_settlement.head_not_mem hd hleft hhead

/-- The first gate that is not grounded comes first among those left over, which keep their
order. -/
theorem InRange.head?_left (hd : d.InRange) {before after : List Equation} {q : Equation}
    (hgates : d.gates = before ++ q :: after)
    (hbefore : ∀ r ∈ before, d.Grounded (variableOf r.head))
    (hq : ¬ d.Grounded (variableOf q.head)) : d.settlement.left.head? = some q := by
  have hleft : q ∈ d.settlement.left := (hd.mem_left_iff (by simp [hgates])).mpr hq
  obtain ⟨ahead, waiting, heq, hahead, hopen⟩ :=
    List.sublist_append_iff.mp (hgates ▸ hd.covers_settlement.sublist)
  have hnil : ahead = [] := by
    refine List.eq_nil_iff_forall_not_mem.mpr fun r hr => ?_
    have hmem : r ∈ before := hahead.subset hr
    have hr' : r ∈ d.settlement.left := heq ▸ List.mem_append_left _ hr
    exact (hd.mem_left_iff (by simp [hgates, hmem])).mp hr' (hbefore r hmem)
  rw [hnil, List.nil_append] at heq
  rw [heq] at hleft ⊢
  rcases List.sublist_cons_iff.mp hopen with hafter | ⟨rest, rfl, -⟩
  · have hnodup := hd.heads_nodup
    rw [hgates, List.map_append, List.map_cons, List.nodup_append, List.nodup_cons] at hnodup
    exact absurd (List.mem_map_of_mem (hafter.subset hleft)) hnodup.2.1.1
  · rfl

end Description

/-- What happens to a text whose lines make sense one by one. If no variable is defined twice, there
are at most as many rounds as gates. They settle just the gates that are grounded, and the first
gate of the text that is not grounded is to blame. -/
theorem ofAiger_blames {d : Description} {text : String} (hd : d.LinesInRange)
    (hbegins : d.Begins text) :
    (¬ d.definitions.Nodup → ∃ v line, List.Duplicate v d.definitions ∧
      Graph.ofAiger text = .error ((Problem.definedTwice v).at line)) ∧
    (d.definitions.Nodup →
      (inputScope d.inputs).solve d.gates =
        d.settlement.left.head?.elim (.ok d.settlement.scope) (fun q =>
          .error ((Problem.undefinedFanin q.head q.left q.right).at q.line)) ∧
      d.settlement.rounds ≤ d.header.numGates ∧
      d.settlement.scope.graph.numGates + d.settlement.left.length = d.header.numGates ∧
      d.settlement.left.Sublist d.gates ∧
      (∀ q ∈ d.gates, (q ∈ d.settlement.left ↔ ¬ d.Grounded (variableOf q.head)) ∧
        (variableOf q.head ∈ d.settlement.scope.edges ↔ d.Grounded (variableOf q.head)) ∧
        (d.settlement.scope.Settles q ↔ d.Grounded (variableOf q.head))) ∧
      ((∀ q ∈ d.gates, d.Grounded (variableOf q.head)) → ∃ symbols, Graph.ofAiger text = do
        let s ← d.settlement.scope.addOutputs d.outputs.toArray
        Symbol.applyLines s.graph symbols) ∧
      ∀ before q after, d.gates = before ++ q :: after →
        (∀ r ∈ before, d.Grounded (variableOf r.head)) → ¬ d.Grounded (variableOf q.head) →
        Graph.ofAiger text =
          .error ((Problem.undefinedFanin q.head q.left q.right).at q.line)) := by
  refine ⟨hd.exists_definedTwice hbegins, fun hnodup => ?_⟩
  have hrange := hd.inRange hnodup
  have hcovers := hrange.covers_settlement
  obtain ⟨ls, hls, hreads⟩ := hbegins
  have hsolve : (inputScope d.inputs).solve d.gates =
      d.settlement.left.head?.elim (.ok d.settlement.scope) (fun q =>
        .error ((Problem.undefinedFanin q.head q.left q.right).at q.line)) :=
    Scope.solve_eq _ _
  have hofAiger := hrange.ofAiger_eq hls hreads
  rw [hsolve] at hofAiger
  refine ⟨hsolve, ?rounds, ?count, hcovers.sublist,
    fun q hq => ⟨hrange.mem_left_iff hq, hrange.mem_edges_iff hq, hrange.settles_iff hq⟩, ?all,
    ?first⟩
  case rounds => exact hreads.length_gates ▸ Scope.rounds_settle_le _ _
  case count => exact hreads.length_gates ▸ hcovers.numGates_eq
  case all =>
    intro hall
    have hleft : d.settlement.left = [] := List.eq_nil_iff_forall_not_mem.mpr fun q hq =>
      (hrange.mem_left_iff (hcovers.sublist.subset hq)).mp hq (hall q (hcovers.sublist.subset hq))
    refine ⟨ls.rest, ?_⟩
    rw [hofAiger, hleft]
    rfl
  case first =>
    intro before q after hgates hbefore hq
    rw [hofAiger, hrange.head?_left hgates hbefore hq]
    rfl

/-- The gates of variables 4 and 5 wait for each other, and the last gate waits for a variable that
nothing defines. The first gate waits for the third one only. -/
def deadlock : Description where
  header := ⟨7, 1, 0, 1, 5⟩
  inputs := [2]
  outputs := [⟨3, 4⟩]
  gates := [⟨4, 4, 6, 2⟩, ⟨5, 8, 10, 2⟩, ⟨6, 6, 2, 0⟩, ⟨7, 10, 8, 2⟩, ⟨8, 12, 14, 2⟩]
  symbols := []

def deadlockText : String :=
  "aag 7 1 0 1 5\n2\n4\n4 6 2\n8 10 2\n6 2 0\n10 8 2\n12 14 2\nx\n"

theorem deadlock_linesInRange : deadlock.LinesInRange where
  numLatches_eq := rfl
  numVars_le := by decide
  inputs := by simp [deadlock, Header.MayDefine, variableOf]
  outputs := by simp [deadlock, variableOf]
  heads := by simp [deadlock, Header.MayDefine, variableOf]
  operands := by simp [deadlock, variableOf]

theorem deadlock_begins : deadlock.Begins deadlockText := by
  let ls : Sections := {
    first := ⟨1, "aag 7 1 0 1 5".toList⟩
    inputs := [⟨2, "2".toList⟩]
    outputs := [⟨3, "4".toList⟩]
    gates := [⟨4, "4 6 2".toList⟩, ⟨5, "8 10 2".toList⟩, ⟨6, "6 2 0".toList⟩, ⟨7, "10 8 2".toList⟩,
      ⟨8, "12 14 2".toList⟩]
    rest := [⟨9, "x".toList⟩] }
  refine ⟨ls, by decide, ?_⟩
  exact {
    header := ⟨["7".toList, "1".toList, "0".toList, "1".toList, "5".toList], by decide, by decide⟩
    length_inputs := rfl
    length_outputs := rfl
    length_gates := rfl
    inputs := by decide
    outputs := by decide
    gates := by decide
    symbols := .nil }

theorem deadlock_left : deadlock.settlement.left =
    [⟨5, 8, 10, 2⟩, ⟨7, 10, 8, 2⟩, ⟨8, 12, 14, 2⟩] := by
  cbv

theorem deadlock_not_grounded : ¬ deadlock.Grounded 4 := by
  have hleft : deadlock.DependsOn 4 5 := ⟨⟨5, 8, 10, 2⟩, by decide, rfl, .inl rfl⟩
  have hright : deadlock.DependsOn 5 4 := ⟨⟨7, 10, 8, 2⟩, by decide, rfl, .inl rfl⟩
  exact fun hground => (hground 4 .refl).2 (.tail (.single hleft) hright)

theorem ofAiger_blames_deadlock : deadlock.LinesInRange ∧ deadlock.Begins deadlockText ∧
    deadlock.definitions.Nodup ∧ deadlock.Grounded 2 ∧ ¬ deadlock.Grounded 4 ∧
    deadlock.settlement.rounds ≤ 5 ∧ deadlock.settlement.scope.graph.numGates = 2 ∧
    Graph.ofAiger deadlockText = .error ((Problem.undefinedFanin 8 10 2).at 5) := by
  have hnodup : deadlock.definitions.Nodup := by decide
  obtain ⟨-, hblames⟩ := ofAiger_blames deadlock_linesInRange deadlock_begins
  obtain ⟨-, hrounds, hcount, -, hsettled, -, hfirst⟩ := hblames hnodup
  have hground : deadlock.Grounded 2 := by
    have hleft := (hsettled ⟨4, 4, 6, 2⟩ (by decide)).1
    rw [deadlock_left] at hleft
    exact not_not.mp (mt hleft.mpr (by decide))
  rw [deadlock_left] at hcount
  refine ⟨deadlock_linesInRange, deadlock_begins, hnodup, hground, deadlock_not_grounded, hrounds,
    Nat.add_right_cancel hcount, ?_⟩
  exact hfirst [⟨4, 4, 6, 2⟩] ⟨5, 8, 10, 2⟩ _ rfl (List.forall_mem_singleton.mpr hground)
    deadlock_not_grounded

end AndInverter.Aiger
