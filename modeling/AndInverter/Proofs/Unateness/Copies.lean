import AndInverter.Proofs.Clausal.Encoding
import AndInverter.Proofs.Clausal.Formula
import AndInverter.Proofs.Unateness.Patterns
import AndInverter.Unateness.Copies

/-!
# Two copies of a cone

With every switch on but that of one input, a model of the formula is a pair of simulations that
differ in that input only. So the formula has such a model with given outputs exactly if raising the
input under some assignment moves the output from the one to the other.
-/

namespace AndInverter.ConeCopies

open Clausal
open VariableFrame (patternOf patternOf_false assign_some_patternOf assign_none_patternOf)

variable {f f' : Formula} {first second : Block} {vs es : List Nat} {m : Nat → Bool}

theorem eval_addSwitch (f : Formula) (a b : Nat) : (addSwitch f a b).2.eval m = true ↔
    f.eval m = true ∧ (m f.numVars = true → m a = m b) := by
  have hfresh : Formula.eval m ⟨f.numVars + 1, f.clauses⟩ = f.eval m := rfl
  simp only [addSwitch, Formula.freshVar, Formula.eval_addClause, hfresh, Clause.eval, Literal.eval,
    List.any_cons, List.any_nil, Bool.and_eq_true, and_assoc]
  cases m f.numVars <;> cases m a <;> cases m b <;> simp

theorem numVars_addSwitch {a b : Nat} (ha : a < f.numVars) (hb : b < f.numVars) :
    (addSwitch f a b).2.numVars = f.numVars + 1 := by
  rw [addSwitch, Formula.numVars_addClause, Formula.numVars_addClause]
  · rfl
  · simp [Formula.freshVar]
    omega
  · rw [Formula.numVars_addClause]
    · simp [Formula.freshVar]
      omega
    · simp [Formula.freshVar]
      omega

/-- The switches are fresh variables, each of its own. While one is on, the two copies of its
variable are equal. -/
theorem addSwitches_eq_ok (hvs : ∀ v ∈ vs, v < first.count) (hcount : second.count = first.count)
    (hfirst : first.base + first.count ≤ f.numVars)
    (hsecond : second.base + second.count ≤ f.numVars) :
    ∃ es f', addSwitches first second f vs = .ok (es, f') ∧ es.length = vs.length ∧
      (∀ e ∈ es, f.numVars ≤ e) ∧ es.Nodup ∧ ∀ m, f'.eval m = true ↔ f.eval m = true ∧
        ∀ p ∈ es.zip vs, m p.1 = true → m (first.base + p.2) = m (second.base + p.2) := by
  induction vs generalizing f with
  | nil => exact ⟨[], f, rfl, rfl, by simp, List.nodup_nil, by simp⟩
  | cons v vs ih =>
    have hv := hvs v List.mem_cons_self
    have hnum : (addSwitch f (first.base + v) (second.base + v)).2.numVars = f.numVars + 1 :=
      numVars_addSwitch (by omega) (by omega)
    obtain ⟨es, f', hok, hlen, hfresh, hnodup, heval⟩ :=
      ih (f := (addSwitch f (first.base + v) (second.base + v)).2)
        (fun w hw => hvs w (List.mem_cons_of_mem v hw)) (by omega) (by omega)
    refine ⟨f.numVars :: es, f', ?_, by rw [List.length_cons, List.length_cons, hlen], ?_, ?_, ?_⟩
    · rw [addSwitches, Block.place_eq_ok hv, Block.place_eq_ok (by omega)]
      change (addSwitches first second (addSwitch f (first.base + v) (second.base + v)).2 vs >>=
        fun p => pure (f.numVars :: p.1, p.2)) = _
      rw [hok]
      rfl
    · refine List.forall_mem_cons.mpr ⟨Nat.le_refl _, fun e he => ?_⟩
      have := hfresh e he
      omega
    · refine List.nodup_cons.mpr ⟨fun he => ?_, hnodup⟩
      have := hfresh _ he
      omega
    · intro m
      rw [heval, eval_addSwitch, and_assoc, List.zip_cons_cons, List.forall_mem_cons]

/-- Two copies of the encoding of the cone of an edge, one after the other, tied by switches. -/
structure Joins (c : ConeCopies) (g : Graph) (e : Edge) (ids : List Nat) : Prop where
  graph_eq : c.graph = g
  represents : c.encoding.Represents g e ids
  first_eq : c.first = ⟨0, ids.length⟩
  second_eq : c.second = ⟨ids.length, ids.length⟩
  length_switches : c.switches.length = c.encoding.inputs.length
  switches_fresh {s : Nat} : s ∈ c.switches → ids.length + ids.length ≤ s
  switches_nodup : c.switches.Nodup
  formula_iff (m : Nat → Bool) : c.formula.eval m = true ↔
    Satisfies m c.encoding.clauses ∧ Satisfies (fun v => m (ids.length + v)) c.encoding.clauses ∧
    ∀ p ∈ c.switches.zip c.encoding.inputs, m p.1 = true → m p.2.2 = m (ids.length + p.2.2)

theorem fresh_empty (n : Nat) : Block.fresh .empty n = (⟨0, n⟩, ⟨n, #[]⟩) := by
  simp [Block.fresh, Formula.empty]

theorem fresh_again (n : Nat) : Block.fresh ⟨n, #[]⟩ n = (⟨n, n⟩, ⟨n + n, #[]⟩) := by
  rw [Block.fresh]
  split
  · rename_i hn
    rw [hn]
  · rfl

def twice (n : Nat) (cs : List Clause) : Formula :=
  addCopies ⟨n, n⟩ (addCopies ⟨0, n⟩ ⟨n + n, #[]⟩ cs) cs

theorem numVars_twice {n : Nat} {cs : List Clause} (h : ∀ cl ∈ cs, ∀ l ∈ cl, l.var < n) :
    (twice n cs).numVars = n + n := by
  have hfirst : (addCopies ⟨0, n⟩ ⟨n + n, #[]⟩ cs).numVars = n + n :=
    numVars_addCopies (by simp) h
  rw [twice, numVars_addCopies (Nat.le_of_eq hfirst.symm) h, hfirst]

theorem eval_twice {n : Nat} {cs : List Clause} : (twice n cs).eval m = true ↔
    Satisfies m cs ∧ Satisfies (fun v => m (n + v)) cs := by
  have hnone : Formula.eval m ⟨n + n, #[]⟩ = true := by simp [Formula.eval]
  rw [twice, eval_addCopies, eval_addCopies]
  simp only [hnone, true_and, Nat.zero_add]

theorem ofOutput_eq_ok_of_constant {g : Graph} {output : Nat} {b : Bool}
    (hout : output < g.numOutputs)
    (hc : Encoding.ofOutput g output = .ok { driver := .constant b }) :
    ∃ copies, ofOutput g output = .ok copies ∧ copies.graph = g ∧ copies.output = output ∧
      copies.encoding.output? = none := by
  refine ⟨⟨g, output, { driver := .constant b }, ⟨0, 0⟩, ⟨0, 0⟩, [], .empty⟩, ?_, rfl, rfl, rfl⟩
  have hadjacent : Block.adjacent ⟨0, 0⟩ = ⟨0, 0⟩ := rfl
  simp only [ofOutput, if_neg (Nat.not_le_of_lt hout), hc, bind, Except.bind, fresh_empty,
    fresh_again, hadjacent, ne_eq, not_true_eq_false, if_false]
  rfl

theorem ofOutput_eq_ok {g : Graph} {e : Edge} {ids : List Nat} {output : Nat} {c : Encoding}
    (hout : output < g.numOutputs) (hc : Encoding.ofOutput g output = .ok c)
    (hrep : c.Represents g e ids) :
    ∃ copies, ofOutput g output = .ok copies ∧ copies.output = output ∧ copies.Joins g e ids := by
  have hn := hrep.numVars_eq
  have hscope : ∀ cl ∈ c.clauses, ∀ l ∈ cl, l.var < c.numVars := fun _ hcl _ hl =>
    hrep.lt_numVars hcl hl
  have hnum : (twice ids.length c.clauses).numVars = ids.length + ids.length :=
    numVars_twice (hn ▸ hscope)
  have hvs : ∀ v ∈ c.inputs.map Prod.snd, v < ids.length := by
    intro v hv
    obtain ⟨⟨i, w⟩, hw, rfl⟩ := List.mem_map.mp hv
    obtain ⟨id, hid, -⟩ := hrep.inputs_iff.mp hw
    exact (List.getElem?_eq_some_iff.mp hid).1
  obtain ⟨es, f', hok, hlen, hfresh, hnodup, heval⟩ := @addSwitches_eq_ok
    (twice ids.length c.clauses) ⟨0, ids.length⟩ ⟨ids.length, ids.length⟩ _ hvs rfl
    (by rw [hnum]; simp) (Nat.le_of_eq hnum.symm)
  have hadjacent : Block.adjacent ⟨0, ids.length⟩ = ⟨ids.length, ids.length⟩ := by
    simp [Block.adjacent]
  have hfirst : c.addTo ⟨ids.length + ids.length, #[]⟩ ⟨0, ids.length⟩ = .ok _ :=
    Encoding.addTo_eq_ok hn.symm hscope
  have hsecond : c.addTo (addCopies ⟨0, ids.length⟩ ⟨ids.length + ids.length, #[]⟩ c.clauses)
      ⟨ids.length, ids.length⟩ = .ok (twice ids.length c.clauses) :=
    Encoding.addTo_eq_ok hn.symm hscope
  refine ⟨⟨g, output, c, _, _, es, f'⟩, ?_, rfl, rfl, hrep, rfl, rfl, ?_, ?_, hnodup, ?_⟩
  · simp only [ofOutput, if_neg (Nat.not_le_of_lt hout), hc, bind, Except.bind, hn, fresh_empty,
      fresh_again, hadjacent, ne_eq, not_true_eq_false, if_false, hfirst, hsecond, hok]
    rfl
  · rw [hlen, List.length_map]
  · intro s hs
    exact hnum ▸ hfresh s hs
  · intro m
    change f'.eval m = true ↔ _
    rw [heval, eval_twice, and_assoc, List.zip_map_right]
    simp only [List.forall_mem_map, Prod.map, id_eq, Nat.zero_add]

theorem eq_of_mem_zip {α β : Type} {l₁ : List α} {l₂ : List β} {a : α} {b b' : β} (h : l₁.Nodup)
    (hb : (a, b) ∈ l₁.zip l₂) (hb' : (a, b') ∈ l₁.zip l₂) : b = b' := by
  obtain ⟨i, hi⟩ := List.mem_iff_getElem?.mp hb
  obtain ⟨j, hj⟩ := List.mem_iff_getElem?.mp hb'
  rw [List.getElem?_zip_eq_some] at hi hj
  have hlt := (List.getElem?_eq_some_iff.mp hi.1).1
  have hij : i = j := (List.getElem?_inj hlt h).mp (hi.1.trans hj.1.symm)
  rw [hij, hj.2] at hi
  exact (Option.some.inj hi.2).symm

/-- The values of the first copy under `x`, those of the second under `y`, and all switches on but
that of input `i`. -/
def model (c : ConeCopies) (g : Graph) (ids : List Nat) (i : Nat) (x y : Nat → Bool) (v : Nat) :
    Bool :=
  if v < ids.length then g.valueOf x (ids[v]?.getD 0)
  else if v < ids.length + ids.length then g.valueOf y (ids[v - ids.length]?.getD 0)
  else (c.switches.zip c.encoding.inputs).any fun p => p.1 == v && p.2.1 != i

variable {c : ConeCopies} {g : Graph} {e : Edge} {ids : List Nat} {id i j v w s : Nat}
  {x y : Nat → Bool}

theorem model_first (hv : ids[v]? = some id) : model c g ids i x y v = g.valueOf x id := by
  have hlt := (List.getElem?_eq_some_iff.mp hv).1
  rw [model, if_pos hlt, hv, Option.getD_some]

theorem model_second (hv : ids[v]? = some id) :
    model c g ids i x y (ids.length + v) = g.valueOf y id := by
  have hlt := (List.getElem?_eq_some_iff.mp hv).1
  rw [model, if_neg (by omega), if_pos (by omega), Nat.add_sub_cancel_left, hv, Option.getD_some]

theorem eval_raising {low high : Nat} : (∀ l ∈ c.raising i low high, l.eval m = true) ↔
    (∀ p ∈ c.switches.zip c.encoding.inputs, m p.1 = (p.2.1 != i)) ∧
      m low = false ∧ m high = true := by
  simp only [raising, List.forall_mem_append, List.forall_mem_map, List.forall_mem_cons,
    Literal.eval, beq_iff_eq, List.not_mem_nil, false_imp_iff, implies_true, and_true]

namespace Joins

theorem model_switch (h : c.Joins g e ids) (hs : (s, j, w) ∈ c.switches.zip c.encoding.inputs) :
    model c g ids i x y s = (j != i) := by
  have hfresh := h.switches_fresh (List.of_mem_zip hs).1
  rw [model, if_neg (by omega), if_neg (by omega)]
  cases hj : j != i with
  | true => exact List.any_eq_true.mpr ⟨_, hs, by simpa using hj⟩
  | false =>
    refine List.any_eq_false.mpr ?_
    rintro ⟨s', j', w'⟩ hs' htrue
    simp only [Bool.and_eq_true, beq_iff_eq] at htrue
    obtain ⟨rfl, hj'⟩ := htrue
    have heq := eq_of_mem_zip h.switches_nodup hs hs'
    cases heq
    rw [hj] at hj'
    cases hj'

theorem first_place (h : c.Joins g e ids) (hw : ids[w]? = some id) : c.first.place w = .ok w := by
  rw [h.first_eq, Block.place_eq_ok (List.getElem?_eq_some_iff.mp hw).1, Nat.zero_add]

theorem second_place (h : c.Joins g e ids) (hw : ids[w]? = some id) :
    c.second.place w = .ok (ids.length + w) := by
  rw [h.second_eq, Block.place_eq_ok (List.getElem?_eq_some_iff.mp hw).1]

theorem first_placeLiteral (h : c.Joins g e ids) (hw : ids[w]? = some id) (b : Bool) :
    c.first.placeLiteral ⟨w, b⟩ = .ok ⟨w, b⟩ := by
  rw [h.first_eq, Block.placeLiteral_eq_ok (List.getElem?_eq_some_iff.mp hw).1, Literal.shift,
    Nat.zero_add]

theorem second_placeLiteral (h : c.Joins g e ids) (hw : ids[w]? = some id) (b : Bool) :
    c.second.placeLiteral ⟨w, b⟩ = .ok ⟨ids.length + w, b⟩ := by
  rw [h.second_eq, Block.placeLiteral_eq_ok (List.getElem?_eq_some_iff.mp hw).1, Literal.shift]

/-- The inputs of the cone are entered with their values in the first copy. -/
theorem foldlM_enter (h : c.Joins g e ids) (hg : g.WellFormed) (m : Nat → Bool)
    {entries : List (Nat × Nat)} (hentries : ∀ p ∈ entries, p ∈ c.encoding.inputs)
    (z : Nat → Bool) :
    ∃ x, entries.foldlM (c.enter m) (patternOf g.numInputs z) = .ok (patternOf g.numInputs x) ∧
      (∀ j u, (j, u) ∈ entries → x j = m u) ∧ ∀ j, (∀ u, (j, u) ∉ entries) → x j = z j := by
  induction entries generalizing z with
  | nil => exact ⟨z, rfl, by simp, fun _ _ => rfl⟩
  | cons entry entries ih =>
    obtain ⟨hentry, hrest⟩ := List.forall_mem_cons.mp hentries
    obtain ⟨k, u⟩ := entry
    obtain ⟨id, hid, hn⟩ := h.represents.inputs_iff.mp hentry
    have henter : c.enter m (patternOf g.numInputs z) (k, u) =
        .ok (patternOf g.numInputs (Function.update z k (m u))) := by
      rw [enter, h.first_place hid, Except.ok_bind]
      exact assign_some_patternOf (hg.index_lt_numInputs hn) (m u)
    obtain ⟨x, hx, hin, hout⟩ := ih hrest (Function.update z k (m u))
    refine ⟨x, ?_, fun j v hv => ?_, fun j hj => ?_⟩
    · rw [List.foldlM_cons, henter, Except.ok_bind, hx]
    · by_cases hagain : ∃ v', (j, v') ∈ entries
      · obtain ⟨v', hv'⟩ := hagain
        have hsame : v = v' := h.represents.var_unique (hentries _ hv) (hrest _ hv')
        rw [hin j v' hv', hsame]
      · rw [not_exists] at hagain
        cases (List.mem_cons.mp hv).resolve_right (hagain v)
        rw [hout k hagain, Function.update_self]
    · have hjk : j ≠ k := by
        rintro rfl
        exact hj u List.mem_cons_self
      rw [hout j fun v hv => hj v (List.mem_cons_of_mem _ hv), Function.update_of_ne hjk]

/-- Every model has a pattern: the values of the first copy, and low outside of the cone. -/
theorem pattern_eq_ok (h : c.Joins g e ids) (hg : g.WellFormed) (hi : i < g.numInputs)
    (m : Nat → Bool) : ∃ x, c.pattern i m = .ok (.leaving g.numInputs i x) ∧
      (∀ j v, (j, v) ∈ c.encoding.inputs → x j = m v) ∧
      ∀ j, (∀ v, (j, v) ∉ c.encoding.inputs) → x j = false := by
  obtain ⟨x, hx, hin, hout⟩ := h.foldlM_enter hg m (fun _ hp => hp) fun _ => false
  refine ⟨x, ?_, hin, hout⟩
  rw [pattern, h.graph_eq, ← patternOf_false, hx, Except.ok_bind]
  exact assign_none_patternOf hi

theorem varOfInput?_eq_some_iff (h : c.Joins g e ids) :
    c.encoding.varOfInput? i = some v ↔ (i, v) ∈ c.encoding.inputs :=
  h.represents.varOfInput?_eq_some_iff

theorem exists_switch (h : c.Joins g e ids) (hv : (i, v) ∈ c.encoding.inputs) :
    ∃ s, (s, i, v) ∈ c.switches.zip c.encoding.inputs := by
  obtain ⟨k, hk⟩ := List.mem_iff_getElem?.mp hv
  have hlt : k < c.switches.length := by
    rw [h.length_switches]
    exact (List.getElem?_eq_some_iff.mp hk).1
  exact ⟨_, List.mem_of_getElem? (List.getElem?_zip_eq_some.mpr
    ⟨List.getElem?_eq_getElem hlt, hk⟩)⟩

theorem exists_inputs (h : c.Joins g e ids) (hm : c.formula.eval m = true) :
    ∃ x : Nat → Bool, ∀ j v, (j, v) ∈ c.encoding.inputs → x j = m v := by
  obtain ⟨x, hx⟩ := (h.represents.clauses_iff m).mp ((h.formula_iff m).mp hm).1
  refine ⟨x, fun j v hv => ?_⟩
  obtain ⟨id, hid, hn⟩ := h.represents.inputs_iff.mp hv
  rw [hx v id hid, Graph.valueOf_input hn]

/-- A model that raises an input is two simulations that differ in this input only. The other inputs
are those of the first copy. -/
theorem simulations (h : c.Joins g e ids) (hv : (i, v) ∈ c.encoding.inputs)
    (hm : c.formula.eval m = true)
    (hraising : ∀ l ∈ c.raising i v (ids.length + v), l.eval m = true)
    (hx : ∀ j u, (j, u) ∈ c.encoding.inputs → x j = m u) (hw : ids[w]? = some id) :
    m w = g.valueOf (Function.update x i false) id ∧
      m (ids.length + w) = g.valueOf (Function.update x i true) id := by
  obtain ⟨hfirst, hsecond, hswitches⟩ := (h.formula_iff m).mp hm
  obtain ⟨x', hx'⟩ := (h.represents.clauses_iff m).mp hfirst
  obtain ⟨y, hy⟩ := (h.represents.clauses_iff fun v => m (ids.length + v)).mp hsecond
  obtain ⟨hon, hlow, hhigh⟩ := eval_raising.mp hraising
  have hinput {j u : Nat} (hu : (j, u) ∈ c.encoding.inputs) : m u = x' j ∧
      m (ids.length + u) = y j := by
    obtain ⟨id, hid, hn⟩ := h.represents.inputs_iff.mp hu
    have hxu := hx' u id hid
    have hyu := hy u id hid
    rw [Graph.valueOf_input hn] at hxu hyu
    exact ⟨hxu, hyu⟩
  have hlowAgree : ∀ j u, (j, u) ∈ c.encoding.inputs → Function.update x i false j = x' j := by
    intro j u hu
    by_cases hj : j = i
    · subst hj
      rw [Function.update_self, ← (hinput hv).1, hlow]
    · rw [Function.update_of_ne hj, hx j u hu, (hinput hu).1]
  have hhighAgree : ∀ j u, (j, u) ∈ c.encoding.inputs → Function.update x i true j = y j := by
    intro j u hu
    by_cases hj : j = i
    · subst hj
      rw [Function.update_self, ← (hinput hv).2, hhigh]
    · -- The switches tie the two copies at all inputs of the cone but `i`.
      obtain ⟨s, hs⟩ := h.exists_switch hu
      have htied := hswitches _ hs (by rw [hon _ hs]; simpa using hj)
      rw [Function.update_of_ne hj, hx j u hu, htied, (hinput hu).2]
  have hmem := List.mem_of_getElem? hw
  rw [h.represents.depends hlowAgree _ hmem, h.represents.depends hhighAgree _ hmem]
  exact ⟨hx' w id hw, hy w id hw⟩

theorem eval_model (h : c.Joins g e ids) (x : Nat → Bool) :
    c.formula.eval (model c g ids i (Function.update x i false) (Function.update x i true)) =
      true := by
  refine (h.formula_iff _).mpr ⟨?_, ?_, ?_⟩
  · exact (h.represents.clauses_iff _).mpr ⟨_, fun v id hid => model_first hid⟩
  · exact (h.represents.clauses_iff _).mpr ⟨_, fun v id hid => model_second hid⟩
  · rintro ⟨s, j, u⟩ hs hon
    rw [h.model_switch hs] at hon
    obtain ⟨id, hid, hn⟩ := h.represents.inputs_iff.mp (List.of_mem_zip hs).2
    have hji : j ≠ i := by simpa using hon
    rw [model_first hid, model_second hid, Graph.valueOf_input hn, Graph.valueOf_input hn,
      Function.update_of_ne hji, Function.update_of_ne hji]

theorem model_raising (h : c.Joins g e ids) (hv : (i, v) ∈ c.encoding.inputs) (x : Nat → Bool) :
    ∀ l ∈ c.raising i v (ids.length + v),
      l.eval (model c g ids i (Function.update x i false) (Function.update x i true)) = true := by
  obtain ⟨id, hid, hn⟩ := h.represents.inputs_iff.mp hv
  refine eval_raising.mpr ⟨fun p hp => h.model_switch hp, ?_, ?_⟩
  · rw [model_first hid, Graph.valueOf_input hn, Function.update_self]
  · rw [model_second hid, Graph.valueOf_input hn, Function.update_self]

/-- The formula has a model that raises an input and gives the outputs of the two copies the values
`a` and `b` exactly if raising the input can change the edge from `a` to `b`. -/
theorem exists_model_iff (h : c.Joins g e ids) (hv : (i, v) ∈ c.encoding.inputs)
    (hw : ids[w]? = some e.node) (a b : Bool) :
    (∃ m, c.formula.eval m = true ∧ (∀ l ∈ c.raising i v (ids.length + v), l.eval m = true) ∧
      (m w ^^ e.complemented) = a ∧ (m (ids.length + w) ^^ e.complemented) = b) ↔
    ∃ x, g.edgeValueOf (Function.update x i false) e = a ∧
      g.edgeValueOf (Function.update x i true) e = b := by
  constructor
  · rintro ⟨m, hm, hraising, ha, hb⟩
    obtain ⟨x, hx⟩ := h.exists_inputs hm
    obtain ⟨hlow, hhigh⟩ := h.simulations hv hm hraising hx hw
    rw [hlow] at ha
    rw [hhigh] at hb
    exact ⟨x, ha, hb⟩
  · rintro ⟨x, ha, hb⟩
    refine ⟨_, h.eval_model x, h.model_raising hv x, ?_, ?_⟩
    · rw [model_first hw]
      exact ha
    · rw [model_second hw]
      exact hb

end Joins

end AndInverter.ConeCopies
