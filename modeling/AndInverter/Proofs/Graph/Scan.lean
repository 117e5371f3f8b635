import AndInverter.Graph.Simulation
import AndInverter.Proofs.Contract
import AndInverter.Proofs.Graph.WellFormed

/-!
# Scans

A scan annotates each node by one step from the annotations of the nodes before it. So annotations
satisfy the equations of their steps, and what every step establishes from the earlier annotations
holds of all. The values of the nodes are the case that simulation reads.
-/

namespace AndInverter.Graph

variable {g : Graph} {β : Type}

def annotate (f : Array β → Node → β) (earlier : Array β) (n : Node) : Array β :=
  earlier.push (f earlier n)

theorem size_foldl_annotate (f : Array β → Node → β) (earlier : Array β) (ns : List Node) :
    (ns.foldl (annotate f) earlier).size = earlier.size + ns.length := by
  induction ns generalizing earlier with
  | nil => rfl
  | cons n ns ih =>
    rw [List.foldl_cons, ih, annotate, Array.size_push, List.length_cons]
    omega

theorem extract_foldl_annotate (f : Array β → Node → β) (earlier : Array β) (ns : List Node) :
    (ns.foldl (annotate f) earlier).extract 0 earlier.size = earlier := by
  induction ns generalizing earlier with
  | nil => simp
  | cons n ns ih =>
    have h := congrArg (·.extract 0 earlier.size) (ih (annotate f earlier n))
    simpa [annotate] using h

theorem getElem?_foldl_annotate (f : Array β → Node → β) (earlier : Array β) (ns : List Node)
    (i : Nat) : (ns.foldl (annotate f) earlier)[earlier.size + i]? =
      ns[i]?.map (f ((ns.foldl (annotate f) earlier).extract 0 (earlier.size + i))) := by
  induction ns generalizing earlier i with
  | nil => simp
  | cons n ns ih =>
    cases i with
    | zero =>
      have h := congrArg (·[earlier.size]?) (extract_foldl_annotate f (annotate f earlier n) ns)
      simp only [annotate, Array.size_push, Array.getElem?_extract_of_succ,
        Array.getElem?_push_size] at h
      rw [Nat.add_zero, extract_foldl_annotate]
      exact h
    | succ i =>
      have h := ih (annotate f earlier n) i
      rw [annotate, Array.size_push] at h
      rw [show earlier.size + (i + 1) = earlier.size + 1 + i by omega]
      exact h

theorem getElem?_scan (f : Array β → Node → β) (id : Nat) :
    (g.scan f)[id]? = g.nodes[id]?.map (f ((g.scan f).extract 0 id)) := by
  have h := getElem?_foldl_annotate f #[] g.nodes.toList id
  rw [Array.foldl_toList] at h
  change ((g.scan f)[0 + id]?) = g.nodes.toList[id]?.map (f ((g.scan f).extract 0 (0 + id))) at h
  rwa [Nat.zero_add, Array.getElem?_toList] at h

theorem size_scan (f : Array β → Node → β) : (g.scan f).size = g.nodes.size := by
  have h := size_foldl_annotate f #[] g.nodes.toList
  rw [Array.foldl_toList] at h
  change (g.scan f).size = 0 + g.nodes.toList.length at h
  rwa [Nat.zero_add, Array.length_toList] at h

/-- A step reads the annotations of earlier nodes as they will be in the end. -/
theorem getElem?_extract_scan (f : Array β → Node → β) {id j : Nat} (h : j < id) :
    ((g.scan f).extract 0 id)[j]? = (g.scan f)[j]? := by
  rw [Array.getElem?_extract]
  split
  · rw [Nat.zero_add]
  · rename_i hj
    rw [eq_comm, Array.getElem?_eq_none_iff]
    omega

/-- What each step establishes, given that the earlier ones did, holds of all annotations. The
steps then succeed. -/
theorem scanM_eq_ok {ε : Type} {f : Array β → Node → Except ε β} {P : Nat → β → Prop}
    (h : ∀ earlier n, g.nodes[earlier.size]? = some n → (∀ i b, earlier[i]? = some b → P i b) →
      ∃ b, f earlier n = .ok b ∧ P earlier.size b) :
    ∃ bs, g.scanM f = .ok bs ∧ bs.size = g.nodes.size ∧ ∀ i b, bs[i]? = some b → P i b := by
  have hlist : ∀ (ns : List Node) (earlier : Array β), earlier.size + ns.length = g.nodes.size →
      (∀ i, ns[i]? = g.nodes[earlier.size + i]?) → (∀ i b, earlier[i]? = some b → P i b) →
      ∃ bs, ns.foldlM (fun earlier n => return earlier.push (← f earlier n)) earlier = .ok bs ∧
        bs.size = g.nodes.size ∧ ∀ i b, bs[i]? = some b → P i b := by
    intro ns
    induction ns with
    | nil =>
      intro earlier hsize _ hP
      exact ⟨earlier, rfl, by simpa using hsize, hP⟩
    | cons n ns ih =>
      intro earlier hsize hns hP
      obtain ⟨b, hb, hPb⟩ := h earlier n (hns 0).symm hP
      obtain ⟨bs, hbs, hrest⟩ := ih (earlier.push b)
        (by rw [Array.size_push, ← hsize, List.length_cons]; omega)
        (fun i => by
          have := hns (i + 1)
          rw [List.getElem?_cons_succ] at this
          rw [this, Array.size_push, show earlier.size + (i + 1) = earlier.size + 1 + i by omega])
        (fun i c hc => by
          rcases getElem?_push_iff.mp hc with ⟨rfl, rfl⟩ | hc
          · exact hPb
          · exact hP i c hc)
      refine ⟨bs, ?_, hrest⟩
      rw [List.foldlM_cons, hb]
      exact hbs
  obtain ⟨bs, hbs, hrest⟩ := hlist g.nodes.toList #[] (by simp) (by simp) (by simp)
  refine ⟨bs, ?_, hrest⟩
  rw [scanM, ← Array.foldlM_toList]
  exact hbs

/-- A scan keeps an invariant of the annotations so far and the state. -/
theorem ensures_scanM {ε σ : Type} {f : Array β → Node → ExceptT ε (StateM σ) β}
    {P : Array β → σ → Prop} {err : ε → σ → Prop} {s : σ}
    (hf : ∀ earlier n s, g.nodes[earlier.size]? = some n → P earlier s →
      Ensures (f earlier n) s (fun b => P (earlier.push b)) err) (hP : P #[] s) :
    Ensures (g.scanM f) s (fun bs s' => bs.size = g.size ∧ P bs s') err := by
  rw [scanM, ← Array.foldlM_toList]
  let Q (earlier : Array β) (rest : List Node) (s : σ) : Prop :=
    rest = g.nodes.toList.drop earlier.size ∧ earlier.size + rest.length = g.size ∧ P earlier s
  have hstart : Q #[] g.nodes.toList s := ⟨rfl, by simp [Graph.size], hP⟩
  refine (Ensures.foldlM (P := Q) ?_ hstart).mono ?_ fun _ _ h => h
  · rintro earlier n rest s - ⟨hrest, hsize, hP⟩
    have hn : g.nodes[earlier.size]? = some n := by
      rw [← Array.getElem?_toList, ← List.head?_drop, ← hrest]
      rfl
    refine (hf earlier n s hn hP).bind fun b s' hP' => Ensures.result ⟨?_, ?_, hP'⟩
    · rw [Array.size_push, ← List.tail_drop, ← hrest]
      rfl
    · rw [Array.size_push]
      rw [List.length_cons] at hsize
      omega
  · rintro earlier s ⟨-, hsize, hP⟩
    exact ⟨hsize, hP⟩

/-- The value of a node, where input `i` has the value `x i`. -/
def valueOf (g : Graph) (x : Nat → Bool) (id : Nat) : Bool := (g.values x)[id]?.getD false

def edgeValueOf (g : Graph) (x : Nat → Bool) (e : Edge) : Bool :=
  g.valueOf x e.node ^^ e.complemented

variable {x : Nat → Bool} {id i : Nat} {a b e : Edge}

theorem valueOf_constant (h : g.nodes[id]? = some .constant) : g.valueOf x id = false := by
  rw [valueOf, values, getElem?_scan, h]
  rfl

theorem valueOf_input (h : g.nodes[id]? = some (.input i)) : g.valueOf x id = x i := by
  rw [valueOf, values, getElem?_scan, h]
  rfl

theorem valueOf_gate (hg : g.WellFormed) (h : g.nodes[id]? = some (.gate a b)) :
    g.valueOf x id = (g.edgeValueOf x a && g.edgeValueOf x b) := by
  have ha := hg.fanin_lt h (e := a) (by simp)
  have hb := hg.fanin_lt h (e := b) (by simp)
  rw [valueOf, values, getElem?_scan, h]
  simp only [Option.map_some, Option.getD_some, edgeValue, getElem?_extract_scan _ ha,
    getElem?_extract_scan _ hb]
  rfl

theorem valueOf_output (hg : g.WellFormed) (h : g.nodes[id]? = some (.output i e)) :
    g.valueOf x id = g.edgeValueOf x e := by
  have he := hg.fanin_lt h (e := e) (by simp)
  rw [valueOf, values, getElem?_scan, h]
  simp only [Option.map_some, Option.getD_some, edgeValue, getElem?_extract_scan _ he]
  rfl

theorem valueOf_eq_false (h : g.nodes[id]? = none) : g.valueOf x id = false := by
  rw [valueOf, values, getElem?_scan, h]
  rfl

/-- A node that is no input has the values of its fanins to go by. -/
theorem valueOf_eq_of_fanins (hg : g.WellFormed) {y : Nat → Bool} {n : Node}
    (hn : g.nodes[id]? = some n)
    (hfanins : ∀ e ∈ n.fanins, g.valueOf x e.node = g.valueOf y e.node)
    (hinput : ∀ i, n = .input i → x i = y i) : g.valueOf x id = g.valueOf y id := by
  have hedge : ∀ e ∈ n.fanins, g.edgeValueOf x e = g.edgeValueOf y e := by
    intro e he
    rw [edgeValueOf, edgeValueOf, hfanins e he]
  cases n with
  | constant => rw [valueOf_constant hn, valueOf_constant hn]
  | input i => rw [valueOf_input hn, valueOf_input hn, hinput i rfl]
  | gate a b =>
    rw [valueOf_gate hg hn, valueOf_gate hg hn, hedge a (by simp),
      hedge b (by simp)]
  | output i e =>
    rw [valueOf_output hg hn, valueOf_output hg hn, hedge e (by simp)]

/-- In a set of nodes that is closed under fanins, values only depend on the inputs of the set. -/
theorem valueOf_congr (hg : g.WellFormed) {P : Nat → Prop} {y : Nat → Bool}
    (hclosed : ∀ id n e, P id → g.nodes[id]? = some n → e ∈ n.fanins → P e.node)
    (hxy : ∀ id i, P id → g.nodes[id]? = some (.input i) → x i = y i) (hid : P id) :
    g.valueOf x id = g.valueOf y id := by
  induction id using Nat.strongRecOn with
  | ind id ih =>
    cases hn : g.nodes[id]? with
    | none => rw [valueOf_eq_false hn, valueOf_eq_false hn]
    | some n =>
      apply valueOf_eq_of_fanins hg hn
      · intro e he
        exact ih e.node (hg.fanin_lt hn he) (hclosed id n e hid hn he)
      · rintro i rfl
        exact hxy id i hid hn

end AndInverter.Graph
