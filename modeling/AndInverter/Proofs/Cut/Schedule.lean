import AndInverter.Proofs.Contract
import AndInverter.Proofs.Cut.Enumeration
import AndInverter.Proofs.Graph.Building
import AndInverter.Proofs.Graph.Scan

/-!
# Enumeration is sound and complete

The table lists, for every node that is no output, exactly the irredundant cuts within the bound,
each once and in order. Either schedule comes to a node after its fanins, so both find this table
and neither ever misses the family of a fanin.
-/

namespace AndInverter

variable {g : Graph} {k id r : Nat} {families : Array CutFamily}

namespace FeasibleCuts

structure Complete (g : Graph) (k : Nat) (families : Array CutFamily) : Prop where
  size_eq : families.size = g.size
  family {id : Nat} {n : Node} {f : CutFamily} : g.nodes[id]? = some n → families[id]? = some f →
    if n.isOutput then f = .empty else f.Lists g k id

theorem sequential_eq_ok (hg : g.WellFormed) (hk : 0 < k) :
    ∃ families, sequential g k = .ok families ∧ Complete g k families := by
  obtain ⟨families, hok, hsize, hP⟩ := g.scanM_eq_ok
    (f := fun earlier n => nodeFamily k earlier earlier.size n)
    (P := fun id f => ∀ n, g.nodes[id]? = some n →
      if n.isOutput then f = .empty else f.Lists g k id) fun earlier n hn hP => by
    have hfanins : ∀ e ∈ n.fanins, ∃ f, earlier[e.node]? = some f ∧ f.Lists g k e.node := by
      intro e he
      have hlt := hg.fanin_lt hn he
      obtain ⟨m, hm, hout⟩ := hg.drives_fanin hn he
      have hfit := hP e.node earlier[e.node] (Array.getElem?_eq_getElem hlt) m hm
      rw [hout] at hfit
      exact ⟨_, Array.getElem?_eq_getElem hlt, hfit⟩
    obtain ⟨f, hf, hfit⟩ := nodeFamily_eq_ok hk hn hfanins
    refine ⟨f, hf, fun n' hn' => ?_⟩
    rw [hn] at hn'
    cases hn'
    exact hfit
  exact ⟨families, hok, hsize, fun hn hf => hP _ _ hf _ hn⟩

def level (g : Graph) (id : Nat) : Nat := g.levels[id]?.getD 0

theorem level_gate {a b : Edge} (hg : g.WellFormed) (hn : g.nodes[id]? = some (.gate a b)) :
    level g id = 1 + max (level g a.node) (level g b.node) := by
  have ha := hg.fanin_lt hn (e := a) (by simp)
  have hb := hg.fanin_lt hn (e := b) (by simp)
  rw [level, Graph.levels, Graph.getElem?_scan, hn]
  simp only [Option.map_some, Option.getD_some, Graph.getElem?_extract_scan _ ha,
    Graph.getElem?_extract_scan _ hb]
  rfl

theorem level_fanin_lt {n : Node} {e : Edge} (hg : g.WellFormed) (hn : g.nodes[id]? = some n)
    (hout : n.isOutput = false) (he : e ∈ n.fanins) : level g e.node < level g id := by
  cases n with
  | constant | input => cases he
  | output => cases hout
  | gate a b =>
    rw [level_gate hg hn]
    rw [Node.mem_fanins_gate] at he
    rcases he with rfl | rfl <;> omega

theorem le_foldl_max (xs : List Nat) (m : Nat) :
    m ≤ xs.foldl max m ∧ ∀ x ∈ xs, x ≤ xs.foldl max m := by
  induction xs generalizing m with
  | nil => simp
  | cons x xs ih =>
    have h := ih (max m x)
    rw [List.foldl_cons]
    refine ⟨by omega, List.forall_mem_cons.mpr ⟨by omega, h.2⟩⟩

theorem level_le_depth (hid : id < g.size) : level g id ≤ g.levels.foldl max 0 := by
  have hid' : id < g.levels.size := by rwa [Graph.levels, Graph.size_scan]
  rw [level, Array.getElem?_eq_getElem hid', Option.getD_some, ← Array.foldl_toList]
  exact (le_foldl_max _ 0).2 _ (by simp)

def enterRank (g : Graph) (id : Nat) (ranks : Array (List Nat)) : Array (List Nat) :=
  if g.nodes[id]?.any Node.isOutput then ranks else ranks.modify (level g id) (id :: ·)

theorem size_foldr_enterRank (ids : List Nat) (init : Array (List Nat)) :
    (ids.foldr (enterRank g) init).size = init.size := by
  induction ids with
  | nil => rfl
  | cons id ids ih =>
    rw [List.foldr_cons, enterRank]
    split
    · exact ih
    · rw [Array.size_modify, ih]

theorem mem_foldr_enterRank {ids rank : List Nat} {size : Nat}
    (h : (ids.foldr (enterRank g) (.replicate size []))[r]? = some rank) :
    id ∈ rank ↔ id ∈ ids ∧ g.nodes[id]?.any Node.isOutput = false ∧ level g id = r := by
  induction ids generalizing rank with
  | nil =>
    rw [List.foldr_nil, Array.getElem?_replicate] at h
    split at h
    · cases h
      simp
    · cases h
  | cons m ids ih =>
    rw [List.foldr_cons, enterRank] at h
    by_cases hout : g.nodes[m]?.any Node.isOutput = true
    · rw [if_pos hout] at h
      rw [ih h, List.mem_cons, or_and_right]
      refine ⟨.inr, fun h => h.resolve_left ?_⟩
      rintro ⟨rfl, h, -⟩
      simp [hout] at h
    · rw [if_neg hout, Array.getElem?_modify] at h
      simp only [Bool.not_eq_true] at hout
      split at h
      · rename_i hr
        obtain ⟨old, hold, rfl⟩ := Option.map_eq_some_iff.mp h
        rw [List.mem_cons, List.mem_cons, ih hold, or_and_right]
        refine or_congr_left ⟨?_, And.left⟩
        rintro rfl
        exact ⟨rfl, hout, hr⟩
      · rename_i hr
        rw [ih h, List.mem_cons, or_and_right]
        refine ⟨.inr, fun h => h.resolve_left ?_⟩
        rintro ⟨rfl, -, h⟩
        exact hr h

theorem ranks_eq_foldr : ranks g =
    (List.range g.size).foldr (enterRank g) (.replicate (g.levels.foldl max 0 + 1) []) := rfl

def IsRank (g : Graph) (r : Nat) (rank : List Nat) : Prop :=
  ∀ id, id ∈ rank ↔ (∃ n, g.nodes[id]? = some n ∧ n.isOutput = false) ∧ level g id = r

theorem isRank_of_ranks {rank : List Nat} (h : (ranks g)[r]? = some rank) : IsRank g r rank := by
  intro id
  rw [mem_foldr_enterRank h, List.mem_range, ← and_assoc]
  refine and_congr_left fun _ => ⟨?_, ?_⟩
  · rintro ⟨hlt, hout⟩
    have hn : g.nodes[id]? = some g.nodes[id] := Array.getElem?_eq_getElem hlt
    rw [hn] at hout
    exact ⟨_, hn, hout⟩
  · rintro ⟨n, hn, hout⟩
    rw [hn]
    exact ⟨Graph.lt_size_of_nodes_eq hn, hout⟩

theorem level_lt_size_ranks (hid : id < g.size) : level g id < (ranks g).size := by
  have h := level_le_depth hid
  rw [ranks_eq_foldr, size_foldr_enterRank, Array.size_replicate]
  omega

/-- The families as they stand when the levels below `r` have been worked through. -/
structure CompleteBelow (g : Graph) (k r : Nat) (families : Array CutFamily) : Prop where
  size_eq : families.size = g.size
  output {id : Nat} {n : Node} {f : CutFamily} : g.nodes[id]? = some n → n.isOutput = true →
    families[id]? = some f → f = .empty
  lists {id : Nat} {n : Node} {f : CutFamily} : g.nodes[id]? = some n → n.isOutput = false →
    level g id < r → families[id]? = some f → f.Lists g k id

theorem getElem?_foldl_set {found : List (Nat × CutFamily)} {f : CutFamily}
    (h : (found.foldl (fun fs (id, f) => fs.setIfInBounds id f) families)[id]? = some f) :
    (id, f) ∈ found ∨ (∀ p ∈ found, p.1 ≠ id) ∧ families[id]? = some f := by
  induction found generalizing families with
  | nil => exact .inr ⟨by simp, h⟩
  | cons p found ih =>
    rcases ih h with h | ⟨hne, h⟩
    · exact .inl (List.mem_cons_of_mem p h)
    · rw [Array.getElem?_setIfInBounds] at h
      split at h
      · rename_i hp
        split at h
        · cases h
          exact .inl (hp ▸ List.mem_cons_self)
        · cases h
      · rename_i hp
        exact .inr ⟨List.forall_mem_cons.mpr ⟨hp, hne⟩, h⟩

theorem size_foldl_set (found : List (Nat × CutFamily)) (families : Array CutFamily) :
    (found.foldl (fun fs (id, f) => fs.setIfInBounds id f) families).size = families.size := by
  induction found generalizing families with
  | nil => rfl
  | cons p found ih => rw [List.foldl_cons, ih, Array.size_setIfInBounds]

/-- The nodes of the next rank find the families of their fanins. -/
theorem CompleteBelow.nodeFamily_eq_ok (hfs : CompleteBelow g k (level g id) families)
    (hg : g.WellFormed) (hk : 0 < k) {n : Node} (hn : g.nodes[id]? = some n)
    (hout : n.isOutput = false) :
    ∃ f, nodeFamily k families id n = .ok f ∧ f.Lists g k id := by
  have hfanins : ∀ e ∈ n.fanins, ∃ f, families[e.node]? = some f ∧ f.Lists g k e.node := by
    intro e he
    obtain ⟨m, hm, hmout⟩ := hg.drives_fanin hn he
    have hlt : e.node < families.size := by
      rw [hfs.size_eq]
      exact Graph.lt_size_of_nodes_eq hm
    refine ⟨_, Array.getElem?_eq_getElem hlt, ?_⟩
    exact hfs.lists hm hmout (level_fanin_lt hg hn hout he) (Array.getElem?_eq_getElem hlt)
  obtain ⟨f, hf, hfit⟩ := FeasibleCuts.nodeFamily_eq_ok hk hn hfanins
  rw [hout] at hfit
  exact ⟨f, hf, hfit⟩

/-- The families found for a rank complete the table by a level. -/
theorem CompleteBelow.setRank (hfs : CompleteBelow g k r families) {rank : List Nat}
    (hrank : IsRank g r rank) {found : List (Nat × CutFamily)}
    (hto : ∀ id ∈ rank, ∃ p ∈ found, p.1 = id)
    (hfrom : ∀ p ∈ found, p.1 ∈ rank ∧ p.2.Lists g k p.1) :
    CompleteBelow g k (r + 1)
      (found.foldl (fun fs (id, f) => fs.setIfInBounds id f) families) := by
  refine ⟨?_, ?_, ?_⟩
  · rw [size_foldl_set, hfs.size_eq]
  · intro id n f hn hout hf
    rcases getElem?_foldl_set hf with hf | ⟨-, hf⟩
    · obtain ⟨⟨n', hn', hout'⟩, -⟩ := (hrank _).mp (hfrom _ hf).1
      rw [hn] at hn'
      cases hn'
      rw [hout] at hout'
      cases hout'
    · exact hfs.output hn hout hf
  · intro id n f hn hout hlt hf
    rcases getElem?_foldl_set hf with hf | ⟨hne, hf⟩
    · exact (hfrom _ hf).2
    · have hr : level g id ≠ r := by
        intro hr
        obtain ⟨p, hp, hid⟩ := hto id ((hrank _).mpr ⟨⟨n, hn, hout⟩, hr⟩)
        exact hne p hp hid
      exact hfs.lists hn hout (by omega) hf

theorem addRank_eq_ok {rank : List Nat} (hg : g.WellFormed) (hk : 0 < k)
    (hfs : CompleteBelow g k r families) (hrank : IsRank g r rank) :
    ∃ families', addRank g k families rank = .ok families' ∧
      CompleteBelow g k (r + 1) families' := by
  have hstep : ∀ id ∈ rank, ∃ p, (do return (id, ← nodeFamily k families id (← g.node id)) :
      Except Fault (Nat × CutFamily)) = .ok p ∧ p.1 = id ∧ p.2.Lists g k id := by
    intro id hid
    obtain ⟨⟨n, hn, hout⟩, rfl⟩ := (hrank _).mp hid
    obtain ⟨f, hf, hfit⟩ := hfs.nodeFamily_eq_ok hg hk hn hout
    refine ⟨(id, f), ?_, rfl, hfit⟩
    have hnode : g.node id = .ok n := by simp [Graph.node, hn]
    rw [hnode]
    change (nodeFamily k families id n >>= fun f => pure (id, f)) = _
    rw [hf]
    rfl
  obtain ⟨found, hfound, hto, hfrom⟩ := Except.mapM_eq_ok hstep
  have hranked : ∀ id ∈ rank, ∃ p ∈ found, p.1 = id := by
    intro id hid
    obtain ⟨p, hp, hpid, -⟩ := hto id hid
    exact ⟨p, hp, hpid⟩
  have hlists : ∀ p ∈ found, p.1 ∈ rank ∧ p.2.Lists g k p.1 := by
    intro p hp
    obtain ⟨id, hid, rfl, hlists⟩ := hfrom p hp
    exact ⟨hid, hlists⟩
  refine ⟨_, ?_, hfs.setRank hrank hranked hlists⟩
  rw [addRank, hfound]
  rfl

/-- Ranks that are worked through one after the other complete the table up to the last of them. -/
theorem foldlM_addRank_eq_ok (hg : g.WellFormed) (hk : 0 < k) {rs : List (List Nat)}
    (hrs : ∀ i rank, rs[i]? = some rank → IsRank g (r + i) rank)
    (hfs : CompleteBelow g k r families) :
    ∃ families', rs.foldlM (addRank g k) families = .ok families' ∧
      CompleteBelow g k (r + rs.length) families' := by
  induction rs generalizing r families with
  | nil => exact ⟨families, rfl, hfs⟩
  | cons rank rs ih =>
    obtain ⟨fs, hok, hnext⟩ := addRank_eq_ok hg hk hfs (hrs 0 rank rfl)
    have hrest : ∀ i rank', rs[i]? = some rank' → IsRank g (r + 1 + i) rank' := by
      intro i rank' h
      rw [Nat.add_assoc, Nat.add_comm 1]
      exact hrs (i + 1) rank' h
    obtain ⟨fs', hok', hlast⟩ := ih hrest hnext
    refine ⟨fs', ?_, ?_⟩
    · rw [List.foldlM_cons, hok]
      exact hok'
    · rwa [List.length_cons, Nat.add_comm rs.length, ← Nat.add_assoc]

theorem completeBelow_zero : CompleteBelow g k 0 (.replicate g.size .empty) := by
  refine ⟨Array.size_replicate, fun _ _ hf => ?_, fun _ _ hlt => absurd hlt (Nat.not_lt_zero _)⟩
  rw [Array.getElem?_replicate] at hf
  split at hf
  · cases hf
    rfl
  · cases hf

/-- Ranks from the lowest on complete the empty table up to the last of them. -/
theorem foldlM_ranks_eq_ok (hg : g.WellFormed) (hk : 0 < k) {rs : List (List Nat)}
    (hrs : ∀ i rank, rs[i]? = some rank → IsRank g i rank) :
    ∃ families, rs.foldlM (addRank g k) (.replicate g.size .empty) = .ok families ∧
      CompleteBelow g k rs.length families := by
  have hrs' : ∀ i rank, rs[i]? = some rank → IsRank g (0 + i) rank := by
    intro i rank h
    rw [Nat.zero_add]
    exact hrs i rank h
  obtain ⟨families, hok, hbelow⟩ := foldlM_addRank_eq_ok hg hk hrs' completeBelow_zero
  rw [Nat.zero_add] at hbelow
  exact ⟨families, hok, hbelow⟩

/-- When as many ranks as there are levels are done, the table is complete. -/
theorem CompleteBelow.complete (hfs : CompleteBelow g k (ranks g).size families) :
    Complete g k families := by
  refine ⟨hfs.size_eq, fun {id n f} hn hf => ?_⟩
  split
  · rename_i hout
    exact hfs.output hn hout hf
  · rename_i hout
    have hlt := level_lt_size_ranks (Graph.lt_size_of_nodes_eq hn)
    exact hfs.lists hn (by simpa using hout) hlt hf

theorem byLevels_eq_ok (hg : g.WellFormed) (hk : 0 < k) :
    ∃ families, byLevels g k = .ok families ∧ Complete g k families := by
  have hranks : ∀ i rank, (ranks g).toList[i]? = some rank → IsRank g i rank := by
    intro i rank h
    rw [Array.getElem?_toList] at h
    exact isRank_of_ranks h
  obtain ⟨fs, hok, hlast⟩ := foldlM_ranks_eq_ok hg hk hranks
  refine ⟨fs, ?_, hlast.complete⟩
  rw [byLevels, ← Array.foldlM_toList]
  exact hok

theorem ofGraph_eq_ok (hg : g.WellFormed) (hk : 0 < k) (schedule : Schedule) :
    ∃ families, ofGraph g k schedule = .ok { bound := k, families } ∧ Complete g k families := by
  cases schedule with
  | sequential =>
    obtain ⟨families, hok, hcomplete⟩ := sequential_eq_ok hg hk
    refine ⟨families, ?_, hcomplete⟩
    simp only [ofGraph, if_neg hk.ne', hok]
  | byLevels =>
    obtain ⟨families, hok, hcomplete⟩ := byLevels_eq_ok hg hk
    refine ⟨families, ?_, hcomplete⟩
    simp only [ofGraph, if_neg hk.ne', hok]

theorem Complete.nodup_cuts (h : Complete g k families) (id : Nat) :
    (cuts { bound := k, families } id).Nodup := by
  rw [cuts]
  cases hf : families[id]? with
  | none => exact List.nodup_nil
  | some f =>
    have hlt : id < g.nodes.size := by
      rw [← Graph.size, ← h.size_eq]
      exact (Array.getElem?_eq_some_iff.mp hf).1
    have hfit := h.family (Array.getElem?_eq_getElem hlt) hf
    split at hfit
    · rw [hfit]
      exact List.nodup_nil
    · refine hfit.sorted.imp ?_
      rintro c _ hc rfl
      exact CutFamily.not_precedes_self c hc

theorem Complete.mem_cuts_iff {n : Node} {c : Cut} (h : Complete g k families)
    (hn : g.nodes[id]? = some n) (hout : n.isOutput = false) :
    c ∈ cuts { bound := k, families } id ↔ c.size ≤ k ∧ g.Irredundant c.leafSet id := by
  have hlt : id < families.size := by
    rw [h.size_eq]
    exact Graph.lt_size_of_nodes_eq hn
  have hf : families[id]? = some families[id] := Array.getElem?_eq_getElem hlt
  have hfit := h.family hn hf
  rw [if_neg (by simp [hout])] at hfit
  rw [cuts, hf]
  exact hfit.mem_iff

theorem Complete.cuts_of_output {n : Node} (h : Complete g k families)
    (hn : g.nodes[id]? = some n) (hout : n.isOutput = true) :
    cuts { bound := k, families } id = [] := by
  have hlt : id < families.size := by
    rw [h.size_eq]
    exact Graph.lt_size_of_nodes_eq hn
  have hf : families[id]? = some families[id] := Array.getElem?_eq_getElem hlt
  have hempty := h.family hn hf
  rw [if_pos hout] at hempty
  rw [cuts, hf, hempty]
  rfl

/-- Whatever the schedule, the table is found, and it lists the irredundant cuts with at most `k`
leaves of every node but the outputs, smaller cuts first and cuts of one size by their leaves. -/
theorem ofGraph_complete (hg : g.Built) (hk : 0 < k) (schedule : Schedule) :
    ∃ t, ofGraph g k schedule = .ok t ∧ t.bound = k ∧ ∀ id n, g.nodes[id]? = some n →
      (n.isOutput = true → t.cuts id = []) ∧
      (n.isOutput = false →
        (∀ S : Finset Nat, (∃ c ∈ t.cuts id, c.leaves.toFinset = S) ↔
          S.card ≤ k ∧ g.Irredundant S id) ∧
        (∀ c ∈ t.cuts id, c.leaves.Pairwise (· < ·)) ∧
        (t.cuts id).Nodup ∧ (t.cuts id).Pairwise CutFamily.Precedes) := by
  obtain ⟨families, hok, hcomplete⟩ := ofGraph_eq_ok hg.wellFormed hk schedule
  refine ⟨{ bound := k, families }, hok, rfl, fun id n hn => ?_⟩
  have hlt : id < families.size := by
    rw [hcomplete.size_eq]
    exact Graph.lt_size_of_nodes_eq hn
  have hf : families[id]? = some families[id] := Array.getElem?_eq_getElem hlt
  have hcuts : cuts { bound := k, families } id = families[id].cuts := by
    rw [cuts, hf]
    rfl
  have hfit := hcomplete.family hn hf
  rw [hcuts]
  constructor
  · intro hout
    rw [if_pos hout] at hfit
    rw [hfit]
    rfl
  · intro hout
    rw [if_neg (by simp [hout])] at hfit
    refine ⟨fun S => ?_, fun c _ => c.ascending, ?_, hfit.sorted⟩
    · constructor
      · rintro ⟨c, hc, rfl⟩
        have hc := hfit.mem_iff.mp hc
        exact ⟨c.card_leafSet.trans_le hc.1, hc.2⟩
      · rintro ⟨hS, hirr⟩
        obtain ⟨c, rfl⟩ := Cut.exists_leafSet_eq S
        exact ⟨c, hfit.mem_iff.mpr ⟨c.card_leafSet ▸ hS, hirr⟩, rfl⟩
    · refine hfit.sorted.imp ?_
      rintro c _ hc rfl
      exact CutFamily.not_precedes_self c hc

theorem irredundant_reconvergent : Graph.reconvergent.Irredundant {1, 2} 5 := by
  have h1 : Graph.reconvergent.nodes[1]? = some (.input 0) := rfl
  have h2 : Graph.reconvergent.nodes[2]? = some (.input 1) := rfl
  have h3 : Graph.reconvergent.nodes[3]? = some (.gate ⟨1, false⟩ ⟨2, false⟩) := rfl
  have h4 : Graph.reconvergent.nodes[4]? = some (.gate ⟨1, true⟩ ⟨2, true⟩) := rfl
  have h5 : Graph.reconvergent.nodes[5]? = some (.gate ⟨3, true⟩ ⟨4, true⟩) := rfl
  have hsep (id : Nat) (hid : id = 1 ∨ id = 2) : Graph.reconvergent.Separates {1, 2} id :=
    Graph.separates_of_mem (by simp [hid])
  refine ⟨?_, fun T hT hTsep => hT.2 ?_⟩
  · rw [Graph.separates_gate_iff h5, Graph.separates_gate_iff h3, Graph.separates_gate_iff h4]
    exact .inr ⟨.inr ⟨hsep 1 (.inl rfl), hsep 2 (.inr rfl)⟩,
      .inr ⟨hsep 1 (.inl rfl), hsep 2 (.inr rfl)⟩⟩
  · rw [Graph.separates_gate_iff h5, Graph.separates_gate_iff h3, Graph.separates_input_iff h1,
      Graph.separates_input_iff h2] at hTsep
    have h5T : 5 ∉ T := fun h => by simpa using hT.1 h
    have h3T : 3 ∉ T := fun h => by simpa using hT.1 h
    have h12 := ((hTsep.resolve_left h5T).1.resolve_left h3T)
    intro x hx
    rcases Finset.mem_insert.mp hx with rfl | hx
    · exact h12.1
    · rw [Finset.mem_singleton.mp hx]
      exact h12.2

/-- The two inputs are found as a cut of the gate above the reconvergence. -/
theorem ofGraph_complete_reconvergent : Graph.reconvergent.Built ∧ 0 < 2 ∧
    ∃ t, ofGraph Graph.reconvergent 2 .byLevels = .ok t ∧
      ∃ c ∈ t.cuts 5, c.leaves.toFinset = {1, 2} := by
  refine ⟨Graph.reconvergent_built, by decide, ?_⟩
  obtain ⟨t, ht, -, hcuts⟩ :=
    ofGraph_complete Graph.reconvergent_built (by decide : 0 < 2) .byLevels
  have h5 : Graph.reconvergent.nodes[5]? = some (.gate ⟨3, true⟩ ⟨4, true⟩) := rfl
  exact ⟨t, ht, (((hcuts 5 _ h5).2 rfl).1 {1, 2}).mpr ⟨by decide, irredundant_reconvergent⟩⟩

end FeasibleCuts

end AndInverter
