import AndInverter.Proofs.Diagram.Frame
import AndInverter.Proofs.Diagram.Recall

/-!
# Stores with more room

The number of cells decides whether a new node finds a place, and not which one. A store with more
room has the nodes of the smaller one first, and a run in it is compared with the run in the smaller
store: a result is the same, and where the smaller store is full the run may go on.
-/

namespace AndInverter

namespace DiagramStore

variable {ahead : Prop} {s s' s'' : DiagramStore} {r : Ref}

/-- The second store has at least as many cells and all nodes of the first one. It may be ahead by
further nodes if the first one is full. -/
structure Roomier (ahead : Prop) (s s' : DiagramStore) : Prop extends s.Includes s' where
  capacity_le : s.capacity ≤ s'.capacity
  size_eq : s'.size = s.size ∨ s.IsFull ∧ ahead

/-- A full store does not grow. -/
theorem Extends.includes_of_isFull (h : s.Extends s') (hs' : s'.Reduced) (hfull : s.IsFull) :
    s'.Includes s := by
  have hle := h.size_le
  have hlt := hs'.size_lt
  rw [h.capacity_eq, ← hfull] at hlt
  exact ⟨by omega, fun hpos hle' => (h.get_eq hpos (by omega)).symm⟩

namespace Roomier

theorem ahead_true (h : Roomier ahead s s') : Roomier True s s' :=
  ⟨h.toIncludes, h.capacity_le, h.size_eq.imp_right fun hfull => ⟨hfull.1, trivial⟩⟩

theorem of_nodes_eq {t t' : DiagramStore} (h : Roomier ahead s s') (ht : t.nodes = s.nodes)
    (ht' : t'.nodes = s'.nodes) : Roomier ahead t t' := by
  refine ⟨⟨?_, fun {i} hpos hle => ?_⟩, ?_, ?_⟩
  · rw [size, size, ht, ht']
    exact h.size_le
  · rw [ht, ht']
    exact h.get_eq hpos (by rwa [size, ht] at hle)
  · rw [capacity, capacity, ht, ht']
    exact h.capacity_le
  · rw [IsFull, size, size, capacity, ht, ht']
    exact h.size_eq

/-- Beyond a full store the other one may grow. -/
theorem of_extends (h : Roomier ahead s s') (hfull : s.IsFull) (hext : s'.Extends s'') :
    Roomier True s s'' :=
  ⟨h.toIncludes.trans hext.toIncludes, hext.capacity_eq ▸ h.capacity_le, .inr ⟨hfull, trivial⟩⟩

theorem includes_of_not_isFull (h : Roomier ahead s s') (hfull : ¬ s.IsFull) : s'.Includes s := by
  have hsize := h.size_eq.resolve_right fun h => hfull h.1
  exact ⟨Nat.le_of_eq hsize, fun hpos hle => (h.get_eq hpos (hsize ▸ hle)).symm⟩

end Roomier

end DiagramStore

open DiagramStore

/-- What a run comes to, compared with the run in a store with more room: a result is the same, and
without a result the other run may go on. -/
structure Carries {ε α : Type} (ahead : Prop) (p p' : Except ε α × DiagramStore) : Prop where
  ok {a : α} : p.1 = .ok a → p'.1 = .ok a ∧ Roomier ahead p.2 p'.2
  error {e : ε} : p.1 = .error e → Roomier True p.2 p'.2

namespace Carries

variable {ε α β : Type} {ahead : Prop} {op : ExceptT ε (StateM DiagramStore) α}
  {k : α → ExceptT ε (StateM DiagramStore) β} {s s' t t' : DiagramStore} {a : α} {e : ε}
  {r : Except ε α} {P Q : α → DiagramStore → Prop}

theorem result (h : Roomier ahead t t') (a : α) :
    Carries ahead (Except.ok a, t) ((Except.ok a, t') : Except ε α × DiagramStore) :=
  ⟨fun ha => ⟨ha, h⟩, fun he => (by cases he)⟩

theorem failure (h : Roomier True t t') : Carries ahead (.error e, t) (r, t') :=
  ⟨fun ha => (by cases ha), fun _ => h⟩

theorem roomier {p p' : Except ε α × DiagramStore} (h : Carries True p p') :
    Roomier True p.2 p'.2 := by
  cases hp : p.1 with
  | ok a => exact (h.ok hp).2
  | error e => exact h.error hp

theorem of_recalls (h : Roomier ahead s s') (hop : Recalls op s a) (hop' : Recalls op s' a) :
    Carries ahead (op.run s) (op.run s') := by
  obtain ⟨t, hrun, hnodes, -⟩ := hop.exists_run
  obtain ⟨t', hrun', hnodes', -⟩ := hop'.exists_run
  rw [hrun, hrun']
  exact .result (h.of_nodes_eq hnodes hnodes') a

theorem adapt {ε' : Type} (h : Carries ahead (op.run s) (op.run s')) (f : ε → ε') :
    Carries ahead ((op.adapt f).run s) ((op.adapt f).run s') := by
  rw [run_adapt, run_adapt]
  rcases hrun : op.run s with ⟨r, t⟩
  rw [hrun] at h
  cases r with
  | ok a =>
    obtain ⟨ha, hroom⟩ := h.ok rfl
    rw [ha]
    exact .result hroom a
  | error e => exact .failure (h.error rfl)

theorem bindGet {k : DiagramStore → ExceptT ε (StateM DiagramStore) β}
    (h : Carries ahead ((k s).run s) ((k s').run s')) :
    Carries ahead ((get >>= k).run s) ((get >>= k).run s') := h

/-- What does not ask the store is the same in both. -/
theorem bindExcept {x : Except ε α} {k' : α → ExceptT ε (StateM DiagramStore) β}
    (h : Roomier ahead s s')
    (hk : ∀ a, x = .ok a → Carries ahead ((k a).run s) ((k' a).run s')) :
    Carries ahead ((liftM x >>= k).run s) ((liftM x >>= k').run s') := by
  cases x with
  | ok a => exact hk a rfl
  | error e => exact .failure h.ahead_true

/-- Where the first run is denied a cell, the second may go on. It keeps the nodes it shares with
the first. -/
theorem bind [Exhaustion ε] (h : Carries ahead (op.run s) (op.run s')) (hop : Grows op s P)
    (hop' : Grows op s' Q) (hkeeps : ∀ (t : DiagramStore) a, Keeps t.Extends (k a))
    (hk : ∀ a t t', s.Extends t → t.WellFormed → t'.WellFormed → Roomier ahead t t' → P a t →
      Carries ahead ((k a).run t) ((k a).run t')) :
    Carries ahead ((op >>= k).run s) ((op >>= k).run s') := by
  simp only [Grows, Ensures] at hop hop'
  rcases hrun : op.run s with ⟨r, t⟩
  rcases hrun' : op.run s' with ⟨r', t'⟩
  rw [hrun, hrun'] at h
  rw [hrun] at hop
  rw [hrun'] at hop'
  cases r with
  | ok a =>
    obtain ⟨hr', hroom⟩ := h.ok rfl
    dsimp only at hr' hroom
    subst hr'
    obtain ⟨hext, ht, hP⟩ := hop
    obtain ⟨-, ht', -⟩ := hop'
    rw [run_bind_of_ok hrun, run_bind_of_ok hrun']
    exact hk a t t' hext ht ht' hroom hP
  | error e =>
    rw [run_bind_of_error hrun]
    have hroom := h.error rfl
    cases r' with
    | ok a' =>
      rw [run_bind_of_ok hrun']
      exact .failure (hroom.of_extends hop.size_eq ((hkeeps t' a').final (.refl t')))
    | error e' =>
      rw [run_bind_of_error hrun']
      exact .failure hroom

end Carries

namespace DiagramStore

variable {ahead : Prop} {s s' : DiagramStore} {n : DiagramNode} {i j : Nat}

/-- Stores with the same nodes take the same new node. -/
theorem Roomier.of_adds (h : Roomier ahead s s') (hs : s.Reduced) (hs' : s'.Reduced)
    (hn : s.Proper (s.size + 1) n) (hn' : s'.Proper (s'.size + 1) n) (hsize : s'.size = s.size)
    {nodes nodes' : UniqueTable DiagramNode} (hadds : s.nodes.Adds nodes n)
    (hadds' : s'.nodes.Adds nodes' n) :
    Roomier ahead ⟨nodes, s.computed⟩ ⟨nodes', s'.computed⟩ := by
  obtain ⟨hext, -, hnew, hget⟩ := hs.of_adds hn hadds
  obtain ⟨hext', -, hnew', hget'⟩ := hs'.of_adds hn' hadds'
  have hsize' : nodes'.size = nodes.size := by rw [hnew, hnew', hsize]
  refine ⟨⟨Nat.le_of_eq hsize'.symm, fun {i} hpos hle => ?_⟩, ?_, .inl hsize'⟩
  · change i ≤ nodes.size at hle
    by_cases hold : i ≤ s.size
    · rw [hext'.get_eq hpos (by omega), hext.get_eq hpos hold]
      exact h.get_eq hpos hold
    · obtain rfl : i = s.size + 1 := by omega
      change nodes'.get (s.size + 1) = nodes.get (s.size + 1)
      rw [hget, ← hsize, hget']
  · rw [hext.capacity_eq, hext'.capacity_eq]
    exact h.capacity_le

end DiagramStore

namespace StoreM

variable {ahead : Prop} {s s' : DiagramStore} {low high : Ref} {v : Nat} {n : DiagramNode}
  {nodes : UniqueTable DiagramNode} {i : Nat}

theorem run_nodeOf_of_some (h : s.nodes.intern n = (some i, nodes)) :
    (nodeOf n).run s = (.ok (.ofIndex i), ⟨nodes, s.computed⟩) := by
  have hensures : Ensures (nodeOf n) s
      (fun r t => r = .ofIndex i ∧ t = ⟨nodes, s.computed⟩) fun _ _ => False := by
    refine Ensures.bindUpdateGet (show _ = ((s.nodes.intern n).1,
      (⟨(s.nodes.intern n).2, s.computed⟩ : DiagramStore)) from rfl) ?_
    rw [h]
    exact .result ⟨rfl, rfl⟩
  obtain ⟨r, hr, rfl, ht⟩ := hensures.exists_result
  exact Prod.ext hr ht

theorem run_nodeOf_of_none (h : s.nodes.intern n = (none, nodes)) :
    (nodeOf n).run s = (.error (.full nodes.capacity), ⟨nodes, s.computed⟩) := by
  have hensures : Ensures (nodeOf n) s (fun _ _ => False)
      fun e t => e = .full nodes.capacity ∧ t = ⟨nodes, s.computed⟩ := by
    refine Ensures.bindUpdateGet (show _ = ((s.nodes.intern n).1,
      (⟨(s.nodes.intern n).2, s.computed⟩ : DiagramStore)) from rfl) ?_
    rw [h]
    exact .bindGet (.failure ⟨rfl, rfl⟩)
  simp only [Ensures] at hensures
  split at hensures
  · exact hensures.elim
  · rename_i e t hrun
    rw [hrun, hensures.1, hensures.2]

theorem nodeOf_carries (hs : s.WellFormed) (hs' : s'.WellFormed) (h : Roomier ahead s s')
    {n : DiagramNode} (hn : s.Proper (s.size + 1) n) :
    Carries ahead ((nodeOf n).run s) ((nodeOf n).run s') := by
  rcases hs.intern_cases n with
    ⟨j, hfound, -⟩ | ⟨hfull, hnone⟩ | ⟨nodes, hnotFull, hsome, hadds, hnew⟩
  · obtain ⟨hj, hle, hget⟩ := hs.of_search_eq_found hn hfound
    have hget' : s'.nodes.get j = n := (h.get_eq (by omega) hle).trans hget
    have hfound' : s'.nodes.search n = .found j :=
      hget' ▸ hs'.found hj (Nat.le_trans hle h.size_le)
    exact .of_recalls h (nodeOf_recalls hs hfound) (nodeOf_recalls hs' hfound')
  · rw [run_nodeOf_of_none hnone]
    have hext := (nodeOf_keeps s' n).final (.refl s')
    exact .failure (h.of_extends hfull hext)
  · have hinc := h.includes_of_not_isFull hnotFull
    have hsize : s'.size = s.size := Nat.le_antisymm hinc.size_le h.size_le
    have hn' : s'.Proper (s'.size + 1) n := hsize ▸ h.proper (Nat.le_refl _) hn
    rcases hs'.intern_cases n with
      ⟨j, hfound, -⟩ | ⟨hfull, -⟩ | ⟨nodes', -, hsome', hadds', -⟩
    · -- Found in the second store, the node would be found in the first one.
      obtain ⟨hj, hle, hget⟩ := hs'.of_search_eq_found hn' hfound
      have hget' : s.nodes.get j = n := (hinc.get_eq (by omega) hle).trans hget
      exact absurd (hget' ▸ hs.found hj (by omega)) (hnew j)
    · have hroom := hs.size_lt
      have hcapacity := h.capacity_le
      unfold IsFull at hfull hnotFull
      omega
    · rw [run_nodeOf_of_some hsome, run_nodeOf_of_some hsome', hsize]
      exact .result (h.of_adds hs.toReduced hs'.toReduced hn hn' hsize hadds hadds') _

theorem node_carries (hs : s.WellFormed) (hs' : s'.WellFormed) (h : Roomier ahead s s') (hv : v ≠ 0)
    (hlow : s.Holds low) (hhigh : s.Holds high) (hblow : s.Below v low) (hbhigh : s.Below v high) :
    Carries ahead ((node v low high).run s) ((node v low high).run s') := by
  unfold node
  rw [if_neg hv]
  by_cases heq : low = high
  · rw [if_pos heq, if_pos heq]
    split
    · exact .result h low
    · exact .result h low
  · rw [if_neg heq, if_neg heq]
    split
    · rename_i hsign
      have hproper := proper_neg_of_holds hv hsign heq hlow hhigh hblow hbhigh
      have hproper' := proper_neg_of_holds hv hsign heq (h.holds hlow) (h.holds hhigh)
        ((h.below hlow).mpr hblow) ((h.below hhigh).mpr hbhigh)
      exact (nodeOf_carries hs hs' h hproper).bind (nodeOf_grows hs hproper)
        (nodeOf_grows hs' hproper') (fun t r => .result _)
        fun r t t' _ _ _ hroom _ => .result hroom _
    · rename_i hsign
      exact nodeOf_carries hs hs' h (proper_of_holds hv hsign heq hlow hhigh hblow hbhigh)

end StoreM

end AndInverter
