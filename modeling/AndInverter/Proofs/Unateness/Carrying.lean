import AndInverter.Proofs.Diagram.Carrying
import AndInverter.Proofs.Unateness.Diagrams

/-!
# Comparing and drawing do not depend on the room

A comparison of cofactors that ends in a store ends with the same verdict in every larger one, and
nodes are drawn in it by the same references. What is read back from the store, a lowest model, a
support or a number of models, depends only on the nodes below a reference.
-/

namespace AndInverter

open DiagramStore DiagramQuery

variable {ahead : Prop} {s s' : DiagramStore} {f low high rising falling : Ref}
  {frame : VariableFrame} {v output input : Nat}

namespace DiagramQuery

variable {α : Type} {op : StoreM α}

theorem during_keeps (t : DiagramStore) (stage : String) (h : Keeps t.Extends op) :
    Keeps t.Extends (during stage op) :=
  fun s hs => (h s hs).adapt.mono (fun _ _ => id) fun _ _ ⟨_, _, hs'⟩ => hs'

theorem liftExcept_keeps {ε : Type} (t : DiagramStore) (x : Except ε α) :
    Keeps t.Extends (liftM x : ExceptT ε (StateM DiagramStore) α) := by
  cases x with
  | ok a => exact .result a
  | error e => exact .failure e

end DiagramQuery

theorem VariableFrame.lowestPattern_congr (h : s.Includes s') (hs : s.Reduced) (hs' : s'.Reduced)
    (hf : s.Holds f) (frame : VariableFrame) (input : Nat) :
    frame.lowestPattern s' input f = frame.lowestPattern s input f := by
  rw [lowestPattern, lowestPattern, h.findLowestPath_eq hs hs' hf]

theorem VariableFrame.numFree_congr (h : s.Includes s') (hs : s.Reduced) (hs' : s'.Reduced)
    (hf : s.Holds f) (frame : VariableFrame) : frame.numFree s' f = frame.numFree s f := by
  rw [numFree, numFree, h.support_eq hs hs' hf]

theorem evidence_keeps (t : DiagramStore) (frame : VariableFrame) (f : Ref) (output input : Nat)
    (rising falling : Ref) : Keeps t.Extends (evidence frame f output input rising falling) := by
  intro s hs
  refine Ensures.bindGet ?_
  refine (liftExcept_keeps t _ s hs).bind fun _ s hs => ?_
  refine (liftExcept_keeps t _ s hs).bind fun _ s hs => ?_
  exact (liftExcept_keeps t _ s hs).bind fun _ s hs => .result hs

theorem evidence_carries (hs : s.WellFormed) (hs' : s'.WellFormed) (h : Roomier ahead s s')
    (hf : s.Holds f) (hrising : s.Holds rising) (hfalling : s.Holds falling) :
    Carries ahead ((evidence frame f output input rising falling).run s)
      ((evidence frame f output input rising falling).run s') := by
  apply Carries.bindGet
  dsimp only
  rw [VariableFrame.lowestPattern_congr h.toIncludes hs.toReduced hs'.toReduced hrising,
    VariableFrame.lowestPattern_congr h.toIncludes hs.toReduced hs'.toReduced hfalling,
    VariableFrame.numFree_congr h.toIncludes hs.toReduced hs'.toReduced hf]
  refine .bindExcept h fun p _ => .bindExcept h fun q _ => .bindExcept h fun free _ => ?_
  rw [h.modelCount_eq hs.toReduced hs'.toReduced hrising,
    h.modelCount_eq hs.toReduced hs'.toReduced hfalling]
  exact .result h _

theorem differences_keeps (t : DiagramStore) (frame : VariableFrame) (f : Ref)
    (output input : Nat) (low high : Ref) :
    Keeps t.Extends (differences frame f output input low high) := by
  refine (during_keeps t _ (StoreM.and_keeps t _ _)).bind fun rising => ?_
  refine (during_keeps t _ (StoreM.and_keeps t _ _)).bind fun falling => ?_
  exact evidence_keeps t frame f output input rising falling

theorem differences_carries (hs : s.WellFormed) (hs' : s'.WellFormed) (h : Roomier ahead s s')
    (hf : s.Holds f) (hlow : s.Holds low) (hhigh : s.Holds high) :
    Carries ahead ((differences frame f output input low high).run s)
      ((differences frame f output input low high).run s') := by
  have hlow' := h.holds hlow
  have hhigh' := h.holds hhigh
  refine ((StoreM.and_carries hs hs' h hhigh (holds_neg.mpr hlow)).adapt _).bind
    ((StoreM.and_grows hs hhigh (holds_neg.mpr hlow)).during _)
    ((StoreM.and_grows hs' hhigh' (holds_neg.mpr hlow')).during _) (fun t rising => ?_)
    fun rising t t' hext ht ht' h hrising => ?_
  · exact (during_keeps t _ (StoreM.and_keeps t _ _)).bind fun falling =>
      evidence_keeps t frame f output input rising falling
  have hlow := hext.holds hlow
  have hhigh := hext.holds hhigh
  refine ((StoreM.and_carries ht ht' h hlow (holds_neg.mpr hhigh)).adapt _).bind
    ((StoreM.and_grows ht hlow (holds_neg.mpr hhigh)).during _)
    ((StoreM.and_grows ht' (h.holds hlow) (holds_neg.mpr (h.holds hhigh))).during _)
    (fun t falling => evidence_keeps t frame f output input rising falling)
    fun falling t₂ t₂' hext₂ ht₂ ht₂' h hfalling => ?_
  exact evidence_carries ht₂ ht₂' h (hext₂.holds (hext.holds hf)) (hext₂.holds hrising.holds)
    hfalling.holds

theorem compareFalling_keeps (t : DiagramStore) (frame : VariableFrame) (f : Ref)
    (output input : Nat) (low high : Ref) :
    Keeps t.Extends (compareFalling frame f output input low high) :=
  (during_keeps t _ (StoreM.implies_keeps t high low)).bind fun _ =>
    .ite (.result _) (differences_keeps t frame f output input low high)

theorem compareFalling_carries (hs : s.WellFormed) (hs' : s'.WellFormed) (h : Roomier ahead s s')
    (hf : s.Holds f) (hlow : s.Holds low) (hhigh : s.Holds high) :
    Carries ahead ((compareFalling frame f output input low high).run s)
      ((compareFalling frame f output input low high).run s') := by
  refine ((StoreM.implies_carries hs hs' h hhigh hlow).adapt _).bind
    ((StoreM.implies_grows hs hhigh hlow).during _)
    ((StoreM.implies_grows hs' (h.holds hhigh) (h.holds hlow)).during _)
    (fun t _ => .ite (.result _) (differences_keeps t frame f output input low high))
    fun b t t' hext ht ht' h _ => ?_
  split
  · exact .result h _
  · exact differences_carries ht ht' h (hext.holds hf) (hext.holds hlow) (hext.holds hhigh)

theorem compareParts_keeps (t : DiagramStore) (frame : VariableFrame) (f : Ref)
    (output input : Nat) (low high : Ref) :
    Keeps t.Extends (compareParts frame f output input low high) :=
  .ite (.result _) <| (during_keeps t _ (StoreM.implies_keeps t low high)).bind fun _ =>
    .ite (.result _) (compareFalling_keeps t frame f output input low high)

theorem compareParts_carries (hs : s.WellFormed) (hs' : s'.WellFormed) (h : Roomier ahead s s')
    (hf : s.Holds f) (hlow : s.Holds low) (hhigh : s.Holds high) :
    Carries ahead ((compareParts frame f output input low high).run s)
      ((compareParts frame f output input low high).run s') := by
  unfold compareParts
  dsimp only
  split
  · exact .result h _
  refine ((StoreM.implies_carries hs hs' h hlow hhigh).adapt _).bind
    ((StoreM.implies_grows hs hlow hhigh).during _)
    ((StoreM.implies_grows hs' (h.holds hlow) (h.holds hhigh)).during _)
    (fun t _ => .ite (.result _) (compareFalling_keeps t frame f output input low high))
    fun b t t' hext ht ht' h _ => ?_
  split
  · exact .result h _
  · exact compareFalling_carries ht ht' h (hext.holds hf) (hext.holds hlow) (hext.holds hhigh)

theorem compareCofactors_carries (hs : s.WellFormed) (hs' : s'.WellFormed)
    (h : Roomier ahead s s') (hf : s.Holds f) (hv : v ≠ 0) (frame : VariableFrame)
    (output input : Nat) :
    Carries ahead ((compareCofactors frame f v output input).run s)
      ((compareCofactors frame f v output input).run s') := by
  rw [compareCofactors_eq]
  refine ((StoreM.restrict_carries hs hs' h hf hv false).adapt _).bind
    ((StoreM.restrict_grows hs hf hv).during _)
    ((StoreM.restrict_grows hs' (h.holds hf) hv).during _) (fun t low => ?_)
    fun low t t' hext ht ht' h hlow => ?_
  · exact (during_keeps t _ (StoreM.restrict_keeps t f v true)).bind fun high =>
      compareParts_keeps t frame f output input low high
  have hf := hext.holds hf
  refine ((StoreM.restrict_carries ht ht' h hf hv true).adapt _).bind
    ((StoreM.restrict_grows ht hf hv).during _)
    ((StoreM.restrict_grows ht' (h.holds hf) hv).during _)
    (fun t high => compareParts_keeps t frame f output input low high)
    fun high t₂ t₂' hext₂ ht₂ ht₂' h hhigh => ?_
  exact compareParts_carries ht₂ ht₂' h (hext₂.holds hf) (hext₂.holds hlow.holds) hhigh.holds

namespace Graph

variable {g : Graph} {varOf : Nat → Nat} {built : Array (Option Ref)} {P : Nat → Prop} {n : Node}
  {id : Nat} {ids : List Nat}

theorem nodeFunction_keeps (t : DiagramStore) (g : Graph) (varOf : Nat → Nat)
    (built : Array (Option Ref)) (id : Nat) :
    Keeps t.Extends (g.nodeFunction varOf built id) := by
  unfold nodeFunction
  split
  · exact .failure _
  · exact .result _
  · exact during_keeps t _ (StoreM.node_keeps t _ _ _)
  · refine (liftExcept_keeps t _).bind fun f => (liftExcept_keeps t _).bind fun h => ?_
    exact during_keeps t _ (StoreM.and_keeps t f h)
  · exact liftExcept_keeps t _

theorem nodeFunction_carries (hs : s.WellFormed) (hs' : s'.WellFormed)
    (h : Roomier ahead s s') (hdraws : g.Draws varOf s built P) (hn : g.nodes[id]? = some n)
    (hfanins : ∀ e ∈ n.fanins, P e.node) (hvar : ∀ i, n = .input i → varOf i ≠ 0) :
    Carries ahead ((g.nodeFunction varOf built id).run s)
      ((g.nodeFunction varOf built id).run s') := by
  unfold nodeFunction
  simp only [hn]
  cases n with
  | constant => exact .result h _
  | input i =>
    have hzero := holds_zero hs.toReduced
    have hone := holds_one hs.toReduced
    exact (StoreM.node_carries hs hs' h (hvar i rfl) hzero hone (below_zero s _)
      (below_one s _)).adapt _
  | gate a b =>
    obtain ⟨f, hf, hfden⟩ := hdraws.edgeFunction_eq_ok hs.toReduced (hfanins a (by simp))
    obtain ⟨k, hk, hkden⟩ := hdraws.edgeFunction_eq_ok hs.toReduced (hfanins b (by simp))
    dsimp only
    rw [hf, hk]
    exact (StoreM.and_carries hs hs' h hfden.holds hkden.holds).adapt _
  | output i e =>
    obtain ⟨f, hf, -⟩ := hdraws.edgeFunction_eq_ok hs.toReduced (hfanins e (by simp))
    dsimp only
    rw [hf]
    exact .result h f

theorem foldlM_nodeFunction_carries (hg : g.WellFormed) (hids : g.Drawable varOf ids P)
    (hs : s.WellFormed) (hs' : s'.WellFormed) (h : Roomier ahead s s')
    (hsize : built.size = g.size) (hdraws : g.Draws varOf s built P) :
    Carries ahead
      ((ids.foldlM (fun built id => do
        let r ← g.nodeFunction varOf built id
        return built.setIfInBounds id (some r)) built).run s)
      ((ids.foldlM (fun built id => do
        let r ← g.nodeFunction varOf built id
        return built.setIfInBounds id (some r)) built).run s') := by
  induction ids generalizing s s' built P with
  | nil => exact .result h built
  | cons id ids ih =>
    obtain ⟨n, hn, hdrawn, hvar⟩ := hids.head hg
    have hdraws' := hdraws.of_includes hs.toReduced h.toIncludes
    rw [List.foldlM_cons, bind_assoc]
    refine (nodeFunction_carries hs hs' h hdraws hn hdrawn hvar).bind
      (nodeFunction_grows hg hs hdraws hn hdrawn hvar)
      (nodeFunction_grows hg hs' hdraws' hn hdrawn hvar) (fun t r => ?_)
      fun r t t' hext ht ht' h hr => ?_
    · rw [pure_bind]
      apply Keeps.foldlM
      intro built id
      exact (nodeFunction_keeps t g varOf built id).bind fun _ => .result _
    · rw [pure_bind]
      have hlt : id < built.size := hsize ▸ hids.lt_size List.mem_cons_self
      have hset := (hdraws.of_includes hs.toReduced hext.toIncludes).set hlt hr
      exact ih hids.tail ht ht' h (by rwa [Array.size_setIfInBounds]) hset

theorem nodeFunctions_carries (hg : g.WellFormed) (hids : g.Drawable varOf ids fun _ => False)
    (hs : s.WellFormed) (hs' : s'.WellFormed) (h : Roomier ahead s s') :
    Carries ahead ((g.nodeFunctions varOf ids).run s) ((g.nodeFunctions varOf ids).run s') :=
  foldlM_nodeFunction_carries hg hids hs hs' h Array.size_replicate fun _ => False.elim

/-- What is read from the functions of the nodes is read from the same functions in both stores. -/
theorem bindNodeFunctions_carries {α : Type} (hg : g.WellFormed)
    (hids : g.Drawable varOf ids fun _ => False) (hs : s.WellFormed) (hs' : s'.WellFormed)
    (h : Roomier ahead s s') (read : Array (Option Ref) → Except Failure α) :
    Carries ahead
      ((g.nodeFunctions varOf ids >>= fun built => (liftM (read built) : DiagramQuery α)).run s)
      ((g.nodeFunctions varOf ids >>= fun built =>
        (liftM (read built) : DiagramQuery α)).run s') := by
  refine (nodeFunctions_carries hg hids hs hs' h).bind (nodeFunctions_grows hg hids hs)
    (nodeFunctions_grows hg hids hs') (fun t built => liftExcept_keeps t (read built))
    fun built t t' _ _ _ h _ => ?_
  cases read built with
  | ok a => exact .result h a
  | error e => exact .failure h.ahead_true

end Graph

end AndInverter
