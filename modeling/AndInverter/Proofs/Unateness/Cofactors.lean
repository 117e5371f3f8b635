import AndInverter.Proofs.Diagram.Constancy
import AndInverter.Proofs.Diagram.Restriction
import AndInverter.Proofs.Unateness.Frames

/-!
# Comparing cofactors is exact

The cofactors of a function at a variable are equal, imply each other one way, or neither way, as
the function depends on the variable. Their differences are true where the function follows the
variable, so that their lowest models and the numbers of their models are exact evidence.
-/

namespace AndInverter

open DiagramStore DiagramQuery

instance : Exhaustion Failure :=
  ⟨fun capacity e => ∃ stage, e = .error (.nodeLimit stage capacity)⟩

variable {α : Type} {s s' : DiagramStore} {frame : VariableFrame} {F G : (Nat → Bool) → Bool}
  {f low high rising falling r : Ref} {i v output : Nat}

theorem Grows.during {op : StoreM α} {P : α → DiagramStore → Prop} (h : Grows op s P)
    (stage : String) : Grows (during stage op) s P := by
  refine Ensures.mono (Ensures.adapt h) (fun _ _ => id) ?_
  rintro _ s' ⟨e, rfl, hf⟩
  obtain rfl := hf.isFull
  exact ⟨hf.grows, hf.wellFormed, ⟨stage, rfl⟩, hf.size_eq⟩

theorem ne_zero_of_denotes {G : (Nat → Bool) → Bool} (hr : s.Denotes G r) {x : Nat → Bool}
    (hx : G x = true) : r ≠ .zero := by
  rintro rfl
  have heval := hr.eval_eq x
  rw [eval_zero, hx] at heval
  cases heval

/-- The evidence that is read back from the differences of the cofactors is exact. -/
theorem VariableFrame.Covers.exact_binate (h : frame.Covers F) (hs : s.Reduced)
    (hf : s.Denotes (frame.read F) f) (hi : i ∈ frame.inputs) (output : Nat)
    (hrising : s.Denotes (follows (frame.read F) (frame.varOf i) true) rising)
    (hfalling : s.Denotes (follows (frame.read F) (frame.varOf i) false) falling)
    (hbinate : ∀ u, Unateness.binate = u ↔ u.Describes F i) :
    ∃ p q free, frame.lowestPattern s i rising = .ok p ∧ frame.lowestPattern s i falling = .ok q ∧
      frame.numFree s f = .ok free ∧ Verdict.Exact frame.numInputs F output i (.binate output i {
        rising := p
        falling := q
        risingCount := some (s.modelCount rising frame.numVars >>> free)
        fallingCount := some (s.modelCount falling frame.numVars >>> free) }) := by
  have hdescribes := (hbinate .binate).mp rfl
  have hrelevant : i ∈ relevant frame.numInputs F :=
    mem_relevant.mpr ⟨h.lt_numInputs hi, hdescribes.sensitive⟩
  obtain ⟨⟨x, hx⟩, ⟨y, hy⟩⟩ := h.describes_read hi |>.mpr hdescribes
  obtain ⟨x', hx', hp⟩ := h.lowestPattern_eq hs hi hrising
    (ne_zero_of_denotes hrising (follows_true_iff.mpr hx))
  obtain ⟨y', hy', hq⟩ := h.lowestPattern_eq hs hi hfalling
    (ne_zero_of_denotes hfalling (follows_false_iff.mpr hy))
  refine ⟨_, _, _, hp, hq, h.numFree_eq hs hf, rfl, rfl, hbinate, .inr ⟨rfl, _, rfl, ?_⟩⟩
  constructor
  · exact ⟨x', hx', rfl⟩
  · exact ⟨y', hy', rfl⟩
  · exact congrArg some (h.shiftRight_modelCount hs hf hrelevant hrising)
  · exact congrArg some (h.shiftRight_modelCount hs hf hrelevant hfalling)

namespace DiagramStore

structure DenotesCofactors (s : DiagramStore) (G : (Nat → Bool) → Bool) (v : Nat)
    (low high : Ref) : Prop where
  low : s.Denotes (fun x => G (Function.update x v false)) low
  high : s.Denotes (fun x => G (Function.update x v true)) high

/-- All that a comparison of cofactors makes: the cofactors, and their differences if the function
depends both ways on the variable. -/
structure HoldsComparison (s : DiagramStore) (G : (Nat → Bool) → Bool) (v : Nat) : Prop where
  cofactors : ∃ low high, s.DenotesCofactors G v low high
  differences : (∃ x, Rises G v x) → (∃ x, Falls G v x) → ∀ b, ∃ r, s.Denotes (follows G v b) r

namespace DenotesCofactors

theorem of_extends (h : s.DenotesCofactors G v low high) (hs : s.Reduced) (hext : s.Extends s') :
    s'.DenotesCofactors G v low high :=
  ⟨h.low.of_extends hs hext, h.high.of_extends hs hext⟩

theorem low_eq_high_iff (h : s.DenotesCofactors G v low high) (hs : s.Reduced) :
    low = high ↔ ¬ (∃ x, Rises G v x) ∧ ¬ ∃ x, Falls G v x := by
  rw [← forall_eq_iff, ← hs.eval_eq_iff h.low.holds h.high.holds]
  simp only [h.low.eval_eq, h.high.eval_eq]

theorem rising_eq (h : s.DenotesCofactors G v low high) (hs : s.Reduced) (x : Nat → Bool) :
    (s.eval x high && s.eval x (-low)) = follows G v true x := by
  rw [hs.eval_neg h.low.holds, h.low.eval_eq, h.high.eval_eq]
  rfl

theorem falling_eq (h : s.DenotesCofactors G v low high) (hs : s.Reduced) (x : Nat → Bool) :
    (s.eval x low && s.eval x (-high)) = follows G v false x := by
  rw [hs.eval_neg h.high.holds, h.low.eval_eq, h.high.eval_eq]
  rfl

/-- Without a dependence both ways there are no differences to hold. -/
theorem holdsComparison (h : s.DenotesCofactors G v low high)
    (hnot : (∃ x, Rises G v x) → ¬ ∃ x, Falls G v x) : s.HoldsComparison G v :=
  ⟨⟨low, high, h⟩, fun hrises hfalls => absurd hfalls (hnot hrises)⟩

end DenotesCofactors

theorem HoldsComparison.of_extends (h : s.HoldsComparison G v) (hs : s.Reduced)
    (hext : s.Extends s') : s'.HoldsComparison G v := by
  obtain ⟨⟨low, high, hparts⟩, hdifferences⟩ := h
  refine ⟨⟨low, high, hparts.of_extends hs hext⟩, fun hrises hfalls b => ?_⟩
  obtain ⟨r, hr⟩ := hdifferences hrises hfalls b
  exact ⟨r, hr.of_extends hs hext⟩

end DiagramStore

def evidence (frame : VariableFrame) (f : Ref) (output input : Nat) (rising falling : Ref) :
    DiagramQuery Verdict := do
  let s ← get
  let pattern (g : Ref) := (frame.lowestPattern s input g).mapError Failure.fault
  let risingPattern ← pattern rising
  let fallingPattern ← pattern falling
  let free ← (frame.numFree s f).mapError Failure.fault
  return .binate output input {
    rising := risingPattern
    falling := fallingPattern
    risingCount := some (s.modelCount rising frame.numVars >>> free)
    fallingCount := some (s.modelCount falling frame.numVars >>> free) }

def differences (frame : VariableFrame) (f : Ref) (output input : Nat) (low high : Ref) :
    DiagramQuery Verdict := do
  let stage (what : String) := s!"{what} for output {output}, input {input}"
  let rising ← during (stage "extracting the rising witness") (.and high (-low))
  let falling ← during (stage "extracting the falling witness") (.and low (-high))
  evidence frame f output input rising falling

def compareFalling (frame : VariableFrame) (f : Ref) (output input : Nat) (low high : Ref) :
    DiagramQuery Verdict := do
  let stage (what : String) := s!"{what} for output {output}, input {input}"
  if ← during (stage "comparing") (.implies high low) then
    return { output, input, unateness := .negative }
  differences frame f output input low high

def compareParts (frame : VariableFrame) (f : Ref) (output input : Nat) (low high : Ref) :
    DiagramQuery Verdict := do
  let stage (what : String) := s!"{what} for output {output}, input {input}"
  if low = high then return { output, input, unateness := .independent }
  if ← during (stage "comparing") (.implies low high) then
    return { output, input, unateness := .positive }
  compareFalling frame f output input low high

theorem compareCofactors_eq (frame : VariableFrame) (f : Ref) (v output input : Nat) :
    compareCofactors frame f v output input = (do
      let stage (what : String) := s!"{what} for output {output}, input {input}"
      let low ← during (stage "cofactoring") (.restrict f v false)
      let high ← during (stage "cofactoring") (.restrict f v true)
      compareParts frame f output input low high) := rfl

theorem VariableFrame.Covers.ofChanges_eq_iff (h : frame.Covers F) (hi : i ∈ frame.inputs)
    {rises falls : Bool} (hrises : rises = true ↔ ∃ x, Rises (frame.read F) (frame.varOf i) x)
    (hfalls : falls = true ↔ ∃ x, Falls (frame.read F) (frame.varOf i) x) (u : Unateness) :
    Unateness.ofChanges rises falls = u ↔ u.Describes F i := by
  rw [← h.describes_read hi]
  exact AndInverter.ofChanges_eq_iff hrises hfalls

theorem evidence_grows (hs : s.WellFormed) (h : frame.Covers F)
    (hf : s.Denotes (frame.read F) f) (hi : i ∈ frame.inputs)
    (hrising : s.Denotes (follows (frame.read F) (frame.varOf i) true) rising)
    (hfalling : s.Denotes (follows (frame.read F) (frame.varOf i) false) falling)
    (hbinate : ∀ u, Unateness.binate = u ↔ u.Describes F i) :
    Grows (evidence frame f output i rising falling) s
      fun v _ => v.Exact frame.numInputs F output i := by
  obtain ⟨p, q, free, hp, hq, hfree, hexact⟩ :=
    h.exact_binate hs.toReduced hf hi output hrising hfalling hbinate
  apply Grows.bindGet
  apply Grows.bindExcept (congrArg (Except.mapError Failure.fault) hp)
  apply Grows.bindExcept (congrArg (Except.mapError Failure.fault) hq)
  apply Grows.bindExcept (congrArg (Except.mapError Failure.fault) hfree)
  exact .result hs hexact

theorem differences_grows (hs : s.WellFormed) (h : frame.Covers F)
    (hf : s.Denotes (frame.read F) f) (hi : i ∈ frame.inputs)
    (hparts : s.DenotesCofactors (frame.read F) (frame.varOf i) low high)
    (hbinate : ∀ u, Unateness.binate = u ↔ u.Describes F i) :
    Grows (differences frame f output i low high) s fun v s' =>
      v.Exact frame.numInputs F output i ∧
        s'.HoldsComparison (frame.read F) (frame.varOf i) := by
  refine ((StoreM.and_grows hs hparts.high.holds (holds_neg.mpr hparts.low.holds)).during _).bind
    fun rising s₁ hext₁ hs₁ hrising => ?_
  have hrising := hrising.congr (hparts.rising_eq hs.toReduced)
  have hparts₁ := hparts.of_extends hs.toReduced hext₁
  refine ((StoreM.and_grows hs₁ hparts₁.low.holds (holds_neg.mpr hparts₁.high.holds)).during _).bind
    fun falling s₂ hext₂ hs₂ hfalling => ?_
  have hfalling := hfalling.congr (hparts₁.falling_eq hs₁.toReduced)
  have hrising₂ := hrising.of_extends hs₁.toReduced hext₂
  have hf₂ := hf.of_extends hs.toReduced (hext₁.trans hext₂)
  refine (evidence_grows hs₂ h hf₂ hi hrising₂ hfalling hbinate).imp
    fun v s₃ hext₃ hs₃ hexact => ⟨hexact, ?_⟩
  refine HoldsComparison.of_extends ⟨⟨low, high, hparts₁.of_extends hs₁.toReduced hext₂⟩,
    fun _ _ b => ?_⟩ hs₂.toReduced hext₃
  cases b with
  | false => exact ⟨falling, hfalling⟩
  | true => exact ⟨rising, hrising₂⟩

theorem compareFalling_grows (hs : s.WellFormed) (h : frame.Covers F)
    (hf : s.Denotes (frame.read F) f) (hi : i ∈ frame.inputs)
    (hparts : s.DenotesCofactors (frame.read F) (frame.varOf i) low high)
    (hfalls : ∃ x, Falls (frame.read F) (frame.varOf i) x) :
    Grows (compareFalling frame f output i low high) s fun v s' =>
      v.Exact frame.numInputs F output i ∧
        s'.HoldsComparison (frame.read F) (frame.varOf i) := by
  refine ((StoreM.implies_grows hs hparts.high.holds hparts.low.holds).during _).bind
    fun b s₁ hext₁ hs₁ hb => ?_
  simp only [hparts.low.eval_eq, hparts.high.eval_eq] at hb
  rw [← not_exists_rises_iff] at hb
  have hparts₁ := hparts.of_extends hs.toReduced hext₁
  split
  · rename_i himplies
    have hrises := hb.mp himplies
    refine .result hs₁ ⟨.of_describes (by decide) ?_,
      hparts₁.holdsComparison fun hn => absurd hn hrises⟩
    exact @VariableFrame.Covers.ofChanges_eq_iff _ _ _ h hi false true (by simpa using hrises)
      (by simpa using hfalls)
  · rename_i himplies
    have hrises : ∃ x, Rises (frame.read F) (frame.varOf i) x :=
      not_not.mp fun hn => himplies (hb.mpr hn)
    exact differences_grows hs₁ h (hf.of_extends hs.toReduced hext₁) hi hparts₁
      (@VariableFrame.Covers.ofChanges_eq_iff _ _ _ h hi true true (by simpa using hrises)
        (by simpa using hfalls))

theorem compareParts_grows (hs : s.WellFormed) (h : frame.Covers F)
    (hf : s.Denotes (frame.read F) f) (hi : i ∈ frame.inputs)
    (hparts : s.DenotesCofactors (frame.read F) (frame.varOf i) low high) :
    Grows (compareParts frame f output i low high) s fun v s' =>
      v.Exact frame.numInputs F output i ∧
        s'.HoldsComparison (frame.read F) (frame.varOf i) := by
  have hequal := hparts.low_eq_high_iff hs.toReduced
  unfold compareParts
  dsimp only
  split
  · rename_i heq
    obtain ⟨hrises, hfalls⟩ := hequal.mp heq
    refine .result hs ⟨.of_describes (by decide) ?_,
      hparts.holdsComparison fun hn => absurd hn hrises⟩
    exact @VariableFrame.Covers.ofChanges_eq_iff _ _ _ h hi false false (by simpa using hrises)
      (by simpa using hfalls)
  rename_i hne
  refine ((StoreM.implies_grows hs hparts.low.holds hparts.high.holds).during _).bind
    fun b s₁ hext₁ hs₁ hb => ?_
  simp only [hparts.low.eval_eq, hparts.high.eval_eq] at hb
  rw [← not_exists_falls_iff] at hb
  have hparts₁ := hparts.of_extends hs.toReduced hext₁
  split
  · rename_i himplies
    have hfalls := hb.mp himplies
    have hrises : ∃ x, Rises (frame.read F) (frame.varOf i) x := by
      by_contra hrises
      exact hne (hequal.mpr ⟨hrises, hfalls⟩)
    refine .result hs₁ ⟨.of_describes (by decide) ?_, hparts₁.holdsComparison fun _ => hfalls⟩
    exact @VariableFrame.Covers.ofChanges_eq_iff _ _ _ h hi true false (by simpa using hrises)
      (by simpa using hfalls)
  · rename_i himplies
    have hfalls : ∃ x, Falls (frame.read F) (frame.varOf i) x :=
      not_not.mp fun hn => himplies (hb.mpr hn)
    exact compareFalling_grows hs₁ h (hf.of_extends hs.toReduced hext₁) hi hparts₁ hfalls

/-- The comparison answers exactly, whatever the store holds besides the function, and the store
then holds all that was compared. -/
theorem compareCofactors_grows (hs : s.WellFormed) (h : frame.Covers F)
    (hf : s.Denotes (frame.read F) f) (hi : i ∈ frame.inputs) (output : Nat) :
    Grows (compareCofactors frame f (frame.varOf i) output i) s fun v s' =>
      v.Exact frame.numInputs F output i ∧
        s'.HoldsComparison (frame.read F) (frame.varOf i) := by
  have hv : frame.varOf i ≠ 0 := Nat.pos_iff_ne_zero.mp (VariableFrame.varOf_pos hi)
  rw [compareCofactors_eq]
  refine ((StoreM.restrict_grows (b := false) hs hf.holds hv).during _).bind
    fun low s₁ hext₁ hs₁ hlow => ?_
  simp only [hf.eval_eq] at hlow
  have hf₁ := hf.of_extends hs.toReduced hext₁
  refine ((StoreM.restrict_grows (b := true) hs₁ hf₁.holds hv).during _).bind
    fun high s₂ hext₂ hs₂ hhigh => ?_
  simp only [hf₁.eval_eq] at hhigh
  exact compareParts_grows hs₂ h (hf₁.of_extends hs₁.toReduced hext₂) hi
    ⟨hlow.of_extends hs₁.toReduced hext₂, hhigh⟩

end AndInverter
