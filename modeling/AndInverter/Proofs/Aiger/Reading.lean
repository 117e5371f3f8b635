import AndInverter.Proofs.Aiger.Description
import AndInverter.Proofs.Contract

/-!
# Reading line by line

Each reader succeeds exactly on the lines that hold what it looks for, and then has one result. A
section is read line by line, so its lines hold a list of items that the state admits in turn.
-/

namespace AndInverter.Aiger

theorem ite_digitsValue_eq_some_iff {ds : List Char} {n : Nat} :
    (if !ds.isEmpty && ds.all Char.isDigit && decide (digitsValue ds < 0x10000000000000000) then
      some (digitsValue ds) else none) = some n ↔
    ds ≠ [] ∧ (∀ c ∈ ds, c.isDigit = true) ∧ digitsValue ds = n ∧ n < 0x10000000000000000 := by
  have hcond : (!ds.isEmpty && ds.all Char.isDigit &&
      decide (digitsValue ds < 0x10000000000000000)) = true ↔
      ds ≠ [] ∧ (∀ c ∈ ds, c.isDigit = true) ∧ digitsValue ds < 0x10000000000000000 := by
    simp [and_assoc]
  split
  · rename_i h
    obtain ⟨hne, hdigits, hlt⟩ := hcond.mp h
    refine ⟨fun hn => ?_, fun hn => congrArg some hn.2.2.1⟩
    cases hn
    exact ⟨hne, hdigits, rfl, hlt⟩
  · rename_i h
    refine ⟨fun hn => (by cases hn), fun hn => absurd (hcond.mpr ?_) h⟩
    exact ⟨hn.1, hn.2.1, hn.2.2.1 ▸ hn.2.2.2⟩

theorem number?_eq_some_iff {w : List Char} {n : Nat} : number? w = some n ↔ IsNumeral w n := by
  rw [number?, ite_digitsValue_eq_some_iff]
  constructor
  · intro h
    refine ⟨_, ?_, h⟩
    cases w with
    | nil => exact .inl rfl
    | cons c w =>
      by_cases hc : c = '+'
      · exact .inr (by simp [hc])
      · exact .inl (by simp [hc])
  · rintro ⟨ds, rfl | rfl, h⟩
    · have hsign : w.head? ≠ some '+' := fun hhead =>
        absurd (h.2.1 '+' (List.mem_of_mem_head? hhead)) (by decide)
      rwa [if_neg hsign]
    · exact h

instance (w : List Char) (n : Nat) : Decidable (IsNumeral w n) :=
  decidable_of_iff (number? w = some n) number?_eq_some_iff

instance (l : Line) (ns : List Nat) : Decidable (l.Holds ns) :=
  inferInstanceAs (Decidable (List.Forall₂ IsNumeral (words l.text) ns))

theorem readNumber_eq_ok_iff {line n : Nat} {w : List Char} :
    readNumber line w = .ok n ↔ IsNumeral w n := by
  rw [← number?_eq_some_iff, readNumber]
  cases number? w with
  | none => simp
  | some m => simp

theorem readNumbers_eq_ok_iff {line k : Nat} {ws : List (List Char)} {ns : Vector Nat k} :
    readNumbers line k ws = .ok ns ↔ List.Forall₂ IsNumeral ws ns.toList := by
  simp only [readNumbers, Except.bind_eq_ok_iff, Except.arrayMapM_eq_ok_iff, readNumber_eq_ok_iff]
  constructor
  · rintro ⟨ms, hms, h⟩
    split at h
    · cases h
      exact hms
    · cases h
  · intro h
    refine ⟨ns.toArray, h, ?_⟩
    rw [dif_pos ns.size_toArray]
    rfl

theorem toList_five (ns : Vector Nat 5) :
    ns.toList = [ns.get 0, ns.get 1, ns.get 2, ns.get 3, ns.get 4] := by
  obtain ⟨⟨l⟩, hl⟩ := ns
  match l, hl with
  | [_, _, _, _, _], _ => rfl

namespace Header

theorem ofWords_eq_ok_iff {ws : List (List Char)} {h : Header} : ofWords ws = .ok h ↔
    ∃ rest, ws = "aag".toList :: rest ∧ List.Forall₂ IsNumeral rest h.counts := by
  cases ws with
  | nil => simp [ofWords]
  | cons format rest =>
    rw [ofWords]
    split
    · rename_i hformat
      subst hformat
      rw [Except.bind_eq_ok_iff]
      constructor
      · rintro ⟨ns, hns, heq⟩
        cases heq
        rw [readNumbers_eq_ok_iff, toList_five] at hns
        exact ⟨rest, rfl, hns⟩
      · rintro ⟨_, heq, hcounts⟩
        cases heq
        exact ⟨⟨#[h.maxVar, h.numInputs, h.numLatches, h.numOutputs, h.numGates], rfl⟩,
          readNumbers_eq_ok_iff.mpr hcounts, rfl⟩
    · rename_i hformat
      have hnot : ¬ ∃ rest', format :: rest = "aag".toList :: rest' ∧
          List.Forall₂ IsNumeral rest' h.counts := by
        rintro ⟨_, heq, -⟩
        exact hformat (List.cons.inj heq).1
      split
      · exact ⟨fun heq => (by cases heq), fun h => absurd h hnot⟩
      · exact ⟨fun heq => (by cases heq), fun h => absurd h hnot⟩

theorem check_eq_ok_iff {h : Header} {u : Unit} : h.check = .ok u ↔
    h.numLatches = 0 ∧ h.numInputs + h.numGates ≤ h.maxVar := by
  rw [check]
  split
  · simp
    omega
  · split
    · simp
      omega
    · simp
      omega

/-- The counts of a header that is read are 64-bit words. -/
theorem counts_lt_of_ofWords {ws : List (List Char)} {h : Header} (hread : ofWords ws = .ok h) :
    ∀ n ∈ h.counts, n < 0x10000000000000000 := by
  obtain ⟨rest, -, hcounts⟩ := ofWords_eq_ok_iff.mp hread
  intro n hn
  obtain ⟨i, hi, rfl⟩ := List.getElem_of_mem hn
  obtain ⟨ds, -, -, -, -, hlt⟩ := hcounts.get (hcounts.length_eq ▸ hi) hi
  exact hlt

/-- As long as the sum of the counts is a word, the check is the same if it adds words. -/
theorem check_eq_ok_iff_words {ws : List (List Char)} {h : Header} {u : Unit}
    (hread : ofWords ws = .ok h) (hsum : h.numInputs + h.numGates < 0x10000000000000000) :
    h.check = .ok u ↔ h.numLatches = 0 ∧
      h.numInputs.toUInt64 + h.numGates.toUInt64 ≤ h.maxVar.toUInt64 := by
  have hmax := counts_lt_of_ofWords hread h.maxVar (by simp [counts])
  rw [check_eq_ok_iff, UInt64.le_iff_toNat_le, UInt64.toNat_add]
  simp only [Nat.toUInt64_eq, UInt64.toNat_ofNat']
  omega

/-- A header that passes the check has a sum of counts that is a word. -/
theorem sum_lt_of_check {ws : List (List Char)} {h : Header} {u : Unit}
    (hread : ofWords ws = .ok h) (hcheck : h.check = .ok u) :
    h.numInputs + h.numGates < 0x10000000000000000 :=
  Nat.lt_of_le_of_lt (check_eq_ok_iff.mp hcheck).2
    (counts_lt_of_ofWords hread h.maxVar (by simp [counts]))

theorem checkLiteral_eq_ok_iff {h : Header} {line literal : Nat} {u : Unit} :
    h.checkLiteral line literal = .ok u ↔ variableOf literal ≤ h.maxVar := by
  rw [checkLiteral]
  split
  · simp
    omega
  · simp
    omega

end Header

theorem isDefining_eq_true_iff {literal : Nat} :
    isDefining literal = true ↔ literal % 2 = 0 ∧ 2 ≤ literal := by
  simp [isDefining]

theorem exists_vector_one {P : Vector Nat 1 → Prop} : (∃ ns, P ns) ↔ ∃ n, P #v[n] := by
  constructor
  · rintro ⟨⟨⟨ns⟩, hsize⟩, h⟩
    match ns, hsize with
    | [n], _ => exact ⟨n, h⟩
  · rintro ⟨n, h⟩
    exact ⟨_, h⟩

theorem exists_vector_three {P : Vector Nat 3 → Prop} :
    (∃ ns, P ns) ↔ ∃ a b c, P #v[a, b, c] := by
  constructor
  · rintro ⟨⟨⟨ns⟩, hsize⟩, h⟩
    match ns, hsize with
    | [a, b, c], _ => exact ⟨a, b, c, h⟩
  · rintro ⟨a, b, c, h⟩
    exact ⟨_, h⟩

theorem readInput_eq_ok_iff (h : Header) (s : Scope) (l : Line) (s' : Scope) :
    readInput h s l = .ok s' ↔ ∃ n, l.Holds [n] ∧
      (h.MayDefine n ∧ variableOf n ∉ s.edges) ∧ s' = s.addInput (variableOf n) := by
  simp only [readInput, Except.bind_eq_ok_iff, Except.guard_eq_ok_iff, readNumbers_eq_ok_iff,
    exists_vector_one, Header.checkLiteral_eq_ok_iff, Bool.not_eq_true', Bool.not_eq_false,
    isDefining_eq_true_iff, Except.pure_eq_ok_iff, exists_const, Std.HashMap.contains_iff_mem]
  exact exists_congr fun n => and_congr_right fun _ => by simp [Header.MayDefine, and_assoc]

theorem readOutput_eq_ok_iff (h : Header) (os : Array OutputLine) (l : Line)
    (os' : Array OutputLine) :
    readOutput h os l = .ok os' ↔ ∃ o : OutputLine, (l.number = o.line ∧ l.Holds [o.literal]) ∧
      variableOf o.literal ≤ h.maxVar ∧ os' = os.push o := by
  simp only [readOutput, Except.bind_eq_ok_iff, readNumbers_eq_ok_iff, exists_vector_one,
    Header.checkLiteral_eq_ok_iff, Except.pure_eq_ok_iff, exists_const]
  constructor
  · rintro ⟨n, hn, hle, rfl⟩
    exact ⟨⟨l.number, n⟩, ⟨rfl, hn⟩, hle, rfl⟩
  · rintro ⟨⟨_, n⟩, ⟨rfl, hn⟩, hle, rfl⟩
    exact ⟨n, hn, hle, rfl⟩

def Equations.push (qs : Equations) (q : Equation) : Equations :=
  ⟨qs.list.push q, qs.heads.insert (variableOf q.head)⟩

theorem readGate_eq_ok_iff (h : Header) (inputs : Scope) (qs : Equations) (l : Line)
    (qs' : Equations) :
    readGate h inputs qs l = .ok qs' ↔ ∃ q : Equation,
      (l.number = q.line ∧ l.Holds [q.head, q.left, q.right]) ∧
      ((h.MayDefine q.head ∧ (variableOf q.left ≤ h.maxVar ∧ variableOf q.right ≤ h.maxVar) ∧
        variableOf q.head ∉ inputs.edges) ∧ variableOf q.head ∉ qs.heads) ∧ qs' = qs.push q := by
  simp only [readGate, Except.bind_eq_ok_iff, Except.guard_eq_ok_iff, readNumbers_eq_ok_iff,
    exists_vector_three, Header.checkLiteral_eq_ok_iff, Bool.not_eq_true', Bool.not_eq_false,
    isDefining_eq_true_iff, Except.pure_eq_ok_iff, exists_const, Bool.or_eq_true, not_or,
    Std.HashMap.contains_iff_mem, Std.HashSet.contains_iff_mem]
  constructor
  · rintro ⟨a, b, c, hns, hdef, ha, hb, hc, ⟨hinput, hfresh⟩, rfl⟩
    exact ⟨⟨l.number, a, b, c⟩, ⟨rfl, hns⟩, ⟨⟨⟨hdef.1, hdef.2, ha⟩, ⟨hb, hc⟩, hinput⟩, hfresh⟩, rfl⟩
  · rintro ⟨⟨_, a, b, c⟩, ⟨rfl, hns⟩, ⟨⟨⟨heven, hpos, ha⟩, ⟨hb, hc⟩, hinput⟩, hfresh⟩, rfl⟩
    exact ⟨a, b, c, hns, ⟨heven, hpos⟩, ha, hb, hc, ⟨hinput, hfresh⟩, rfl⟩

/-- Each item in turn is admitted by the state that the items before it lead to. -/
def Admitted {σ α : Type} (Q : σ → α → Prop) (f : σ → α → σ) : σ → List α → Prop
  | _, [] => True
  | s, a :: as => Q s a ∧ Admitted Q f (f s a) as

theorem admitted_iff_forall {σ α : Type} {Q : σ → α → Prop} {f : σ → α → σ}
    (hf : ∀ s a b, Q (f s a) b ↔ Q s b) {s : σ} {as : List α} :
    Admitted Q f s as ↔ ∀ a ∈ as, Q s a := by
  induction as generalizing s with
  | nil => simp [Admitted]
  | cons a as ih => simp only [Admitted, ih, hf, List.forall_mem_cons]

/-- If each item makes its key known, and an item with a known key is not admitted, the keys of all
items are new and different. -/
theorem admitted_fresh_iff {σ α β : Type} {P : α → Prop} (key : α → β) (known : σ → β → Prop)
    {f : σ → α → σ} (hf : ∀ s a b, known (f s a) b ↔ b = key a ∨ known s b) {s : σ} {as : List α} :
    Admitted (fun s a => P a ∧ ¬ known s (key a)) f s as ↔
      (∀ a ∈ as, P a) ∧ (as.map key).Nodup ∧ ∀ a ∈ as, ¬ known s (key a) := by
  induction as generalizing s with
  | nil => simp [Admitted]
  | cons a as ih =>
    simp only [Admitted, ih, hf, List.forall_mem_cons, List.map_cons, List.nodup_cons, not_or,
      List.mem_map, not_exists, not_and]
    constructor
    · rintro ⟨⟨ha, hold⟩, has, hnodup, hnew⟩
      exact ⟨⟨ha, has⟩, ⟨fun b hb => (hnew b hb).1, hnodup⟩, hold, fun b hb => (hnew b hb).2⟩
    · rintro ⟨⟨ha, has⟩, ⟨hne, hnodup⟩, hold, hnew⟩
      exact ⟨⟨ha, hold⟩, has, hnodup, fun b hb => ⟨hne b hb, hnew b hb⟩⟩

theorem readLines_eq_ok_iff {σ α : Type} {step : σ → Line → Except Error σ} {R : Line → α → Prop}
    {Q : σ → α → Prop} {f : σ → α → σ}
    (hstep : ∀ s l s', step s l = .ok s' ↔ ∃ a, R l a ∧ Q s a ∧ s' = f s a) {last n : Nat}
    {item : String} {ls rest : List Line} {s s' : σ} :
    readLines last item step n ls s = .ok (s', rest) ↔ ∃ read as, ls = read ++ rest ∧
      as.length = n ∧ List.Forall₂ R read as ∧ Admitted Q f s as ∧ s' = as.foldl f s := by
  induction n generalizing ls s with
  | zero =>
    constructor
    · intro h
      cases h
      exact ⟨[], [], rfl, rfl, .nil, trivial, rfl⟩
    · rintro ⟨read, as, rfl, hlen, hread, -, rfl⟩
      obtain rfl := List.eq_nil_of_length_eq_zero hlen
      cases hread
      rfl
  | succ n ih =>
    cases ls with
    | nil =>
      constructor
      · intro h
        cases h
      · rintro ⟨read, as, hls, hlen, hread, -, -⟩
        have hlen' := hread.length_eq
        rw [hlen, (List.append_eq_nil_iff.mp hls.symm).1] at hlen'
        cases hlen'
    | cons l ls =>
      simp only [readLines, Except.bind_eq_ok_iff, hstep, ih]
      constructor
      · rintro ⟨_, ⟨a, ha, hq, rfl⟩, read, as, rfl, hlen, hread, hadm, rfl⟩
        exact ⟨l :: read, a :: as, rfl, congrArg (· + 1) hlen, .cons ha hread, ⟨hq, hadm⟩, rfl⟩
      · rintro ⟨read, as, hls, hlen, hread, hadm, rfl⟩
        cases hread with
        | nil => cases hlen
        | cons ha hread =>
          cases hls
          exact ⟨_, ⟨_, ha, hadm.1, rfl⟩, _, _, rfl, Nat.succ.inj hlen, hread, hadm.2, rfl⟩

end AndInverter.Aiger
