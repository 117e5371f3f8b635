import AndInverter.Proofs.Graph.Growth

/-!
# Hashed graphs

A graph is hashed if its gates have proper fanins and no two gates have the same. This is so as soon
as the hash table knows all gates, which it does if each of them came about as a conjunction.
-/

namespace AndInverter

namespace Edge

variable {a b c d e : Edge}

theorem literal_inj : a.literal = b.literal ↔ a = b := by
  refine ⟨fun h => ?_, congrArg literal⟩
  rcases a with ⟨m, c⟩
  rcases b with ⟨n, d⟩
  simp only [literal] at h
  cases c <;> cases d <;> simp at h ⊢ <;> omega

theorem sorted_comm (a b : Edge) : sorted a b = sorted b a := by
  change (if a.literal ≤ b.literal then (a, b) else (b, a)) =
    if b.literal ≤ a.literal then (b, a) else (a, b)
  split
  · split
    · have hab : a = b := literal_inj.mp (by omega)
      rw [hab]
    · rfl
  · split
    · rfl
    · omega

theorem mem_sorted : e = (sorted a b).1 ∨ e = (sorted a b).2 ↔ e = a ∨ e = b := by
  simp only [sorted]
  split
  · rfl
  · exact or_comm

theorem sorted_inj (h : sorted a b = sorted c d) : a = c ∧ b = d ∨ a = d ∧ b = c := by
  simp only [sorted] at h
  split at h <;> split at h <;> simp_all

end Edge

namespace Graph

variable {g g' : Graph} {e : Edge} {ps : List (Edge × Edge)} {p : Edge × Edge}

theorem distinctPairs_iff (seen : Std.HashSet (Edge × Edge)) :
    distinctPairs seen ps = true ↔ ps.Nodup ∧ ∀ p ∈ ps, p ∉ seen := by
  induction ps generalizing seen with
  | nil => simp [distinctPairs]
  | cons q ps ih =>
    rw [distinctPairs, Bool.and_eq_true, ih, List.nodup_cons, List.forall_mem_cons]
    simp only [Std.HashSet.mem_insert, Bool.not_eq_true', Std.HashSet.contains_eq_false_iff_not_mem,
      beq_iff_eq, not_or]
    constructor
    · rintro ⟨hq, hps, hnew⟩
      exact ⟨⟨fun h => (hnew q h).1 rfl, hps⟩, hq, fun p hp => (hnew p hp).2⟩
    · rintro ⟨⟨hnot, hps⟩, hq, hnew⟩
      refine ⟨hq, hps, fun p hp => ⟨?_, hnew p hp⟩⟩
      rintro rfl
      exact hnot hp

def pair? : Node → Option (Edge × Edge)
  | .gate a b => some (Edge.sorted a b)
  | _ => none

theorem pair?_eq_some_iff {n : Node} :
    pair? n = some p ↔ ∃ a b, n = .gate a b ∧ Edge.sorted a b = p := by
  cases n with
  | gate a b =>
    constructor
    · intro h
      exact ⟨a, b, rfl, Option.some.inj h⟩
    · rintro ⟨a', b', hab, h⟩
      cases hab
      exact congrArg some h
  | constant | input | output => simp [pair?]

theorem faninPairs_eq (g : Graph) : g.faninPairs = g.nodes.toList.filterMap pair? := rfl

theorem mem_faninPairs : p ∈ g.faninPairs ↔
    ∃ (id : Nat) (a b : Edge), g.nodes[id]? = some (.gate a b) ∧ Edge.sorted a b = p := by
  rw [faninPairs_eq, List.mem_filterMap]
  constructor
  · rintro ⟨n, hn, hp⟩
    obtain ⟨a, b, rfl, hab⟩ := pair?_eq_some_iff.mp hp
    obtain ⟨id, hid⟩ := List.getElem?_of_mem hn
    rw [Array.getElem?_toList] at hid
    exact ⟨id, a, b, hid, hab⟩
  · rintro ⟨id, a, b, hn, hab⟩
    rw [← Array.getElem?_toList] at hn
    exact ⟨_, List.mem_of_getElem? hn, pair?_eq_some_iff.mpr ⟨a, b, rfl, hab⟩⟩

theorem nodup_faninPairs_iff : g.faninPairs.Nodup ↔
    ∀ {id id' : Nat} {a b a' b' : Edge}, g.nodes[id]? = some (.gate a b) →
      g.nodes[id']? = some (.gate a' b') → Edge.sorted a b = Edge.sorted a' b' → id = id' := by
  rw [faninPairs_eq, List.Nodup, List.pairwise_filterMap, List.pairwise_iff_getElem]
  constructor
  · intro h id id' a b a' b' hn hn' hab
    -- The earlier one of two different gates would have the pair of the later one.
    have hlt {id id' : Nat} {a b a' b' : Edge} (hn : g.nodes[id]? = some (.gate a b))
        (hn' : g.nodes[id']? = some (.gate a' b')) (hab : Edge.sorted a b = Edge.sorted a' b') :
        ¬ id < id' := by
      intro hlt
      rw [← Array.getElem?_toList, List.getElem?_eq_some_iff] at hn hn'
      obtain ⟨hi, hn⟩ := hn
      obtain ⟨hj, hn'⟩ := hn'
      exact h id id' hi hj hlt _ (pair?_eq_some_iff.mpr ⟨a, b, hn, hab⟩) _
        (pair?_eq_some_iff.mpr ⟨a', b', hn', rfl⟩) rfl
    have := hlt hn hn' hab
    have := hlt hn' hn hab.symm
    omega
  · intro h i j hi hj hlt p hp q hq heq
    obtain ⟨a, b, hn, hab⟩ := pair?_eq_some_iff.mp hp
    obtain ⟨a', b', hn', hab'⟩ := pair?_eq_some_iff.mp hq
    have hgate : g.nodes[i]? = some (.gate a b) := by
      rw [← Array.getElem?_toList, List.getElem?_eq_getElem hi, hn]
    have hgate' : g.nodes[j]? = some (.gate a' b') := by
      rw [← Array.getElem?_toList, List.getElem?_eq_getElem hj, hn']
    have := h hgate hgate' (hab.trans (heq.trans hab'.symm))
    omega

theorem isHashed_iff : g.isHashed = true ↔
    (∀ {id : Nat} {a b : Edge}, g.nodes[id]? = some (.gate a b) →
      properPair (Edge.sorted a b) = true) ∧
    ∀ {id id' : Nat} {a b a' b' : Edge}, g.nodes[id]? = some (.gate a b) →
      g.nodes[id']? = some (.gate a' b') → Edge.sorted a b = Edge.sorted a' b' → id = id' := by
  rw [isHashed, Bool.and_eq_true, distinctPairs_iff, nodup_faninPairs_iff, List.all_eq_true]
  refine and_congr ⟨fun h id a b hn => h _ (mem_faninPairs.mpr ⟨id, a, b, hn, rfl⟩), ?_⟩
    (and_iff_left fun p _ => Std.HashSet.not_mem_empty)
  intro h p hp
  obtain ⟨id, a, b, hn, rfl⟩ := mem_faninPairs.mp hp
  exact h hn

/-- The hash table knows all gates. -/
def FullyHashed (g : Graph) : Prop :=
  ∀ (id : Nat) (a b : Edge), g.nodes[id]? = some (.gate a b) → g.hashed[(a, b)]? = some id

theorem sorted_eq_of_le {a b : Edge} (h : a.literal ≤ b.literal) : Edge.sorted a b = (a, b) :=
  if_pos h

theorem FullyHashed.isHashed (h : g.FullyHashed) (hg : g.WellFormed) : g.isHashed = true := by
  have hsorted {id : Nat} {a b : Edge} (hn : g.nodes[id]? = some (.gate a b)) :
      Edge.sorted a b = (a, b) :=
    sorted_eq_of_le (Nat.le_of_lt (hg.hashed_gate (h id a b hn)).2.1)
  rw [isHashed_iff]
  constructor
  · intro id a b hn
    rw [hsorted hn]
    exact (hg.hashed_gate (h id a b hn)).2.2
  · intro id id' a b a' b' hn hn' hab
    rw [hsorted hn, hsorted hn'] at hab
    have hid := h id a b hn
    rw [hab, h id' a' b' hn'] at hid
    exact (Option.some.inj hid).symm

theorem fullyHashed_empty : empty.FullyHashed := by
  intro id a b hn
  rcases id with _ | id <;> simp [empty] at hn

/-- A new node that is no gate does not matter to hashing. -/
theorem FullyHashed.push (h : g.FullyHashed) {m : Node} (hm : m.isGate = false)
    (hn : g'.nodes = g.nodes.push m) (hh : g'.hashed = g.hashed) : g'.FullyHashed := by
  intro id a b hid
  rw [hn, getElem?_push_iff] at hid
  rcases hid with ⟨-, rfl⟩ | hid
  · cases hm
  · rw [hh]
    exact h id a b hid

theorem FullyHashed.conjoins (h : g.FullyHashed) (hc : Build.Conjoins g p e g') :
    g'.FullyHashed := by
  cases hc with
  | trivial => exact h
  | found => exact h
  | added _ hnew =>
    intro id a b hid
    change (g.hashed.insert p g.size)[(a, b)]? = some id
    rcases getElem?_push_iff.mp hid with ⟨rfl, hab⟩ | hid
    · cases hab
      exact Std.HashMap.getElem?_insert_self
    · have hold := h id a b hid
      have hne : ¬ (p == (a, b)) = true := by
        intro heq
        rw [eq_of_beq heq, hold] at hnew
        cases hnew
      rw [Std.HashMap.getElem?_insert, if_neg hne]
      exact hold

end Graph

end AndInverter
