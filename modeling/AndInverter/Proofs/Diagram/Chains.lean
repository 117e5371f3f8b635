import AndInverter.Proofs.Diagram.UniqueTable
import Mathlib.Data.List.Find

/-!
# Chains of a unique table

The chain of a bucket holds the interned values of the bucket in the order of their arrival, whatever
cells lie between them. So all chains go up and every search ends, at the first equal value or at the
end of the chain.
-/

namespace AndInverter

class LawfulKey (α : Type) [BEq α] [BucketKey α] : Prop where
  word_eq {a b : α} : a == b → word a = word b

instance {α : Type} [BEq α] [LawfulBEq α] [BucketKey α] : LawfulKey α :=
  ⟨fun h => congrArg word (eq_of_beq h)⟩

namespace UniqueTable

variable {α : Type} {t t' : UniqueTable α} {value : α} {i j k : Nat} {is : List Nat}

def holds [BEq α] (t : UniqueTable α) (value : α) (i : Nat) : Bool :=
  t.values[i]?.any (value == ·)

theorem holds_eq [BEq α] (hlt : i < t.values.size) :
    t.holds value i = (value == t.values[i]) := by
  rw [holds, Array.getElem?_eq_getElem hlt, Option.any_some]

/-- Where links go up, a walk goes on until it finds an equal value or a link that is zero. -/
theorem walk_eq_of_next_up [BEq α] (hlt : i < t.values.size) (hup : t.next i = 0 ∨ i < t.next i)
    (value : α) : walk t.values t.nexts value i =
      if t.holds value i then .found i else if t.next i = 0 then .last i
      else walk t.values t.nexts value (t.next i) := by
  rw [walk, dif_pos hlt, holds_eq hlt]
  refine if_congr Iff.rfl rfl ?_
  rcases hup with hzero | hup
  · rw [if_pos hzero]
    exact if_neg (by rw [← next, hzero]; exact Nat.not_lt_zero i)
  · rw [if_neg (Nat.ne_of_gt (Nat.zero_lt_of_lt hup))]
    exact if_pos hup

/-- The cells from the given one on, link by link, up to a link that is zero. -/
inductive Links (t : UniqueTable α) : Nat → List Nat → Prop
  | done : Links t 0 []
  | cell {i : Nat} {is : List Nat} (hpos : 0 < i) (hlt : i < t.values.size)
      (hrest : Links t (t.next i) is) : Links t i (i :: is)

namespace Links

theorem eq_nil (h : t.Links 0 is) : is = [] := by
  cases h with
  | done => rfl
  | cell hpos => exact absurd hpos (Nat.lt_irrefl 0)

theorem head_mem (h : t.Links i is) (hi : i ≠ 0) : i ∈ is := by
  cases h with
  | done => exact absurd rfl hi
  | cell => exact List.mem_cons_self

theorem single (hpos : 0 < i) (hlt : i < t.values.size) (hnext : t.next i = 0) : t.Links i [i] := by
  refine .cell hpos hlt ?_
  rw [hnext]
  exact .done

theorem congr (h : t.Links i is) (hsize : t.values.size ≤ t'.values.size)
    (hnext : ∀ k ∈ is, t'.next k = t.next k) : t'.Links i is := by
  induction h with
  | done => exact .done
  | @cell i is hpos hlt hrest ih =>
    refine .cell hpos (Nat.lt_of_lt_of_le hlt hsize) ?_
    rw [hnext i List.mem_cons_self]
    exact ih fun k hk => hnext k (List.mem_cons_of_mem i hk)

/-- A cell without a link that the last cell of a chain is linked to makes the chain longer. -/
theorem extend (h : t.Links i is) (hup : is.Pairwise (· < ·)) (hlast : is.getLast? = some j)
    (hsize : t.values.size ≤ t'.values.size) (hnext : ∀ m ∈ is, m ≠ j → t'.next m = t.next m)
    (hj : t'.next j = k) (hk : t'.Links k [k]) : t'.Links i (is ++ [k]) := by
  induction h with
  | done => cases hlast
  | @cell i is hpos hlt hrest ih =>
    obtain ⟨hlow, hup⟩ := List.pairwise_cons.mp hup
    refine .cell hpos (Nat.lt_of_lt_of_le hlt hsize) ?_
    cases is with
    | nil =>
      obtain rfl : i = j := by simpa using hlast
      rwa [hj]
    | cons m is =>
      rw [List.getLast?_cons_cons] at hlast
      have hij : i ≠ j := Nat.ne_of_lt (hlow j (List.mem_of_getLast? hlast))
      rw [hnext i List.mem_cons_self hij]
      exact ih hup hlast fun m hm => hnext m (List.mem_cons_of_mem i hm)

/-- The next cell of an ascending chain lies above. -/
theorem next_up (hrest : t.Links (t.next i) is) (hlow : ∀ k ∈ is, i < k) :
    t.next i = 0 ∨ i < t.next i :=
  (Nat.eq_zero_or_pos (t.next i)).imp_right fun hpos =>
    hlow _ (hrest.head_mem (Nat.ne_of_gt hpos))

variable [BEq α]

/-- A walk along a chain finds the first equal value. -/
theorem walk_eq_found (h : t.Links i is) (hup : is.Pairwise (· < ·))
    (hfind : is.find? (t.holds value) = some j) :
    walk t.values t.nexts value i = .found j := by
  induction h with
  | done => cases hfind
  | @cell i is hpos hlt hrest ih =>
    obtain ⟨hlow, hup⟩ := List.pairwise_cons.mp hup
    rw [walk_eq_of_next_up hlt (hrest.next_up hlow)]
    by_cases hv : t.holds value i
    · rw [List.find?_cons_of_pos hv] at hfind
      rw [if_pos hv, Option.some.inj hfind]
    · rw [List.find?_cons_of_neg hv] at hfind
      have hnext : t.next i ≠ 0 := by
        intro hzero
        rw [hzero] at hrest
        rw [hrest.eq_nil] at hfind
        cases hfind
      rw [if_neg hv, if_neg hnext]
      exact ih hup hfind

/-- A walk along a chain without an equal value ends at the last cell of the chain. -/
theorem walk_eq_last (h : t.Links i is) (hup : is.Pairwise (· < ·)) (hi : i ≠ 0)
    (hnone : is.find? (t.holds value) = none) :
    ∃ j, is.getLast? = some j ∧ walk t.values t.nexts value i = .last j := by
  induction h with
  | done => exact absurd rfl hi
  | @cell i is hpos hlt hrest ih =>
    obtain ⟨hlow, hup⟩ := List.pairwise_cons.mp hup
    obtain ⟨hv, hrestnone⟩ := List.forall_mem_cons.mp (List.find?_eq_none.mp hnone)
    rw [walk_eq_of_next_up hlt (hrest.next_up hlow), if_neg hv]
    by_cases hnext : t.next i = 0
    · rw [hnext] at hrest
      exact ⟨i, by rw [hrest.eq_nil]; rfl, if_pos hnext⟩
    · obtain ⟨j, hlast, hwalk⟩ := ih hup hnext (List.find?_eq_none.mpr hrestnone)
      refine ⟨j, by rw [List.getLast?_cons, hlast]; rfl, ?_⟩
      rw [if_neg hnext, hwalk]

end Links

section Kept

variable [BucketKey α] {kept : List (α × Nat)} {p : α × Nat} {b : Nat}

def chainOf (t : UniqueTable α) (kept : List (α × Nat)) (b : Nat) : List Nat :=
  (kept.filter fun p => t.home p.1 = b).map Prod.snd

theorem mem_chainOf_iff : i ∈ t.chainOf kept b ↔ ∃ x, (x, i) ∈ kept ∧ t.home x = b := by
  simp [chainOf]

theorem chainOf_concat (t : UniqueTable α) (kept : List (α × Nat)) (value : α) (n b : Nat) :
    t.chainOf (kept ++ [(value, n)]) b =
      if t.home value = b then t.chainOf kept b ++ [n] else t.chainOf kept b := by
  rw [chainOf, List.filter_append, List.map_append]
  split
  · rename_i hb
    simp [chainOf, hb]
  · rename_i hb
    simp [chainOf, hb]

theorem chainOf_congr (hhome : ∀ x, t'.home x = t.home x) (kept : List (α × Nat)) (b : Nat) :
    t'.chainOf kept b = t.chainOf kept b := by
  simp only [chainOf, hhome]

/-- The values of the list have been interned in these cells. The chain of every bucket consists of
the cells of its values, and all links go up. -/
structure Chained (t : UniqueTable α) (kept : List (α × Nat)) : Prop where
  wellFormed : t.WellFormed
  value_eq {p : α × Nat} : p ∈ kept → t.values[p.2]? = some p.1
  pos {p : α × Nat} : p ∈ kept → 0 < p.2
  ascending : (kept.map Prod.snd).Pairwise (· < ·)
  links (b : Nat) : t.Links (t.heads.getD b 0) (t.chainOf kept b)
  next_up (i : Nat) : t.next i = 0 ∨ i < t.next i

namespace Chained

theorem lt_size (h : t.Chained kept) (hp : p ∈ kept) : p.2 < t.values.size :=
  (Array.getElem?_eq_some_iff.mp (h.value_eq hp)).1

theorem ascending_chainOf (h : t.Chained kept) (b : Nat) :
    (t.chainOf kept b).Pairwise (· < ·) :=
  h.ascending.sublist (List.filter_sublist.map Prod.snd)

theorem getElem?_push (h : t.Chained kept) (hp : p ∈ kept) (value : α) :
    (t.values.push value)[p.2]? = some p.1 := by
  rw [Array.getElem?_push, if_neg (Nat.ne_of_lt (h.lt_size hp)), h.value_eq hp]

theorem append (h : t.Chained kept) (hfree : t.values.size < t.capacity) (value : α) :
    (t.add value).Chained kept where
  wellFormed := h.wellFormed.add hfree value
  value_eq hp := h.getElem?_push hp value
  pos := h.pos
  ascending := h.ascending
  links b := (h.links b).congr (by simp [add]) fun k _ => t.next_add value k
  next_up i := by
    rw [next_add]
    exact h.next_up i

/-- A new cell that lies in the chain of its bucket. -/
theorem of_push (h : t.Chained kept) (ht' : t'.WellFormed)
    (hvalues : t'.values = t.values.push value)
    (hlinks : ∀ b, t'.Links (t'.heads.getD b 0)
      (t'.chainOf (kept ++ [(value, t.values.size)]) b))
    (hup : ∀ i, t'.next i = 0 ∨ i < t'.next i) :
    t'.Chained (kept ++ [(value, t.values.size)]) where
  wellFormed := ht'
  value_eq hp := by
    rw [hvalues]
    rcases List.mem_append.mp hp with hp | hp
    · exact h.getElem?_push hp value
    · obtain rfl := List.mem_singleton.mp hp
      exact Array.getElem?_push_size
  pos hp := by
    rcases List.mem_append.mp hp with hp | hp
    · exact h.pos hp
    · obtain rfl := List.mem_singleton.mp hp
      exact h.wellFormed.values_pos
  ascending := by
    rw [List.map_append, List.pairwise_append]
    refine ⟨h.ascending, List.pairwise_singleton .., fun i hi j hj => ?_⟩
    obtain ⟨p, hp, rfl⟩ := List.mem_map.mp hi
    obtain rfl : j = t.values.size := by simpa using hj
    exact h.lt_size hp
  links := hlinks
  next_up := hup

theorem next_size (h : t.Chained kept) : t.next t.values.size = 0 := by
  rw [next, ← h.wellFormed.size_nexts, Array.getD_eq_getD_getElem?, Array.getElem?_size,
    Option.getD_none]

variable [BEq α]

/-- The first cell of a bucket that was empty. -/
theorem startChain [ReflBEq α] (h : t.Chained kept) (hfree : t.values.size < t.capacity)
    (hempty : t.search value = .empty) :
    (t.startChain value).Chained (kept ++ [(value, t.values.size)]) := by
  have hadds := startChain_adds h.wellFormed hfree hempty
  have hsize : (t.startChain value).values.size = t.values.size + 1 := by
    rw [hadds.values_eq, Array.size_push]
  have hnext := t.next_startChain value
  refine h.of_push hadds.wellFormed hadds.values_eq (fun b => ?_) fun i => ?_
  · rw [chainOf_congr (t.home_startChain value), chainOf_concat, getD_heads_startChain]
    by_cases hb : t.home value = b
    · subst hb
      have hlinks := h.links (t.home value)
      rw [← head, head_eq_zero_of_search_eq_empty hempty] at hlinks
      rw [if_pos rfl, if_pos rfl, hlinks.eq_nil]
      exact .single h.wellFormed.values_pos (by omega) ((hnext _).trans h.next_size)
    · rw [if_neg (Ne.symm hb), if_neg hb]
      exact (h.links b).congr (by omega) fun k _ => hnext k
  · rw [hnext]
    exact h.next_up i

/-- A further cell of a bucket, behind the last one. -/
theorem extendChain [ReflBEq α] (h : t.Chained kept) (hfree : t.values.size < t.capacity)
    (hsearch : t.search value = .last j)
    (hlast : (t.chainOf kept (t.home value)).getLast? = some j) :
    (t.extendChain value j).Chained (kept ++ [(value, t.values.size)]) := by
  have hadds := extendChain_adds h.wellFormed hfree hsearch
  have hsize : (t.extendChain value j).values.size = t.values.size + 1 := by
    rw [hadds.values_eq, Array.size_push]
  obtain ⟨x, hx, hhome⟩ := mem_chainOf_iff.mp (List.mem_of_getLast? hlast)
  have hj : j < t.values.size := h.lt_size hx
  have hnext := next_extendChain h.wellFormed hj value
  have hhomes (x : α) : (t.extendChain value j).home x = t.home x := rfl
  have hnew : (t.extendChain value j).next t.values.size = 0 := by
    rw [hnext, if_neg (Nat.ne_of_gt hj), h.next_size]
  refine h.of_push hadds.wellFormed hadds.values_eq (fun b => ?_) fun i => ?_
  · rw [chainOf_congr hhomes, chainOf_concat]
    by_cases hb : t.home value = b
    · subst hb
      rw [if_pos rfl]
      exact (h.links _).extend (h.ascending_chainOf _) hlast (by omega)
        (fun m _ hm => by rw [hnext, if_neg hm]) (by rw [hnext, if_pos rfl])
        (.single h.wellFormed.values_pos (by omega) hnew)
    · rw [if_neg hb]
      refine (h.links b).congr (by omega) fun k hk => ?_
      have hkj : k ≠ j := by
        rintro rfl
        obtain ⟨y, hy, rfl⟩ := mem_chainOf_iff.mp hk
        have hxy : x = y := Option.some.inj ((h.value_eq hx).symm.trans (h.value_eq hy))
        exact hb (hxy ▸ hhome.symm)
      rw [hnext, if_neg hkj]
  · rw [hnext]
    split
    · rename_i hij
      exact .inr (hij ▸ hj)
    · exact h.next_up i

variable [LawfulKey α]

theorem find?_chainOf (h : t.Chained kept) (value : α) :
    (t.chainOf kept (t.home value)).find? (t.holds value) =
      (kept.find? fun p => value == p.1).map Prod.snd := by
  rw [chainOf, List.find?_map, List.find?_filter]
  refine congrArg _ (List.find?_congr fun p hp => ?_)
  have hhome (heq : value == p.1) : t.home p.1 = t.home value := by
    rw [home, home, LawfulKey.word_eq heq]
  have hcell : t.holds value p.2 = (value == p.1) := by
    rw [holds, h.value_eq hp, Option.any_some]
  simpa [hcell] using hhome

theorem search_eq_found (h : t.Chained kept) (hfind : kept.find? (fun p => value == p.1) = some p) :
    t.search value = .found p.2 := by
  have hchain := h.find?_chainOf value
  rw [hfind] at hchain
  have hlinks := h.links (t.home value)
  have hhead : t.head value ≠ 0 := by
    intro hzero
    rw [← head, hzero] at hlinks
    rw [hlinks.eq_nil] at hchain
    cases hchain
  rw [search_def, if_neg hhead]
  exact hlinks.walk_eq_found (h.ascending_chainOf _) hchain

theorem search_of_find?_eq_none (h : t.Chained kept)
    (hnone : kept.find? (fun p => value == p.1) = none) : t.search value = .empty ∨
      ∃ j, t.search value = .last j ∧ (t.chainOf kept (t.home value)).getLast? = some j := by
  have hchain := h.find?_chainOf value
  rw [hnone] at hchain
  by_cases hhead : t.head value = 0
  · exact .inl (by rw [search_def, if_pos hhead])
  · obtain ⟨j, hlast, hwalk⟩ :=
      (h.links (t.home value)).walk_eq_last (h.ascending_chainOf _) hhead hchain
    refine .inr ⟨j, ?_, hlast⟩
    rw [search_def, if_neg hhead]
    exact hwalk

theorem intern_of_find?_eq_some (h : t.Chained kept)
    (hfind : kept.find? (fun p => value == p.1) = some p) : t.intern value = (some p.2, t) := by
  simp only [intern, h.search_eq_found hfind]

/-- A value that has not been interned takes the next cell, if there is one. -/
theorem intern_of_find?_eq_none [ReflBEq α] (h : t.Chained kept)
    (hnone : kept.find? (fun p => value == p.1) = none) :
    (t.values.size = t.capacity ∧ t.intern value = (none, t)) ∨
    (t.values.size < t.capacity ∧ ∃ t', t.intern value = (some t.values.size, t') ∧
      t'.values = t.values.push value ∧ t'.Chained (kept ++ [(value, t.values.size)])) := by
  have hle := h.wellFormed.values_le
  rcases h.search_of_find?_eq_none hnone with hsearch | ⟨j, hsearch, hlast⟩
  · by_cases hfree : t.values.size < t.capacity
    · refine .inr ⟨hfree, _, ?_, rfl, h.startChain hfree hsearch⟩
      simp only [intern, hsearch, if_pos hfree]
    · refine .inl ⟨by omega, ?_⟩
      simp only [intern, hsearch, if_neg hfree]
  · by_cases hfree : t.values.size < t.capacity
    · refine .inr ⟨hfree, _, ?_, rfl, h.extendChain hfree hsearch hlast⟩
      simp only [intern, hsearch, if_pos hfree]
    · refine .inl ⟨by omega, ?_⟩
      simp only [intern, hsearch, if_neg hfree]

end Chained

end Kept

end UniqueTable

end AndInverter
