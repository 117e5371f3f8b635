import AndInverter.Proofs.Diagram.Chains
import AndInverter.Proofs.Diagram.Frame
import Mathlib

/-!
# What a unique table has been called for

A table is called to intern values and to append values outside of all buckets. The `log` lists the
calls with their answers, and the table agrees with it: the cells are those that have been answered,
and a value is found where an equal one was interned for the first time.
-/

namespace AndInverter

namespace UniqueTable

variable {α : Type} {t : UniqueTable α} {value : α} {i : Nat}

section Calls

inductive Call (α : Type) where
  | intern (value : α)
  | append (value : α)

def interned (log : List (Call α × Option Nat)) : List (α × Nat) :=
  log.filterMap fun
    | (.intern value, some i) => some (value, i)
    | _ => none

theorem mem_interned_iff {log : List (Call α × Option Nat)} :
    (value, i) ∈ interned log ↔ (.intern value, some i) ∈ log := by
  rw [interned, List.mem_filterMap]
  constructor
  · rintro ⟨⟨c, a⟩, hmem, heq⟩
    cases c <;> cases a <;> cases heq
    exact hmem
  · intro hmem
    exact ⟨_, hmem, rfl⟩

theorem exists_answered_concat {log : List (Call α × Option Nat)} {c : Call α} {a : Option Nat} :
    (∃ d, (d, some i) ∈ log ++ [(c, a)]) ↔ (∃ d, (d, some i) ∈ log) ∨ a = some i := by
  simp [exists_or, eq_comm]

theorem interned_append (log more : List (Call α × Option Nat)) :
    interned (log ++ more) = interned log ++ interned more :=
  List.filterMap_append

variable [BEq α]

/-- The cell that was answered when an equal value was interned for the first time. -/
def firstInterned (value : α) (log : List (Call α × Option Nat)) : Option Nat :=
  ((interned log).find? fun p => value == p.1).map Prod.snd

theorem firstInterned_append {log : List (Call α × Option Nat)}
    (more : List (Call α × Option Nat)) (h : firstInterned value log = some i) :
    firstInterned value (log ++ more) = some i := by
  obtain ⟨p, hp, rfl⟩ := Option.map_eq_some_iff.mp h
  rw [firstInterned, interned_append, List.find?_append, hp]
  rfl

variable [BucketKey α]

def serve (t : UniqueTable α) : Call α → Option Nat × UniqueTable α
  | .intern value => t.intern value
  | .append value => t.append value

def after (t : UniqueTable α) (calls : List (Call α)) : UniqueTable α :=
  calls.foldl (fun t c => (t.serve c).2) t

def log (t : UniqueTable α) : List (Call α) → List (Call α × Option Nat)
  | [] => []
  | c :: calls => (c, (t.serve c).1) :: (t.serve c).2.log calls

theorem after_append (t : UniqueTable α) (calls more : List (Call α)) :
    t.after (calls ++ more) = (t.after calls).after more :=
  List.foldl_append

theorem log_append (t : UniqueTable α) (calls more : List (Call α)) :
    t.log (calls ++ more) = t.log calls ++ (t.after calls).log more := by
  induction calls generalizing t with
  | nil => rfl
  | cons c calls ih => exact congrArg (_ :: ·) (ih _)

end Calls

section Accounts

variable [BEq α] {log : List (Call α × Option Nat)} {kept : List (α × Nat)} {p : α × Nat} {n : Nat}
  {c : Call α}

structure Recorded (log : List (Call α × Option Nat)) (kept : List (α × Nat)) (n : Nat) :
    Prop where
  answered_iff {i : Nat} : (∃ c, (c, some i) ∈ log) ↔ 1 ≤ i ∧ i < n
  mem_interned {p : α × Nat} : p ∈ kept → p ∈ interned log
  exists_kept {value : α} {i : Nat} : (value, i) ∈ interned log → ∃ x, (x, i) ∈ kept ∧ value == x
  find?_eq (value : α) :
    (interned log).find? (fun p => value == p.1) = kept.find? fun p => value == p.1

namespace Recorded

theorem refused (h : Recorded log kept n) (c : Call α) : Recorded (log ++ [(c, none)]) kept n := by
  have heq : interned (log ++ [(c, none)]) = interned log := by
    rw [interned_append]
    cases c <;> exact List.append_nil _
  refine ⟨?_, heq ▸ h.mem_interned, heq ▸ h.exists_kept, heq ▸ h.find?_eq⟩
  intro i
  rw [exists_answered_concat, h.answered_iff]
  exact or_iff_left (Option.some_ne_none i).symm

theorem appended (h : Recorded log kept n) (hn : 1 ≤ n) (value : α) :
    Recorded (log ++ [(.append value, some n)]) kept (n + 1) := by
  have heq : interned (log ++ [(.append value, some n)]) = interned log := by
    rw [interned_append]
    exact List.append_nil _
  refine ⟨?_, heq ▸ h.mem_interned, heq ▸ h.exists_kept, heq ▸ h.find?_eq⟩
  intro i
  rw [exists_answered_concat, h.answered_iff, Option.some.injEq]
  omega

theorem found [EquivBEq α] (h : Recorded log kept n)
    (hfind : kept.find? (fun p => value == p.1) = some p) (hpos : 1 ≤ p.2) (hlt : p.2 < n) :
    Recorded (log ++ [(.intern value, some p.2)]) kept n := by
  have hmem := List.mem_of_find?_eq_some hfind
  have heq : value == p.1 := by simpa using List.find?_some hfind
  refine ⟨?_, fun hq => ?_, fun {x i} hx => ?_, fun x => ?_⟩
  · intro i
    rw [exists_answered_concat, h.answered_iff, Option.some.injEq]
    omega
  · rw [interned_append]
    exact List.mem_append_left _ (h.mem_interned hq)
  · rw [interned_append, List.mem_append] at hx
    rcases hx with hx | hx
    · exact h.exists_kept hx
    · obtain ⟨rfl, rfl⟩ : x = value ∧ i = p.2 := by simpa [interned] using hx
      exact ⟨p.1, hmem, heq⟩
  · rw [interned_append, List.find?_append, h.find?_eq]
    cases hx : kept.find? fun q => x == q.1 with
    | some q => rfl
    | none =>
      have hne : ¬ x == value := fun hxv =>
        List.find?_eq_none.mp hx p hmem (BEq.trans hxv heq)
      simp [interned, hne]

theorem fresh [ReflBEq α] (h : Recorded log kept n) (hn : 1 ≤ n) (value : α) :
    Recorded (log ++ [(.intern value, some n)]) (kept ++ [(value, n)]) (n + 1) := by
  have hnew : interned [(Call.intern value, some n)] = [(value, n)] := rfl
  refine ⟨?_, fun {q} hq => ?_, fun {x i} hx => ?_, fun x => ?_⟩
  · intro i
    rw [exists_answered_concat, h.answered_iff, Option.some.injEq]
    omega
  · rw [interned_append, hnew]
    rw [List.mem_append] at hq ⊢
    exact hq.imp_left h.mem_interned
  · rw [interned_append, hnew, List.mem_append] at hx
    rcases hx with hx | hx
    · obtain ⟨y, hy, hxy⟩ := h.exists_kept hx
      exact ⟨y, List.mem_append_left _ hy, hxy⟩
    · obtain ⟨rfl, rfl⟩ : x = value ∧ i = n := by simpa using hx
      exact ⟨x, by simp, BEq.rfl⟩
  · rw [interned_append, hnew, List.find?_append, List.find?_append, h.find?_eq]

end Recorded

variable [BucketKey α]

structure Accounts (t : UniqueTable α) (log : List (Call α × Option Nat))
    (kept : List (α × Nat)) : Prop where
  chained : t.Chained kept
  recorded : Recorded log kept t.values.size

namespace Accounts

theorem ofBits [Inhabited α] (bits : Nat) : (ofBits bits : UniqueTable α).Accounts [] [] where
  chained := {
    wellFormed := wellFormed_ofBits bits
    value_eq := fun hp => absurd hp List.not_mem_nil
    pos := fun hp => absurd hp List.not_mem_nil
    ascending := .nil
    links := fun b => by
      have hhead : (UniqueTable.ofBits bits : UniqueTable α).heads.getD b 0 = 0 :=
        getD_replicate_zero _ b
      rw [hhead]
      exact .done
    next_up := fun i => .inl (getD_replicate_zero 1 i) }
  recorded := {
    answered_iff := fun {i} => by
      have hsize : (UniqueTable.ofBits bits : UniqueTable α).values.size = 1 := rfl
      rw [hsize]
      exact ⟨fun ⟨_, hmem⟩ => absurd hmem List.not_mem_nil, fun hi => by omega⟩
    mem_interned := fun hp => absurd hp List.not_mem_nil
    exists_kept := fun hp => absurd hp List.not_mem_nil
    find?_eq := fun _ => rfl }

variable [EquivBEq α] [LawfulKey α]

/-- What one call does to the books. -/
theorem serve (h : t.Accounts log kept) (c : Call α) :
    ∃ kept', (t.serve c).2.Accounts (log ++ [(c, (t.serve c).1)]) kept' := by
  have hpos := h.chained.wellFormed.values_pos
  cases c with
  | append value =>
    by_cases hfree : t.values.size < t.capacity
    · have hserve : t.serve (.append value) = (some t.values.size, t.add value) := if_pos hfree
      rw [hserve]
      refine ⟨kept, h.chained.append hfree value, ?_⟩
      exact (Array.size_push value : (t.add value).values.size = _) ▸ h.recorded.appended hpos value
    · have hserve : t.serve (.append value) = (none, t) := if_neg hfree
      rw [hserve]
      exact ⟨kept, h.chained, h.recorded.refused _⟩
  | intern value =>
    have hserve : t.serve (.intern value) = t.intern value := rfl
    rw [hserve]
    cases hfind : kept.find? fun p => value == p.1 with
    | some p =>
      rw [h.chained.intern_of_find?_eq_some hfind]
      have hp := List.mem_of_find?_eq_some hfind
      exact ⟨kept, h.chained, h.recorded.found hfind (h.chained.pos hp) (h.chained.lt_size hp)⟩
    | none =>
      rcases h.chained.intern_of_find?_eq_none hfind with ⟨-, heq⟩ | ⟨-, t', heq, hvalues, ht'⟩
      · rw [heq]
        exact ⟨kept, h.chained, h.recorded.refused _⟩
      · rw [heq]
        refine ⟨_, ht', ?_⟩
        rw [hvalues, Array.size_push]
        exact h.recorded.fresh hpos value

theorem after (h : t.Accounts log kept) (calls : List (Call α)) :
    ∃ kept', (t.after calls).Accounts (log ++ t.log calls) kept' := by
  induction calls generalizing t log kept with
  | nil => exact ⟨kept, by rwa [UniqueTable.log, List.append_nil]⟩
  | cons c calls ih =>
    obtain ⟨_, hserve⟩ := h.serve c
    obtain ⟨kept', hafter⟩ := ih hserve
    rw [List.append_assoc] at hafter
    exact ⟨kept', hafter⟩

end Accounts

/-- The table holds what the log of all its calls says, and serves the next call accordingly. -/
structure Agrees (t : UniqueTable α) (log : List (Call α × Option Nat)) : Prop where
  size_lt : t.size + 1 ≤ t.capacity
  /-- The occupied cells are those that have been answered. -/
  answered_iff (i : Nat) : (∃ c, (c, some i) ∈ log) ↔ 1 ≤ i ∧ i ≤ t.size
  /-- A value that has been interned is found where it was put first, also in a full table. -/
  intern_again {value : α} {i : Nat} : firstInterned value log = some i →
    t.holds value i ∧ t.intern value = (some i, t)
  intern_new {value : α} : firstInterned value log = none → t.size + 1 < t.capacity →
    ∃ t', t.intern value = (some (t.size + 1), t') ∧ t'.values = t.values.push value
  intern_full {value : α} : firstInterned value log = none → t.size + 1 = t.capacity →
    t.intern value = (none, t)
  append_new {value : α} : t.size + 1 < t.capacity →
    t.append value = (some (t.size + 1), t.add value) ∧
      (t.add value).values = t.values.push value
  append_full {value : α} : t.size + 1 = t.capacity → t.append value = (none, t)
  /-- The chain of a bucket goes up, through the cells of its interned values. -/
  chain {b : Nat} (hb : b < t.heads.size) : ∃ chain, t.Links t.heads[b] chain ∧
    chain.Pairwise (· < ·) ∧
    ∀ i, i ∈ chain ↔ ∃ value, (.intern value, some i) ∈ log ∧ t.home value = b
  next_up (i : Nat) : t.next i = 0 ∨ i < t.next i ∧ t.next i ≤ t.size
  /-- A walk goes on until it finds an equal value or a link that is zero. -/
  walk_eq (value : α) {i : Nat} : i ≤ t.size → walk t.values t.nexts value i =
    if t.holds value i then .found i else if t.next i = 0 then .last i
    else walk t.values t.nexts value (t.next i)

namespace Accounts

theorem find?_eq_none (h : t.Accounts log kept) (hnone : firstInterned value log = none) :
    kept.find? (fun p => value == p.1) = none := by
  rwa [firstInterned, h.recorded.find?_eq, Option.map_eq_none_iff] at hnone

theorem agrees [EquivBEq α] [LawfulKey α] (h : t.Accounts log kept) : t.Agrees log := by
  have hsize := h.chained.wellFormed.size_values
  have hle := h.chained.wellFormed.values_le
  rw [hsize] at hle
  refine {
    size_lt := hle
    answered_iff := fun i => ?answered
    intern_again := fun {value i} hfirst => ?again
    intern_new := fun {value} hnone hfree => ?new
    intern_full := fun {value} hnone hfull => ?full
    append_new := fun {value} hfree => ?append_new
    append_full := fun {value} hfull => ?append_full
    chain := fun {b} hb => ⟨t.chainOf kept b, ?links, h.chained.ascending_chainOf b, ?mem⟩
    next_up := fun i => ?next_up
    walk_eq := fun value {i} hi => walk_eq_of_next_up (by omega) (h.chained.next_up i) value }
  case answered =>
    rw [h.recorded.answered_iff, hsize, Nat.lt_succ_iff]
  case again =>
    rw [firstInterned, h.recorded.find?_eq, Option.map_eq_some_iff] at hfirst
    obtain ⟨p, hp, rfl⟩ := hfirst
    refine ⟨?_, h.chained.intern_of_find?_eq_some hp⟩
    rw [holds, h.chained.value_eq (List.mem_of_find?_eq_some hp)]
    simpa using List.find?_some hp
  case new =>
    rcases h.chained.intern_of_find?_eq_none (h.find?_eq_none hnone) with
      ⟨hfull, -⟩ | ⟨-, t', heq, hvalues, -⟩
    · omega
    · exact ⟨t', hsize ▸ heq, hvalues⟩
  case full =>
    rcases h.chained.intern_of_find?_eq_none (h.find?_eq_none hnone) with
      ⟨-, heq⟩ | ⟨hfree, -⟩
    · exact heq
    · omega
  case append_new =>
    rw [append, hsize]
    exact ⟨if_pos hfree, rfl⟩
  case append_full =>
    rw [append, hsize]
    exact if_neg (by omega)
  case links =>
    have hlinks := h.chained.links b
    rwa [Array.getD_eq_getD_getElem?, Array.getElem?_eq_getElem hb] at hlinks
  case mem =>
    intro i
    rw [mem_chainOf_iff]
    constructor
    · rintro ⟨x, hx, hhome⟩
      exact ⟨x, mem_interned_iff.mp (h.recorded.mem_interned hx), hhome⟩
    · rintro ⟨x, hx, hhome⟩
      obtain ⟨y, hy, hxy⟩ := h.recorded.exists_kept (mem_interned_iff.mpr hx)
      refine ⟨y, hy, ?_⟩
      rw [← hhome, home, home, LawfulKey.word_eq hxy]
  case next_up =>
    have hlt := h.chained.wellFormed.next_lt i
    rw [hsize, ← next] at hlt
    exact (h.chained.next_up i).imp_right fun hup => ⟨hup, Nat.le_of_lt_succ hlt⟩

end Accounts

theorem serve_values (t : UniqueTable α) (c : Call α) : (t.serve c).2.capacity = t.capacity ∧
    ∀ i, i < t.values.size → (t.serve c).2.values[i]? = t.values[i]? := by
  have hserve : (t.serve c).2.capacity = t.capacity ∧
      ((t.serve c).2.values = t.values ∨ ∃ x, (t.serve c).2.values = t.values.push x) := by
    cases c with
    | intern value => exact (t.intern_values value).imp_right (Or.imp_right fun h => ⟨value, h⟩)
    | append value =>
      rw [serve, append]
      split
      · exact ⟨rfl, .inr ⟨value, rfl⟩⟩
      · exact ⟨rfl, .inl rfl⟩
  obtain ⟨hcapacity, hvalues | ⟨x, hvalues⟩⟩ := hserve
  · exact ⟨hcapacity, fun i _ => by rw [hvalues]⟩
  · refine ⟨hcapacity, fun i hi => ?_⟩
    rw [hvalues, Array.getElem?_push, if_neg (Nat.ne_of_lt hi)]

/-- Nothing that has been stored is ever changed. -/
theorem after_values (t : UniqueTable α) (calls : List (Call α)) :
    (t.after calls).capacity = t.capacity ∧
      ∀ i, i < t.values.size → (t.after calls).values[i]? = t.values[i]? := by
  induction calls generalizing t with
  | nil => exact ⟨rfl, fun _ _ => rfl⟩
  | cons c calls ih =>
    obtain ⟨hcapacity, hserve⟩ := t.serve_values c
    obtain ⟨hcapacity', hafter⟩ := ih (t.serve c).2
    refine ⟨hcapacity'.trans hcapacity, fun i hi => ?_⟩
    have hi' : i < (t.serve c).2.values.size := by
      obtain ⟨hlt, -⟩ := Array.getElem?_eq_some_iff.mp
        ((hserve i hi).trans (Array.getElem?_eq_getElem hi))
      exact hlt
    exact (hafter i hi').trans (hserve i hi)

theorem agrees_after_ofBits [EquivBEq α] [LawfulKey α] [Inhabited α] (bits : Nat)
    (calls : List (Call α)) :
    ((ofBits bits).after calls).Agrees ((ofBits bits).log calls) := by
  obtain ⟨_, h⟩ := (Accounts.ofBits bits).after calls
  exact h.agrees

/-- A value that is interned for the first time takes a new cell, and the log says so for ever. -/
theorem Agrees.first [EquivBEq α] (h : t.Agrees log) (hnone : firstInterned value log = none)
    (hsome : (t.intern value).1 = some i) (rest : List (Call α)) : i = t.size + 1 ∧
      firstInterned value (log ++ t.log (.intern value :: rest)) = some i := by
  have hsize : i = t.size + 1 := by
    rcases Nat.eq_or_lt_of_le h.size_lt with hfull | hfree
    · rw [h.intern_full hnone hfull] at hsome
      cases hsome
    · obtain ⟨_, heq, -⟩ := h.intern_new hnone hfree
      rw [heq] at hsome
      exact (Option.some.inj hsome).symm
  have hlog : log ++ t.log (.intern value :: rest) =
      (log ++ [(.intern value, some i)]) ++ (t.intern value).2.log rest := by
    rw [List.append_assoc, ← hsome]
    rfl
  refine ⟨hsize, ?_⟩
  rw [hlog]
  refine firstInterned_append _ ?_
  rw [firstInterned, Option.map_eq_none_iff] at hnone
  rw [firstInterned, interned_append, List.find?_append, hnone]
  simp [interned]

/-- A value that is appended takes a new cell and stays there. -/
theorem Accounts.appended [EquivBEq α] [LawfulKey α] {kept : List (α × Nat)}
    (h : t.Accounts log kept) (hsome : (t.append value).1 = some i) (rest : List (Call α)) :
    i = t.size + 1 ∧ (t.after (.append value :: rest)).values[i]? = some value := by
  rcases Nat.eq_or_lt_of_le h.agrees.size_lt with hfull | hfree
  · rw [h.agrees.append_full hfull] at hsome
    cases hsome
  · have hnew : t.append value = (some (t.size + 1), t.add value) ∧
        (t.add value).values = t.values.push value := h.agrees.append_new hfree
    obtain ⟨hanswer, hpush⟩ := hnew
    rw [hanswer] at hsome
    cases hsome
    have hserve : t.after (.append value :: rest) = (t.add value).after rest :=
      congrArg (fun p => p.2.after rest) hanswer
    have hsize : t.values.size = t.size + 1 := h.chained.wellFormed.size_values
    have hstored : (t.add value).values[t.size + 1]? = some value := by
      rw [hpush, ← hsize, Array.getElem?_push_size]
    refine ⟨rfl, ?_⟩
    rw [hserve, (after_values _ rest).2 _ ?_, hstored]
    rw [hpush, Array.size_push]
    omega

/-- However an empty table is called, it agrees with the log of the calls. A value that is interned
for the first time takes a new cell and is found there from then on, and one that is appended takes
a new cell and stays there. Later calls change neither what is stored nor where it is found. -/
theorem ofBits_agrees [EquivBEq α] [LawfulKey α] [Inhabited α] (bits : Nat)
    (calls : List (Call α)) :
    ((ofBits bits).after calls).capacity = 2 ^ bits ∧
    ((ofBits bits).after calls).Agrees ((ofBits bits).log calls) ∧
    (∀ before rest value i, calls = before ++ .intern value :: rest →
      firstInterned value ((ofBits bits).log before) = none →
      (((ofBits bits).after before).intern value).1 = some i →
      i = ((ofBits bits).after before).size + 1 ∧
        firstInterned value ((ofBits bits).log calls) = some i) ∧
    (∀ before rest value i, calls = before ++ .append value :: rest →
      (((ofBits bits).after before).append value).1 = some i →
      i = ((ofBits bits).after before).size + 1 ∧
        ((ofBits bits).after calls).values[i]? = some value) ∧
    ∀ more, (∀ i, i ≤ ((ofBits bits).after calls).size →
        ((ofBits bits).after (calls ++ more)).values[i]? =
          ((ofBits bits).after calls).values[i]?) ∧
      ∀ value i, firstInterned value ((ofBits bits).log calls) = some i →
        ((ofBits bits).after (calls ++ more)).intern value =
          (some i, (ofBits bits).after (calls ++ more)) := by
  refine ⟨?capacity, agrees_after_ofBits bits calls, ?first, ?appended,
    fun more => ⟨?stored, ?found⟩⟩
  case capacity =>
    rw [(after_values _ calls).1]
    exact Nat.one_shiftLeft bits
  case first =>
    rintro before rest value i rfl hnone hsome
    rw [log_append]
    exact (agrees_after_ofBits bits before).first hnone hsome rest
  case appended =>
    rintro before rest value i rfl hsome
    obtain ⟨_, h⟩ := (Accounts.ofBits bits).after before
    rw [after_append]
    exact h.appended hsome rest
  case stored =>
    intro i hi
    obtain ⟨_, h⟩ := (Accounts.ofBits bits).after calls
    have hsize := h.chained.wellFormed.size_values
    rw [after_append]
    exact (after_values _ more).2 i (by omega)
  case found =>
    intro value i hfirst
    refine ((agrees_after_ofBits bits (calls ++ more)).intern_again ?_).2
    rw [log_append]
    exact firstInterned_append _ hfirst

end Accounts

structure Item where
  value : Int
deriving DecidableEq, Inhabited

instance : BucketKey Item := ⟨fun a => a.value.natAbs.toUInt64⟩

def oppositeCalls : List (Call Item) :=
  [.intern ⟨5⟩, .append ⟨7⟩, .intern ⟨-5⟩, .intern ⟨9⟩]

theorem ofBits_agrees_opposites :
    (ofBits 2).log oppositeCalls = [(.intern ⟨5⟩, some 1), (.append ⟨7⟩, some 2),
      (.intern ⟨-5⟩, some 3), (.intern ⟨9⟩, none)] ∧
    ((ofBits 2).after oppositeCalls).Agrees ((ofBits 2).log oppositeCalls) ∧
    ((ofBits 2).after oppositeCalls).values[2]? = some ⟨7⟩ ∧
    ((ofBits 2).after (oppositeCalls ++ oppositeCalls)).intern ⟨-5⟩ =
      (some 3, (ofBits 2).after (oppositeCalls ++ oppositeCalls)) := by
  have hlog : (ofBits 2).log oppositeCalls = [(.intern ⟨5⟩, some 1), (.append ⟨7⟩, some 2),
      (.intern ⟨-5⟩, some 3), (.intern ⟨9⟩, none)] := by
    cbv
  obtain ⟨-, hagrees, hfirst, happended, hlater⟩ := ofBits_agrees 2 oppositeCalls
  have hsecond := happended [.intern ⟨5⟩] [.intern ⟨-5⟩, .intern ⟨9⟩] ⟨7⟩ 2 rfl (by cbv)
  have hthird := hfirst [.intern ⟨5⟩, .append ⟨7⟩] [.intern ⟨9⟩] ⟨-5⟩ 3 rfl (by cbv) (by cbv)
  exact ⟨hlog, hagrees, hsecond.2, (hlater oppositeCalls).2 _ _ hthird.2⟩

end UniqueTable

end AndInverter
