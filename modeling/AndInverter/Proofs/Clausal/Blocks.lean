import AndInverter.Proofs.Clausal.Formula
import AndInverter.Proofs.Clausal.Models

/-!
# Copies of an encoding in one formula

Each copy of an encoding gets a block of fresh variables of its own. The blocks follow one another
without gaps, above all earlier variables, and the clauses of a copy stay within its block. So the
copies do not interfere: an assignment satisfies all of them exactly if its part on each block
satisfies the clauses of the encoding.
-/

namespace AndInverter.Clausal

variable {f f' : Formula} {b b' : Block} {bs : List Block} {m : Nat → Bool} {n : Nat}

namespace Formula

def freshVars (f : Formula) : Nat → List Nat × Formula
  | 0 => ([], f)
  | n + 1 => (f.freshVar.1 :: (freshVars f.freshVar.2 n).1, (freshVars f.freshVar.2 n).2)

def allocate (f : Formula) (count : Nat) : Block × Formula :=
  (⟨(f.freshVars count).1.head?.getD 0, count⟩, (f.freshVars count).2)

def extend (f : Formula) (n : Nat) (cs : List Clause) : Formula :=
  ⟨f.numVars + n, f.clauses ++ cs.toArray⟩

theorem extend_extend (f : Formula) (n k : Nat) (cs ds : List Clause) :
    (f.extend n cs).extend k ds = f.extend (n + k) (cs ++ ds) := by
  simp only [extend, Nat.add_assoc, Array.append_assoc, List.append_toArray]

theorem extend_zero_nil (f : Formula) : f.extend 0 [] = f := by simp [extend]

theorem eval_extend (m : Nat → Bool) (f : Formula) (n : Nat) (cs : List Clause) :
    (f.extend n cs).eval m = true ↔ f.eval m = true ∧ Satisfies m cs := by
  simp [extend, eval, Satisfies]

theorem freshVars_eq (f : Formula) (n : Nat) :
    f.freshVars n = (List.range' f.numVars n, f.extend n []) := by
  induction n generalizing f with
  | zero => rw [extend_zero_nil, freshVars, List.range'_zero]
  | succ n ih =>
    rw [freshVars, ih, List.range'_succ]
    simp [freshVar, extend, Nat.add_assoc, Nat.add_comm 1]

theorem fresh_snd (f : Formula) (n : Nat) : (Block.fresh f n).2 = f.extend n [] := by
  simp [Block.fresh, extend]

theorem allocate_eq (f : Formula) (n : Nat) : f.allocate n = Block.fresh f n := by
  rw [allocate, freshVars_eq, ← fresh_snd, Block.fresh]
  cases n with
  | zero => rfl
  | succ n => rfl

end Formula

namespace Block

def row (b : Block) : Nat → List Block
  | 0 => []
  | n + 1 => b :: b.adjacent.row n

def freshRow (count : Nat) (f : Formula) : Nat → List Block × Formula
  | 0 => ([], f)
  | n + 1 => ((fresh f count).1 :: (freshRow count (fresh f count).2 n).1,
      (freshRow count (fresh f count).2 n).2)

theorem length_row (b : Block) (n : Nat) : (b.row n).length = n := by
  induction n generalizing b with
  | zero => rfl
  | succ n ih => rw [row, List.length_cons, ih]

/-- A block without variables is followed by itself. -/
theorem row_eq_replicate (base n : Nat) :
    (⟨base, 0⟩ : Block).row n = List.replicate n ⟨base, 0⟩ := by
  induction n with
  | zero => rfl
  | succ n ih => exact congrArg (List.cons _) ih

theorem isChain_row (b : Block) (n : Nat) :
    (b.row n).IsChain fun b b' => b' = b.adjacent := by
  induction n generalizing b with
  | zero => exact .nil
  | succ n ih =>
    cases n with
    | zero => exact .singleton b
    | succ n => exact .cons_cons rfl (ih b.adjacent)

theorem mem_row (h : b' ∈ b.row n) :
    b'.count = b.count ∧ b.base ≤ b'.base ∧ b'.base + b.count ≤ b.base + n * b.count := by
  induction n generalizing b with
  | zero => cases h
  | succ n ih =>
    rw [Nat.succ_mul]
    rcases List.mem_cons.mp h with rfl | h
    · exact ⟨rfl, Nat.le_refl _, by omega⟩
    · obtain ⟨hcount, hbase, hend⟩ := ih h
      simp only [adjacent] at hcount hbase hend
      exact ⟨hcount, by omega, by omega⟩

theorem pairwise_row (b : Block) (n : Nat) :
    (b.row n).Pairwise fun b b' => b.base + b.count ≤ b'.base := by
  induction n generalizing b with
  | zero => exact .nil
  | succ n ih => exact List.pairwise_cons.mpr ⟨fun b' hb' => (mem_row hb').2.1, ih b.adjacent⟩

/-- The next fresh block of the same size follows, also if it has no variables. -/
theorem fresh_adjacent (h : f'.numVars = f.numVars + n) :
    (fresh f' n).1 = (fresh f n).1.adjacent := by
  rw [fresh, fresh, h, adjacent]
  split
  · rename_i hn
    rw [hn]
    rfl
  · rfl

theorem count_fresh (f : Formula) (n : Nat) : (fresh f n).1.count = n := rfl

theorem fresh_end_le (f : Formula) (n : Nat) :
    (fresh f n).1.base + (fresh f n).1.count ≤ f.numVars + n := by
  rw [fresh]
  split
  · exact Nat.add_le_add_right (Nat.zero_le _) n
  · exact Nat.le_refl _

theorem freshRow_eq (count : Nat) (f : Formula) (n : Nat) :
    freshRow count f n = ((fresh f count).1.row n, f.extend (n * count) []) := by
  induction n generalizing f with
  | zero => rw [freshRow, row, Nat.zero_mul, Formula.extend_zero_nil]
  | succ n ih =>
    have hadjacent : (fresh (f.extend count []) count).1 = (fresh f count).1.adjacent :=
      fresh_adjacent rfl
    rw [freshRow, Formula.fresh_snd, ih, hadjacent, Formula.extend_extend, Nat.add_comm count,
      ← Nat.succ_mul]
    rfl

end Block

namespace Encoding

variable {c : Encoding}

/-- The clauses mention the variables of the encoding only, and there are none without variables. -/
structure SelfContained (c : Encoding) : Prop where
  lt_numVars {cl : Clause} {l : Literal} : cl ∈ c.clauses → l ∈ cl → l.var < c.numVars
  clauses_eq_nil : c.numVars = 0 → c.clauses = []

def clausesAt (c : Encoding) (b : Block) : List Clause :=
  c.clauses.map (List.map (Literal.shift b.base))

def copies (c : Encoding) (f : Formula) : Nat → Except Fault (List Block × Formula)
  | 0 => .ok ([], f)
  | n + 1 => do
    let f₁ ← c.addTo (Block.fresh f c.numVars).2 (Block.fresh f c.numVars).1
    let r ← c.copies f₁ n
    return ((Block.fresh f c.numVars).1 :: r.1, r.2)

def copiesAtOnce (c : Encoding) (f : Formula) (n : Nat) : Except Fault (List Block × Formula) := do
  let r := Block.freshRow c.numVars f n
  return (r.1, ← r.1.foldlM c.addTo r.2)

/-- Blocks above a formula, each with a copy of an encoding. -/
structure Apart (c : Encoding) (f : Formula) (bs : List Block) (f' : Formula) : Prop where
  count_eq {b : Block} : b ∈ bs → b.count = c.numVars
  above {b : Block} : b ∈ bs → f.numVars ≤ b.base
  within {b : Block} : b ∈ bs → b.base + b.count ≤ f'.numVars
  disjoint : bs.Pairwise fun b b' => b.base + b.count ≤ b'.base
  numVars_eq : f'.numVars = f.numVars + bs.length * c.numVars
  eval_iff (m : Nat → Bool) : f'.eval m = true ↔
    f.eval m = true ∧ ∀ b ∈ bs, Satisfies (fun v => m (b.base + v)) c.clauses

theorem clauses_addCopies (b : Block) (f : Formula) (cs : List Clause) :
    (addCopies b f cs).clauses =
      f.clauses ++ (cs.map (List.map (Literal.shift b.base))).toArray := by
  induction cs generalizing f with
  | nil => simp [addCopies]
  | cons c cs ih =>
    change (addCopies b (f.addClause (c.map (Literal.shift b.base))) cs).clauses = _
    rw [ih, Formula.addClause]
    simp

theorem SelfContained.addTo_eq (hc : c.SelfContained) (hb : b.count = c.numVars)
    (hf : b.base + b.count ≤ f.numVars) : c.addTo f b = .ok (f.extend 0 (c.clausesAt b)) := by
  have hlt : ∀ cl ∈ c.clauses, ∀ l ∈ cl, l.var < c.numVars := fun _ hcl _ hl => hc.lt_numVars hcl hl
  have hnum : (addCopies b f c.clauses).numVars = f.numVars := numVars_addCopies hf (hb ▸ hlt)
  have hclauses : (addCopies b f c.clauses).clauses = f.clauses ++ (c.clausesAt b).toArray :=
    clauses_addCopies b f c.clauses
  rw [addTo_eq_ok hb hlt, Formula.extend, Nat.add_zero, ← hnum, ← hclauses]

theorem SelfContained.foldlM_addTo_eq (hc : c.SelfContained)
    (hcount : ∀ b ∈ bs, b.count = c.numVars) (hf : ∀ b ∈ bs, b.base + b.count ≤ f.numVars) :
    bs.foldlM c.addTo f = .ok (f.extend 0 (bs.flatMap c.clausesAt)) := by
  induction bs generalizing f with
  | nil => exact congrArg Except.ok f.extend_zero_nil.symm
  | cons b bs ih =>
    obtain ⟨hb, hcount⟩ := List.forall_mem_cons.mp hcount
    obtain ⟨hend, hf⟩ := List.forall_mem_cons.mp hf
    rw [List.foldlM_cons, hc.addTo_eq hb hend, Except.ok_bind,
      ih (f := f.extend 0 (c.clausesAt b)) hcount hf, Formula.extend_extend, List.flatMap_cons]

/-- The blocks are in a row, and the formula has their variables and clauses in addition. -/
theorem SelfContained.copies_eq (hc : c.SelfContained) (f : Formula) (n : Nat) :
    c.copies f n = .ok ((Block.fresh f c.numVars).1.row n,
      f.extend (n * c.numVars) (((Block.fresh f c.numVars).1.row n).flatMap c.clausesAt)) := by
  induction n generalizing f with
  | zero => rw [copies, Block.row, List.flatMap_nil, Nat.zero_mul, Formula.extend_zero_nil]
  | succ n ih =>
    have hfirst : c.addTo (Block.fresh f c.numVars).2 (Block.fresh f c.numVars).1 =
        .ok (f.extend c.numVars (c.clausesAt (Block.fresh f c.numVars).1)) := by
      rw [hc.addTo_eq rfl (Block.fresh_end_le f c.numVars), Formula.fresh_snd,
        Formula.extend_extend]
      rfl
    have hadjacent : (Block.fresh (f.extend c.numVars
        (c.clausesAt (Block.fresh f c.numVars).1)) c.numVars).1 =
        (Block.fresh f c.numVars).1.adjacent := Block.fresh_adjacent rfl
    rw [copies, hfirst, Except.ok_bind, ih, hadjacent, Except.ok_bind, Formula.extend_extend,
      Nat.add_comm c.numVars, ← Nat.succ_mul]
    rfl

theorem SelfContained.copiesAtOnce_eq (hc : c.SelfContained) (f : Formula) (n : Nat) :
    c.copiesAtOnce f n = c.copies f n := by
  have hend {b : Block} (hb : b ∈ (Block.fresh f c.numVars).1.row n) :
      b.base + b.count ≤ f.numVars + n * c.numVars := by
    obtain ⟨hcount, -, hend⟩ := Block.mem_row hb
    have hbase := Block.fresh_end_le f c.numVars
    rw [Block.count_fresh] at hcount hend hbase
    omega
  rw [hc.copies_eq, copiesAtOnce, Block.freshRow_eq,
    hc.foldlM_addTo_eq (fun b hb => (Block.mem_row hb).1) fun b hb => hend hb,
    Except.ok_bind, Formula.extend_extend]
  rfl

theorem satisfies_clausesAt (c : Encoding) (b : Block) (m : Nat → Bool) :
    Satisfies m (c.clausesAt b) ↔ Satisfies (fun v => m (b.base + v)) c.clauses := by
  rw [Satisfies, clausesAt, List.forall_mem_map]
  simp only [Clause.eval_map_shift]
  rfl

theorem satisfies_flatMap {cls : Block → List Clause} :
    Satisfies m (bs.flatMap cls) ↔ ∀ b ∈ bs, Satisfies m (cls b) := by
  simp only [Satisfies, List.mem_flatMap]
  constructor
  · intro h b hb cl hcl
    exact h cl ⟨b, hb, hcl⟩
  · rintro h cl ⟨b, hb, hcl⟩
    exact h b hb cl hcl

theorem apart_row (hpos : 0 < c.numVars) (f : Formula) (n : Nat) :
    c.Apart f ((Block.fresh f c.numVars).1.row n)
      (f.extend (n * c.numVars) (((Block.fresh f c.numVars).1.row n).flatMap c.clausesAt)) := by
  have hfirst : (Block.fresh f c.numVars).1 = ⟨f.numVars, c.numVars⟩ := by
    rw [Block.fresh, if_neg (Nat.ne_of_gt hpos)]
  rw [hfirst]
  refine ⟨fun hb => (Block.mem_row hb).1, fun hb => (Block.mem_row hb).2.1, fun hb => ?_,
    Block.pairwise_row _ n, ?_, fun m => ?_⟩
  · rw [(Block.mem_row hb).1]
    exact (Block.mem_row hb).2.2
  · rw [Block.length_row]
    rfl
  · rw [Formula.eval_extend, satisfies_flatMap]
    simp only [satisfies_clausesAt]

/-- Without variables there is nothing to add, and the blocks are all the same. -/
theorem SelfContained.copies_eq_of_zero (hc : c.SelfContained) (hzero : c.numVars = 0)
    (f : Formula) (n : Nat) : c.copies f n = .ok (List.replicate n ⟨0, 0⟩, f) := by
  have hnone : (List.replicate n ⟨0, 0⟩).flatMap c.clausesAt = [] := by
    refine List.flatMap_eq_nil_iff.mpr fun b _ => ?_
    rw [clausesAt, hc.clauses_eq_nil hzero, List.map_nil]
  have hfirst : (Block.fresh f c.numVars).1 = ⟨0, 0⟩ := by
    rw [Block.fresh, hzero]
    rfl
  rw [hc.copies_eq, hfirst, hzero, Block.row_eq_replicate, hnone, Nat.mul_zero,
    Formula.extend_zero_nil]

/-- The clauses for an output of a graph mention the variables of its encoding only. -/
theorem exists_selfContained {g : Graph} {output : Nat} (hg : g.WellFormed)
    (hout : output < g.numOutputs) : ∃ c, ofOutput g output = .ok c ∧ c.SelfContained := by
  obtain ⟨id, e, -, hn, hd⟩ := Graph.driver_eq_ok hg hout
  by_cases he : e.isConstant = true
  · exact ⟨_, ofOutput_eq_ok_of_constant hd he, fun h => absurd h List.not_mem_nil, fun _ => rfl⟩
  · have hdrives := hg.drives_fanin hn (List.mem_singleton_self e)
    obtain ⟨c, cone, hc, -, hspec, hrep, -⟩ := ofOutput_eq_ok hg hd hdrives (by simpa using he)
    refine ⟨c, hc, hrep.lt_numVars, fun hzero => ?_⟩
    rw [hrep.numVars_eq, List.length_eq_zero_iff] at hzero
    exact absurd (hzero ▸ hspec.root_mem) List.not_mem_nil

/-- Copies of an encoding do not interfere.

A fresh block consists of consecutive fresh variables, and the next one of its size is right after
it. The encoding of an output mentions only variables that it has. For such an encoding the copies
can be added one after the other, or when all their blocks are there, which gives the same blocks
and the same formula. Each block is right after the one before. If the encoding has variables, the
blocks are disjoint and above all earlier variables, and an assignment satisfies what has been added
exactly if its part on each block satisfies the clauses of the encoding. If it has no variables,
nothing is added. -/
theorem copies_apart :
    (∀ (f : Formula) (n : Nat), f.allocate n = Block.fresh f n ∧
      (f.freshVars n).1 = List.range' f.numVars n ∧
      (Block.fresh (Block.fresh f n).2 n).1 = (Block.fresh f n).1.adjacent) ∧
    (∀ (g : Graph) (output : Nat), g.Built → output < g.numOutputs →
      ∃ c, ofOutput g output = .ok c ∧ c.SelfContained) ∧
    ∀ (c : Encoding) (f : Formula) (n : Nat), c.SelfContained → ∃ bs f',
      c.copies f n = .ok (bs, f') ∧ c.copiesAtOnce f n = .ok (bs, f') ∧ bs.length = n ∧
      bs.IsChain (fun b b' => b' = b.adjacent) ∧
      (0 < c.numVars → c.Apart f bs f') ∧
      (c.numVars = 0 → f' = f ∧ ∀ b ∈ bs, b = ⟨0, 0⟩) := by
  refine ⟨fun f n => ⟨f.allocate_eq n, by rw [Formula.freshVars_eq], Block.fresh_adjacent rfl⟩,
    fun g output hg hout => exists_selfContained hg.wellFormed hout, fun c f n hc => ?_⟩
  refine ⟨_, _, hc.copies_eq f n, (hc.copiesAtOnce_eq f n).trans (hc.copies_eq f n),
    Block.length_row _ n, Block.isChain_row _ n, fun hpos => apart_row hpos f n, fun hzero => ?_⟩
  obtain ⟨hbs, hf'⟩ := Prod.mk.inj
    (Except.ok.inj ((hc.copies_eq f n).symm.trans (hc.copies_eq_of_zero hzero f n)))
  refine ⟨hf', fun b hb => ?_⟩
  rw [hbs] at hb
  exact List.eq_of_mem_replicate hb

/-- Three copies of an encoding with eight variables, above two others. -/
theorem copies_apart_redundant : Graph.redundant.Built ∧ 0 < Graph.redundant.numOutputs ∧
    ∃ c, ofOutput Graph.redundant 0 = .ok c ∧ c.SelfContained ∧ c.numVars = 8 ∧
      ∃ bs f', c.copies ⟨2, #[]⟩ 3 = .ok (bs, f') ∧ c.Apart ⟨2, #[]⟩ bs f' ∧ f'.numVars = 26 := by
  have hout : 0 < Graph.redundant.numOutputs := by decide
  obtain ⟨-, hencoding, hcopies⟩ := copies_apart
  obtain ⟨c, hc, hself⟩ := hencoding Graph.redundant 0 Graph.redundant_built hout
  have hnum : c.numVars = 8 := by
    have hwf := Graph.redundant_built.wellFormed
    have hcone : (Graph.redundant.cone 8).toOption.map (·.nodes.length) = some 8 := by
      decide +kernel
    obtain ⟨c', cone, hc', hcone', -, hrep, -⟩ :=
      ofOutput_eq_ok hwf (e := ⟨8, true⟩) (i := 0) rfl ⟨_, rfl, rfl⟩ rfl
    cases hc.symm.trans hc'
    rw [hcone'] at hcone
    exact hrep.numVars_eq.trans (Option.some.inj hcone)
  obtain ⟨bs, f', hok, -, hlength, -, hapart, -⟩ := hcopies c ⟨2, #[]⟩ 3 hself
  have hapart := hapart (by omega)
  refine ⟨Graph.redundant_built, hout, c, hc, hself, hnum, bs, f', hok, hapart, ?_⟩
  rw [hapart.numVars_eq, hlength, hnum]

end Encoding

end AndInverter.Clausal
