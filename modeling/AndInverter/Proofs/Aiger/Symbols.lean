import AndInverter.Proofs.Aiger.Reading
import Mathlib.Data.List.TakeDrop
import Mathlib.Data.List.TakeWhile

/-!
# Reading symbols

The lines of the symbol table are read exactly if each names an input or output that exists, and the
graph then has their names, one after the other.
-/

namespace AndInverter.Aiger

theorem IsNumeral.ne_space {w : List Char} {n : Nat} (h : IsNumeral w n) : ∀ c ∈ w, c ≠ ' ' := by
  obtain ⟨ds, hw, -, hdigits, -⟩ := h
  have hds : ∀ c ∈ ds, c ≠ ' ' := by
    rintro _ hc rfl
    exact absurd (hdigits _ hc) (by decide)
  rcases hw with rfl | rfl
  · exact hds
  · exact List.forall_mem_cons.mpr ⟨by decide, hds⟩

theorem span_ne_space {cs name w : List Char} (hw : ∀ c ∈ w, c ≠ ' ') :
    cs.span (· != ' ') = (w, ' ' :: name) ↔ cs = w ++ ' ' :: name := by
  rw [List.span_eq_takeWhile_dropWhile, Prod.mk.injEq]
  constructor
  · rintro ⟨htake, hdrop⟩
    rw [← htake, ← hdrop, List.takeWhile_append_dropWhile]
  · rintro rfl
    have hall : ∀ c ∈ w, (c != ' ') = true := fun c hc => bne_iff_ne.mpr (hw c hc)
    rw [List.takeWhile_append_of_pos hall, List.dropWhile_append_of_pos hall]
    simp

namespace Symbol

variable {kind : Kind} {s : Symbol} {cs : List Char} {l : Line} {ls : List Line} {g g' : Graph}

theorem ofParts?_eq_some_iff : ofParts? kind cs = some s ↔
    s.kind = kind ∧ ∃ w, cs = w ++ ' ' :: s.name ∧ IsNumeral w s.position := by
  rw [ofParts?]
  constructor
  · intro h
    split at h
    · cases h
    · rename_i w c name hspan
      obtain ⟨p, hp, rfl⟩ := Option.map_eq_some_iff.mp h
      have hw := number?_eq_some_iff.mp hp
      refine ⟨rfl, w, ?_, hw⟩
      rw [List.span_eq_takeWhile_dropWhile, Prod.mk.injEq] at hspan
      have hne : cs.dropWhile (· != ' ') ≠ [] := by simp [hspan.2]
      have hc := List.head_dropWhile_not (· != ' ') hne
      simp only [hspan.2, List.head_cons, bne_eq_false_iff_eq] at hc
      rw [← hc, ← hspan.1, ← hspan.2, List.takeWhile_append_dropWhile]
  · rintro ⟨rfl, w, hcs, hw⟩
    rw [(span_ne_space hw.ne_space).mpr hcs]
    simp only [number?_eq_some_iff.mpr hw, Option.map_some]

theorem names_iff_ofParts? (kind : Kind) (h : l.text = kind.letter :: cs) :
    l.Names s ↔ ofParts? kind cs = some s := by
  have hletter : kind.letter = s.kind.letter ↔ s.kind = kind := by
    cases kind <;> cases s.kind <;> decide
  simp only [ofParts?_eq_some_iff, Line.Names, h, List.cons.injEq, hletter, and_assoc,
    exists_and_left]

theorem ofLine_eq_ok_iff : ofLine l = .ok s ↔ l.Names s := by
  dsimp only [ofLine]
  split
  · rename_i cs htext
    rw [names_iff_ofParts? .input htext]
    cases ofParts? .input cs <;> simp
  · rename_i cs htext
    rw [names_iff_ofParts? .output htext]
    cases ofParts? .output cs <;> simp
  · rename_i hinput houtput
    refine ⟨fun h => (by cases h), ?_⟩
    rintro ⟨w, htext, -⟩
    cases hkind : s.kind with
    | input => exact (hinput _ (by rw [htext, hkind]; rfl)).elim
    | output => exact (houtput _ (by rw [htext, hkind]; rfl)).elim

def names (g : Graph) : Kind → Array String
  | .input => g.inputNames
  | .output => g.outputNames

def rename (g : Graph) (s : Symbol) : Graph :=
  match s.kind with
  | .input => { g with
      inputNames := g.inputNames.setIfInBounds s.position (String.ofList s.name) }
  | .output => { g with
      outputNames := g.outputNames.setIfInBounds s.position (String.ofList s.name) }

theorem apply_eq_ok_iff : s.apply g = .ok g' ↔
    s.position < (names g s.kind).size ∧ g' = rename g s := by
  rw [apply, rename]
  cases s.kind with
  | input =>
    dsimp only [Graph.renameInput, names]
    split
    · rename_i h
      exact ⟨fun heq => ⟨h, (Except.ok.inj heq).symm⟩, fun heq => congrArg Except.ok heq.2.symm⟩
    · rename_i h
      exact ⟨fun heq => (by cases heq), fun heq => absurd heq.1 h⟩
  | output =>
    dsimp only [Graph.renameOutput, names]
    split
    · rename_i h
      exact ⟨fun heq => ⟨h, (Except.ok.inj heq).symm⟩, fun heq => congrArg Except.ok heq.2.symm⟩
    · rename_i h
      exact ⟨fun heq => (by cases heq), fun heq => absurd heq.1 h⟩

/-- Symbols change nothing but names. -/
theorem exists_foldl_rename_eq (g : Graph) (ss : List Symbol) : ∃ inputNames outputNames,
    ss.foldl rename g = { g with inputNames, outputNames } := by
  induction ss generalizing g with
  | nil => exact ⟨g.inputNames, g.outputNames, rfl⟩
  | cons s ss ih =>
    obtain ⟨inputNames, outputNames, heq⟩ := ih (rename g s)
    refine ⟨inputNames, outputNames, ?_⟩
    rw [List.foldl_cons, heq, rename]
    cases s.kind <;> rfl

theorem getElem?_names_rename (g : Graph) (s : Symbol) (kind : Kind) (i : Nat) :
    (names (rename g s) kind)[i]? = (names g kind)[i]?.map fun name =>
      if s.kind = kind ∧ s.position = i then String.ofList s.name else name := by
  have hset (ns : Array String) (name : String) : (ns.setIfInBounds s.position name)[i]? =
      ns[i]?.map fun old => if s.position = i then name else old := by
    rw [Array.getElem?_setIfInBounds]
    by_cases h : s.position = i
    · subst h
      cases hi : ns[s.position]? with
      | none => simpa using hi
      | some old => simp [(Array.getElem?_eq_some_iff.mp hi).1]
    · simp [h]
  rw [rename]
  cases hs : s.kind <;> cases kind <;> simp [names, hset]

theorem size_names_rename (g : Graph) (s : Symbol) (kind : Kind) :
    (names (rename g s) kind).size = (names g kind).size := by
  rw [rename]
  cases s.kind <;> cases kind <;> simp [names]

def lastName? (ss : List Symbol) (kind : Kind) (i : Nat) : Option String :=
  (ss.filter fun s => s.kind = kind ∧ s.position = i).getLast?.map fun s => String.ofList s.name

theorem getElem?_names_foldl_rename (g : Graph) (ss : List Symbol) (kind : Kind) (i : Nat) :
    (names (ss.foldl rename g) kind)[i]? =
      (names g kind)[i]?.map fun name => (lastName? ss kind i).getD name := by
  induction ss generalizing g with
  | nil => simp [lastName?]
  | cons s ss ih =>
    rw [List.foldl_cons, ih, getElem?_names_rename, Option.map_map]
    congr 1
    funext name
    by_cases hs : s.kind = kind ∧ s.position = i
    · rw [Function.comp_apply, if_pos hs, lastName?, lastName?,
        List.filter_cons_of_pos (by simpa using hs), List.getLast?_cons]
      cases (ss.filter fun s => s.kind = kind ∧ s.position = i).getLast? <;> rfl
    · rw [Function.comp_apply, if_neg hs, lastName?, lastName?,
        List.filter_cons_of_neg (by simpa using hs)]

theorem applyLines_eq_ok_iff : applyLines g ls = .ok g' ↔
    ∃ ss, List.Forall₂ Line.Names (symbolLines ls) ss ∧
      (∀ s ∈ ss, s.position < (names g s.kind).size) ∧ g' = ss.foldl rename g := by
  induction ls generalizing g with
  | nil =>
    constructor
    · intro h
      cases h
      exact ⟨[], .nil, by simp, rfl⟩
    · rintro ⟨ss, hss, -, rfl⟩
      cases hss
      rfl
  | cons l ls ih =>
    rw [applyLines]
    by_cases hempty : l.text = []
    · have hlines : symbolLines (l :: ls) = symbolLines ls := by
        simp [symbolLines, hempty]
      rw [if_pos (List.isEmpty_iff.mpr hempty), hlines, ih]
    · rw [if_neg (by simpa using hempty)]
      by_cases hcomment : l.text = ['c']
      · have hlines : symbolLines (l :: ls) = [] := by
          simp [symbolLines, hcomment]
        rw [if_pos hcomment, hlines]
        constructor
        · intro h
          cases h
          exact ⟨[], .nil, by simp, rfl⟩
        · rintro ⟨ss, hss, -, rfl⟩
          cases hss
          rfl
      · have hlines : symbolLines (l :: ls) = l :: symbolLines ls := by
          simp [symbolLines, hcomment, hempty]
        rw [if_neg hcomment, hlines]
        simp only [Except.bind_eq_ok_iff, ofLine_eq_ok_iff]
        constructor
        · rintro ⟨s, hs, h⟩
          split at h
          · rename_i happly
            obtain ⟨hlt, rfl⟩ := apply_eq_ok_iff.mp happly
            obtain ⟨ss, hss, hpos, rfl⟩ := ih.mp h
            simp only [size_names_rename] at hpos
            exact ⟨s :: ss, .cons hs hss, List.forall_mem_cons.mpr ⟨hlt, hpos⟩, rfl⟩
          · cases h
        · rintro ⟨_, hss, hpos, rfl⟩
          obtain ⟨s, ss, hs, hrest, rfl⟩ := List.forall₂_cons_left_iff.mp hss
          obtain ⟨hlt, hpos⟩ := List.forall_mem_cons.mp hpos
          refine ⟨s, hs, ?_⟩
          rw [apply_eq_ok_iff.mpr ⟨hlt, rfl⟩]
          refine ih.mpr ⟨ss, hrest, ?_, rfl⟩
          simpa only [size_names_rename] using hpos

end Symbol

end AndInverter.Aiger
