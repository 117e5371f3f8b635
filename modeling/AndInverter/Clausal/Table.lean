/-!
# Paged tables

Tables of which a search keeps many versions that differ in a few entries. The entries lie in pages,
and versions share the pages in which they agree.
-/

namespace AndInverter.Clausal

structure Table (α : Type) where
  pages : Array (Array α)

namespace Table

variable {α : Type}

def pageSize : Nat := 32

def replicate (n : Nat) (a : α) : Table α :=
  ⟨.replicate (n / pageSize + 1) (.replicate pageSize a)⟩

@[inline] def get? (t : Table α) (i : Nat) : Option α :=
  match t.pages[i / pageSize]? with
  | some page => page[i % pageSize]?
  | none => none

/-- Replaces an entry. An index out of range changes nothing. -/
def set (t : Table α) (i : Nat) (a : α) : Table α :=
  ⟨t.pages.modify (i / pageSize) (·.setIfInBounds (i % pageSize) a)⟩

def countP (p : α → Bool) (t : Table α) : Nat :=
  t.pages.toList.foldr (fun page n => page.countP p + n) 0

theorem foldr_modify_lt {β : Type} {l : List β} {f : β → Nat} {g : β → β} {i : Nat} {b : β}
    (h : l[i]? = some b) (hb : f (g b) < f b) :
    (l.modify i g).foldr (fun c n => f c + n) 0 < l.foldr (fun c n => f c + n) 0 := by
  induction l generalizing i with
  | nil => cases h
  | cons c l ih =>
    cases i with
    | zero =>
      cases h
      exact Nat.add_lt_add_right hb _
    | succ i => exact Nat.add_lt_add_left (ih h) _

theorem countP_set_lt {p : α → Bool} {t : Table α} {i : Nat} {a b : α} (h : t.get? i = some a)
    (ha : p a = true) (hb : p b = false) : (t.set i b).countP p < t.countP p := by
  simp only [get?] at h
  split at h
  · rename_i page hpage
    obtain ⟨hi, he⟩ := Array.getElem?_eq_some_iff.mp h
    have hpos : 0 < page.countP p :=
      Array.countP_pos_iff.mpr ⟨_, Array.getElem_mem hi, by rw [he, ha]⟩
    simp only [countP, set, Array.toList_modify]
    refine foldr_modify_lt (b := page) (by simpa using hpage) ?_
    simp only [Array.setIfInBounds, hi, dite_true, Array.countP_set, he, ha, hb, if_true]
    simp only [Bool.false_eq_true, if_false]
    omega
  · cases h

end Table

end AndInverter.Clausal
