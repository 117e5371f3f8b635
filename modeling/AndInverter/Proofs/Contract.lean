import Mathlib.Data.List.Forall2
import Std.Data.HashMap

/-!
# Contracts of operations on a state

An operation that can fail answers with a result or an error, and leaves a state in either case. A
contract says what holds of both. Contracts compose along sequences and loops.
-/

namespace AndInverter

variable {ε σ α β : Type}

theorem Except.ok_bind (a : α) (k : α → Except ε β) : (Except.ok a >>= k) = k a := rfl

theorem Except.mapError_ok {ε' : Type} (f : ε → ε') (a : α) :
    (Except.ok a).mapError f = .ok a := rfl

theorem Except.bind_eq_ok_iff {x : Except ε α} {k : α → Except ε β} {b : β} :
    (x >>= k) = .ok b ↔ ∃ a, x = .ok a ∧ k a = .ok b := by
  cases x with
  | ok a => simp [bind, Except.bind]
  | error e => simp [bind, Except.bind]

theorem Except.pure_eq_ok_iff {a b : α} : (pure a : Except ε α) = .ok b ↔ b = a :=
  ⟨fun h => (Except.ok.inj h).symm, fun h => congrArg Except.ok h.symm⟩

theorem Except.eq_ok_of_toOption {x : Except ε α} {a : α} (h : x.toOption = some a) :
    x = .ok a := by
  cases x with
  | ok b => exact congrArg Except.ok (Option.some.inj h)
  | error e => cases h

theorem Except.exists_eq_ok_of_any {x : Except ε α} {p : α → Bool} (h : x.toOption.any p = true) :
    ∃ a, x = .ok a ∧ p a = true := by
  cases x with
  | ok a => exact ⟨a, rfl, h⟩
  | error e => cases h

theorem Except.exists_eq_error_of_toOption {x : Except ε α} (h : x.toOption = none) :
    ∃ e, x = .error e := by
  cases x with
  | ok a => cases h
  | error e => exact ⟨e, rfl⟩

theorem Except.guard_eq_ok_iff {c : Prop} [Decidable c] {e : ε} {k : PUnit → Except ε α}
    {x : Except ε α} {a : α} : (if c then throw e >>= k else x) = .ok a ↔ ¬ c ∧ x = .ok a := by
  split
  · rename_i h
    exact ⟨fun heq => (by cases heq), fun heq => absurd h heq.1⟩
  · rename_i h
    exact ⟨fun heq => ⟨h, heq⟩, And.right⟩

theorem Except.mapM_eq_ok {f : α → Except ε β} {P : α → β → Prop} {as : List α}
    (h : ∀ a ∈ as, ∃ b, f a = .ok b ∧ P a b) :
    ∃ bs, as.mapM f = .ok bs ∧ (∀ a ∈ as, ∃ b ∈ bs, P a b) ∧ ∀ b ∈ bs, ∃ a ∈ as, P a b := by
  induction as with
  | nil => exact ⟨[], rfl, by simp, by simp⟩
  | cons a as ih =>
    obtain ⟨b, hb, hP⟩ := h a List.mem_cons_self
    obtain ⟨bs, hbs, hto, hfrom⟩ := ih fun a ha => h a (List.mem_cons_of_mem _ ha)
    refine ⟨b :: bs, ?_, List.forall_mem_cons.mpr ⟨?_, fun a ha => ?_⟩,
      List.forall_mem_cons.mpr ⟨?_, fun b hb => ?_⟩⟩
    · rw [List.mapM_cons, hb]
      change (as.mapM f >>= fun bs => pure (b :: bs)) = _
      rw [hbs]
      rfl
    · exact ⟨b, List.mem_cons_self, hP⟩
    · obtain ⟨b, hb, hP⟩ := hto a ha
      exact ⟨b, List.mem_cons_of_mem _ hb, hP⟩
    · exact ⟨a, List.mem_cons_self, hP⟩
    · obtain ⟨a, ha, hP⟩ := hfrom b hb
      exact ⟨a, List.mem_cons_of_mem _ ha, hP⟩

theorem Except.mapM_eq_ok_iff {f : α → Except ε β} {as : List α} {bs : List β} :
    as.mapM f = .ok bs ↔ List.Forall₂ (fun a b => f a = .ok b) as bs := by
  induction as generalizing bs with
  | nil =>
    rw [List.mapM_nil, List.forall₂_nil_left_iff]
    exact ⟨fun h => (Except.ok.inj h).symm, fun h => congrArg Except.ok h.symm⟩
  | cons a as ih =>
    rw [List.mapM_cons, List.forall₂_cons_left_iff, Except.bind_eq_ok_iff]
    simp only [Except.bind_eq_ok_iff, ih]
    constructor
    · rintro ⟨b, hb, bs, hbs, hout⟩
      cases hout
      exact ⟨b, bs, hb, hbs, rfl⟩
    · rintro ⟨b, bs, hb, hbs, rfl⟩
      exact ⟨b, hb, bs, hbs, rfl⟩

theorem Except.arrayMapM_eq_ok_iff {f : α → Except ε β} {as : Array α} {bs : Array β} :
    as.mapM f = .ok bs ↔ List.Forall₂ (fun a b => f a = .ok b) as.toList bs.toList := by
  rw [← mapM_eq_ok_iff, Array.mapM_eq_mapM_toList]
  cases as.toList.mapM f with
  | ok ls =>
    refine ⟨fun h => ?_, fun h => ?_⟩
    · cases h
      rfl
    · cases h
      rfl
  | error e => exact ⟨fun h => (by cases h), fun h => (by cases h)⟩

theorem Except.listMapM_eq_map {f : α → Except ε β} {k : α → β} {as : List α}
    (h : ∀ a ∈ as, f a = .ok (k a)) : as.mapM f = .ok (as.map k) := by
  induction as with
  | nil => rfl
  | cons a as ih =>
    rw [List.mapM_cons, h a List.mem_cons_self, ih fun a ha => h a (List.mem_cons_of_mem _ ha)]
    rfl

theorem Except.mapM_eq_map {f : α → Except ε β} {k : α → β} {as : Array α}
    (h : ∀ a ∈ as, f a = .ok (k a)) : as.mapM f = .ok (as.map k) := by
  rw [Array.mapM_eq_mapM_toList, listMapM_eq_map fun a ha => h a (Array.mem_toList_iff.mp ha),
    ← Array.toList_map]
  rfl

/-- A result has the property `ok`, or the error that is there in its place has the property
`err`. -/
def Yields (x : Except ε α) (ok : α → Prop) (err : ε → Prop) : Prop :=
  match x with
  | .ok a => ok a
  | .error e => err e

namespace Yields

variable {x : Except ε α} {ok : α → Prop} {err : ε → Prop} {a : α} {e : ε}

theorem of_eq_ok (h : Yields x ok err) (hx : x = .ok a) : ok a := by
  subst hx
  exact h

theorem of_eq_error (h : Yields x ok err) (hx : x = .error e) : err e := by
  subst hx
  exact h

theorem mono {ok' : α → Prop} {err' : ε → Prop} (h : Yields x ok err) (hok : ∀ a, ok a → ok' a)
    (herr : ∀ e, err e → err' e) : Yields x ok' err' := by
  cases x with
  | ok a => exact hok a h
  | error e => exact herr e h

end Yields

def Remembers [BEq α] [Hashable α] (P : α → β → Prop) (memo : Std.HashMap α β) : Prop :=
  ∀ a b, memo[a]? = some b → P a b

namespace Remembers

variable [BEq α] [Hashable α] {P Q : α → β → Prop} {memo : Std.HashMap α β} {a : α} {b : β}

theorem empty : Remembers P (∅ : Std.HashMap α β) := by
  intro a b h
  rw [Std.HashMap.getElem?_empty] at h
  cases h

theorem imp (h : Remembers P memo) (hPQ : ∀ a b, P a b → Q a b) : Remembers Q memo :=
  fun a b hab => hPQ a b (h a b hab)

theorem insert [LawfulBEq α] [LawfulHashable α] (h : Remembers P memo) (hab : P a b) :
    Remembers P (memo.insert a b) := by
  intro c d hcd
  rw [Std.HashMap.getElem?_insert] at hcd
  split at hcd
  · rename_i hac
    obtain rfl := eq_of_beq hac
    cases hcd
    exact hab
  · exact h c d hcd

end Remembers

section Run

variable {op : ExceptT ε (StateM σ) α} {k : α → ExceptT ε (StateM σ) β} {s s' : σ} {a : α} {e : ε}

theorem run_bind_eq (op : ExceptT ε (StateM σ) α) (k : α → ExceptT ε (StateM σ) β) (s : σ) :
    (op >>= k).run s = match op.run s with
      | (.ok a, s') => (k a).run s'
      | (.error e, s') => (.error e, s') := by
  change (match op.run s with
    | (r, s') => (ExceptT.bindCont k r) s') = _
  cases op.run s with
  | mk r s' => cases r <;> rfl

theorem run_bind_of_ok (h : op.run s = (.ok a, s')) : (op >>= k).run s = (k a).run s' := by
  rw [run_bind_eq, h]

theorem run_bind_of_error (h : op.run s = (.error e, s')) :
    (op >>= k).run s = (.error e, s') := by
  rw [run_bind_eq, h]

/-- Operations whose first parts run alike run alike if they go on alike. -/
theorem run_bind_congr {op' : ExceptT ε (StateM σ) α} {k' : α → ExceptT ε (StateM σ) β}
    (h : op.run s = op'.run s)
    (hk : ∀ a s', op'.run s = (.ok a, s') → (k a).run s' = (k' a).run s') :
    (op >>= k).run s = (op' >>= k').run s := by
  rw [run_bind_eq, run_bind_eq, h]
  cases hrun : op'.run s with
  | mk r s' =>
    cases r with
    | ok a => exact hk a s' hrun
    | error e => rfl

theorem run_adapt {ε' : Type} (op : ExceptT ε (StateM σ) α) (f : ε → ε') (s : σ) :
    (op.adapt f).run s = ((op.run s).1.mapError f, (op.run s).2) := rfl

theorem run_liftM_bind {τ : Type} (op : ExceptT ε (StateM σ) α)
    (k : α → StateT τ (ExceptT ε (StateM σ)) β) (m : τ) :
    (liftM op >>= k).run m = op >>= fun a => (k a).run m := by
  rw [StateT.run_bind]
  change ((op >>= fun a => pure (a, m)) >>= fun p => (k p.1).run p.2) = _
  rw [bind_assoc]
  exact congrArg (op >>= ·) (funext fun a => pure_bind _ _)

end Run

/-- What an operation, started in the state `s`, guarantees of its result and of the state it
leaves: `ok` if it succeeds and `err` if it fails. -/
def Ensures (op : ExceptT ε (StateM σ) α) (s : σ) (ok : α → σ → Prop) (err : ε → σ → Prop) : Prop :=
  match op.run s with
  | (.ok a, s') => ok a s'
  | (.error e, s') => err e s'

namespace Ensures

variable {op : ExceptT ε (StateM σ) α} {k : α → ExceptT ε (StateM σ) β} {s : σ}
  {ok ok' : α → σ → Prop} {post : β → σ → Prop} {err err' : ε → σ → Prop}

theorem result {a : α} (h : ok a s) : Ensures (pure a) s ok err := h

theorem failure {e : ε} (h : err e s) :
    Ensures (throw e : ExceptT ε (StateM σ) α) s ok err := h

theorem bindGet {k : σ → ExceptT ε (StateM σ) β} (h : Ensures (k s) s post err) :
    Ensures (get >>= k) s post err := h

theorem bindExcept {x : Except ε α} {a : α} (hx : x = .ok a) (h : Ensures (k a) s post err) :
    Ensures ((liftM x : ExceptT ε (StateM σ) α) >>= k) s post err := by
  subst hx
  exact h

theorem bindUpdateGet {f : σ → β × σ} {k : β → ExceptT ε (StateM σ) α} {b : β} {s' : σ}
    (hf : f s = (b, s')) (h : Ensures (k b) s' ok err) : Ensures (modifyGet f >>= k) s ok err := by
  change Ensures (k (f s).1) (f s).2 ok err
  rwa [hf]

theorem update {f : σ → σ} {ok : PUnit → σ → Prop} (h : ok ⟨⟩ (f s)) :
    Ensures (modify f : ExceptT ε (StateM σ) PUnit) s ok err := h

theorem updateGet {f : σ → α × σ} (h : ok (f s).1 (f s).2) :
    Ensures (modifyGet f : ExceptT ε (StateM σ) α) s ok err := h

theorem lift {x : StateM σ α} (h : ok (x.run s).1 (x.run s).2) :
    Ensures (liftM x : ExceptT ε (StateM σ) α) s ok err := h

theorem mono (h : Ensures op s ok err) (hok : ∀ a s', ok a s' → ok' a s')
    (herr : ∀ e s', err e s' → err' e s') : Ensures op s ok' err' := by
  simp only [Ensures] at h ⊢
  split
  · rename_i hr
    rw [hr] at h
    exact hok _ _ h
  · rename_i hr
    rw [hr] at h
    exact herr _ _ h

theorem and (h : Ensures op s ok err) (h' : Ensures op s ok' err') :
    Ensures op s (fun a s' => ok a s' ∧ ok' a s') fun e s' => err e s' ∧ err' e s' := by
  simp only [Ensures] at h h' ⊢
  split
  · rename_i hr
    rw [hr] at h h'
    exact ⟨h, h'⟩
  · rename_i hr
    rw [hr] at h h'
    exact ⟨h, h'⟩

theorem bind (h : Ensures op s ok err) (hk : ∀ a s', ok a s' → Ensures (k a) s' post err) :
    Ensures (op >>= k) s post err := by
  simp only [Ensures, run_bind_eq] at h ⊢
  cases hr : op.run s with
  | mk r s' =>
    rw [hr] at h
    cases r with
    | ok a => exact hk a s' h
    | error e => exact h

theorem adapt {ε' : Type} {f : ε → ε'} (h : Ensures op s ok err) :
    Ensures (op.adapt f) s ok fun e' s' => ∃ e, e' = f e ∧ err e s' := by
  simp only [Ensures, run_adapt] at h ⊢
  cases hr : op.run s with
  | mk r s' =>
    rw [hr] at h
    cases r with
    | ok a => exact h
    | error e => exact ⟨e, rfl, h⟩

/-- What holds of the state after success and after failure holds of the state that is left. -/
theorem final {P : σ → Prop} (h : Ensures op s (fun _ => P) fun _ => P) : P (op.run s).2 := by
  simp only [Ensures] at h
  split at h
  · rename_i hr
    rwa [hr]
  · rename_i hr
    rwa [hr]

theorem of_final {P : σ → Prop} (h : P (op.run s).2) : Ensures op s (fun _ => P) fun _ => P := by
  simp only [Ensures]
  split
  · rename_i hr
    rwa [hr] at h
  · rename_i hr
    rwa [hr] at h

theorem of_toOption_eq {a : α} (h : Ensures op s ok err) (ha : (op.run s).1.toOption = some a) :
    ok a (op.run s).2 := by
  simp only [Ensures] at h
  split at h
  · rename_i hr
    rw [hr] at ha ⊢
    cases ha
    exact h
  · rename_i hr
    rw [hr] at ha
    cases ha

theorem exists_result (h : Ensures op s ok fun _ _ => False) :
    ∃ a, (op.run s).1 = .ok a ∧ ok a (op.run s).2 := by
  simp only [Ensures] at h
  split at h
  · rename_i hr
    exact ⟨_, by rw [hr], by rwa [hr]⟩
  · exact h.elim

/-- A loop keeps an invariant that speaks of the result so far and of the items to come. -/
theorem foldlM {f : β → α → ExceptT ε (StateM σ) β} {P : β → List α → σ → Prop} {as : List α}
    (h : ∀ b a rest s, a ∈ as → P b (a :: rest) s → Ensures (f b a) s (fun b' => P b' rest) err)
    {b : β} (hb : P b as s) : Ensures (as.foldlM f b) s (fun b' => P b' []) err := by
  induction as generalizing b s with
  | nil => exact result hb
  | cons a as ih =>
    rw [List.foldlM_cons]
    refine (h b a as s List.mem_cons_self hb).bind fun b' s' hb' => ih ?_ hb'
    exact fun b a rest s ha => h b a rest s (List.mem_cons_of_mem _ ha)

theorem forIn {f : α → β → ExceptT ε (StateM σ) (ForInStep β)} {P : β → List α → σ → Prop}
    {as : List α} (h : ∀ b a rest s, a ∈ as → P b (a :: rest) s →
      Ensures (f a b) s (fun r s' => ∃ b', r = .yield b' ∧ P b' rest s') err)
    {b : β} (hb : P b as s) : Ensures (ForIn.forIn as b f) s (fun b' => P b' []) err := by
  induction as generalizing b s with
  | nil => exact result hb
  | cons a as ih =>
    rw [List.forIn_cons]
    refine (h b a as s List.mem_cons_self hb).bind ?_
    rintro _ s' ⟨b', rfl, hb'⟩
    exact ih (fun b a rest s ha => h b a rest s (List.mem_cons_of_mem _ ha)) hb'

theorem mapM_append {f : α → ExceptT ε (StateM σ) β} {P : List α → σ → Prop} {R : α → β → Prop}
    {as done : List α}
    (h : ∀ a done s, a ∈ as → P done s →
      Ensures (f a) s (fun b s' => R a b ∧ P (done ++ [a]) s') err) (hs : P done s) :
    Ensures (as.mapM f) s (fun bs s' => List.Forall₂ R as bs ∧ P (done ++ as) s') err := by
  induction as generalizing done s with
  | nil => exact result ⟨.nil, by rwa [List.append_nil]⟩
  | cons a as ih =>
    rw [List.mapM_cons]
    refine (h a done s List.mem_cons_self hs).bind fun b s₁ ⟨hb, hs₁⟩ => ?_
    have hrest := ih (fun a done s ha => h a done s (List.mem_cons_of_mem _ ha)) hs₁
    refine hrest.bind fun bs s₂ ⟨hbs, hs₂⟩ => result ⟨.cons hb hbs, ?_⟩
    rwa [List.append_assoc] at hs₂

/-- A loop relates its results to the items, and keeps an invariant that speaks of the items that
are done. -/
theorem mapM {f : α → ExceptT ε (StateM σ) β} {P : List α → σ → Prop} {R : α → β → Prop}
    {as : List α}
    (h : ∀ a done s, a ∈ as → P done s →
      Ensures (f a) s (fun b s' => R a b ∧ P (done ++ [a]) s') err) (hs : P [] s) :
    Ensures (as.mapM f) s (fun bs s' => List.Forall₂ R as bs ∧ P as s') err :=
  mapM_append h hs

section Memory

variable {τ : Type} {op : StateT τ (ExceptT ε (StateM σ)) α}
  {k : α → StateT τ (ExceptT ε (StateM σ)) β} {m : τ} {ok : α × τ → σ → Prop}
  {post : β × τ → σ → Prop}

/-- Operations with a memory of their own, which is lost if they fail. -/
theorem bindRun (h : Ensures (op.run m) s ok err)
    (hk : ∀ a m' s', ok (a, m') s' → Ensures ((k a).run m') s' post err) :
    Ensures ((op >>= k).run m) s post err := by
  rw [StateT.run_bind]
  exact h.bind fun p s' hp => hk p.1 p.2 s' hp

theorem bindRunGet {k : τ → StateT τ (ExceptT ε (StateM σ)) β}
    (h : Ensures ((k m).run m) s post err) : Ensures ((get >>= k).run m) s post err := by
  rw [StateT.run_bind, StateT.run_get, pure_bind]
  exact h

theorem bindRunUpdate {f : τ → τ} {k : PUnit → StateT τ (ExceptT ε (StateM σ)) β}
    (h : Ensures ((k ⟨⟩).run (f m)) s post err) : Ensures ((modify f >>= k).run m) s post err := by
  rw [StateT.run_bind, StateT.run_modify, pure_bind]
  exact h

theorem bindRunLift {op : ExceptT ε (StateM σ) α} {ok : α → σ → Prop} (h : Ensures op s ok err)
    (hk : ∀ a s', ok a s' → Ensures ((k a).run m) s' post err) :
    Ensures ((liftM op >>= k).run m) s post err := by
  rw [run_liftM_bind]
  exact h.bind hk

end Memory

end Ensures

def Keeps (P : σ → Prop) (op : ExceptT ε (StateM σ) α) : Prop :=
  ∀ s, P s → Ensures op s (fun _ => P) (fun _ => P)

namespace Keeps

variable {P : σ → Prop} {op : ExceptT ε (StateM σ) α} {k : α → ExceptT ε (StateM σ) β}

theorem result (a : α) : Keeps P (pure a : ExceptT ε (StateM σ) α) := fun _ h => h

theorem failure (e : ε) : Keeps P (throw e : ExceptT ε (StateM σ) α) := fun _ h => h

theorem bind (h : Keeps P op) (hk : ∀ a, Keeps P (k a)) : Keeps P (op >>= k) :=
  fun s hs => (h s hs).bind fun a s' hs' => hk a s' hs'

theorem ite {c : Prop} [Decidable c] {op' : ExceptT ε (StateM σ) α} (h : Keeps P op)
    (h' : Keeps P op') : Keeps P (if c then op else op') := by
  split
  · exact h
  · exact h'

theorem map (h : Keeps P op) (f : α → β) : Keeps P (f <$> op) := by
  rw [map_eq_pure_bind]
  exact h.bind fun _ => result _

theorem final (h : Keeps P op) {s : σ} (hs : P s) : P (op.run s).2 := Ensures.final (h s hs)

theorem foldlM {f : β → α → ExceptT ε (StateM σ) β} (h : ∀ b a, Keeps P (f b a)) (as : List α)
    (b : β) : Keeps P (as.foldlM f b) := by
  induction as generalizing b with
  | nil => exact result b
  | cons a as ih =>
    rw [List.foldlM_cons]
    exact (h b a).bind ih

theorem mapM {f : α → ExceptT ε (StateM σ) β} {as : List α} (h : ∀ a ∈ as, Keeps P (f a)) :
    Keeps P (as.mapM f) := by
  induction as with
  | nil => exact result []
  | cons a as ih =>
    rw [List.mapM_cons]
    refine (h a List.mem_cons_self).bind fun b => ?_
    exact (ih fun a ha => h a (List.mem_cons_of_mem _ ha)).bind fun _ => result _

theorem forIn {f : α → β → ExceptT ε (StateM σ) (ForInStep β)} (h : ∀ a b, Keeps P (f a b))
    (as : List α) (b : β) : Keeps P (ForIn.forIn as b f) := by
  induction as generalizing b with
  | nil => exact result b
  | cons a as ih =>
    rw [List.forIn_cons]
    refine (h a b).bind fun r => ?_
    cases r with
    | done b => exact result b
    | yield b => exact ih b

end Keeps

end AndInverter
