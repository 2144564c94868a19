import Mathlib.Order.Defs.Unbundled

/-!
# Computations that only look

A computation that answers a question about the state may still move the state, for
instance to remember where it looked. If it moves along a relation that no question
sees, the answers of its parts can be put together without following the state.
-/

namespace Query

variable {σ α β : Type} {R : σ → σ → Prop}

/-- From `s` the computation answers `a`, and moves the state along `R`. -/
def Yields (R : σ → σ → Prop) (m : StateM σ α) (s : σ) (a : α) : Prop :=
  (m.run s).1 = a ∧ R s (m.run s).2

/-- What a question does to the state is done before what is made of its answer. -/
theorem run_bind (m : StateM σ α) (f : α → StateM σ β) (s : σ) :
    (m >>= f).run s = (f (m.run s).1).run (m.run s).2 := rfl

theorem Yields.pure [Std.Refl R] (s : σ) (a : α) : Yields R (pure a : StateM σ α) s a :=
  ⟨rfl, Std.Refl.refl s⟩

/-- A question and what is made of its answer. -/
theorem Yields.bind [IsTrans σ R] {m : StateM σ α} {f : α → StateM σ β} {s : σ} {a : α} {b : β}
    (h : Yields R m s a) (k : ∀ t, R s t → Yields R (f a) t b) : Yields R (m >>= f) s b := by
  have hk := k (m.run s).2 h.2
  rw [← h.1] at hk
  exact ⟨hk.1, IsTrans.trans _ _ _ h.2 hk.2⟩

/-- From `s` the computation answers something with the property `Q`, and moves the state
along `R`. -/
def Ensures (R : σ → σ → Prop) (m : StateM σ α) (s : σ) (Q : α → Prop) : Prop :=
  Q (m.run s).1 ∧ R s (m.run s).2

theorem Ensures.pure [Std.Refl R] {Q : α → Prop} {a : α} (s : σ) (h : Q a) :
    Ensures R (pure a : StateM σ α) s Q :=
  ⟨h, Std.Refl.refl s⟩

/-- An answer that is known. -/
theorem Yields.ensures {m : StateM σ α} {s : σ} {a : α} {Q : α → Prop} (h : Yields R m s a)
    (hq : Q a) : Ensures R m s Q :=
  ⟨h.1 ▸ hq, h.2⟩

theorem Ensures.mono {m : StateM σ α} {s : σ} {Q Q' : α → Prop} (h : Ensures R m s Q)
    (hq : ∀ a, Q a → Q' a) : Ensures R m s Q' :=
  ⟨hq _ h.1, h.2⟩

/-- A question and what is made of any of its answers. -/
theorem Ensures.bind [IsTrans σ R] {m : StateM σ α} {f : α → StateM σ β} {s : σ} {Q : α → Prop}
    {Q' : β → Prop} (h : Ensures R m s Q) (k : ∀ a t, R s t → Q a → Ensures R (f a) t Q') :
    Ensures R (m >>= f) s Q' := by
  have hk := k (m.run s).1 (m.run s).2 h.2 h.1
  exact ⟨hk.1, IsTrans.trans _ _ _ h.2 hk.2⟩

end Query
