/-!
Steps on a state, of which a failing one is the last. What they come to is an outcome and the state
behind them.
-/
namespace PhpGraft.Steps

variable {σ ε ε' α β : Type}

/-- The outcome of some steps, and the state behind them. -/
def exec (x : ExceptT ε (StateM σ) α) (s : σ) : Except ε α × σ := x.run.run s

/-- An outcome that passes a test is no failure. -/
theorem exists_of_any {r : Except ε α} {p : α → Bool} (h : r.toOption.any p = true) :
    ∃ a, r = .ok a ∧ p a = true := by
  cases r with
  | error fault => cases h
  | ok a => exact ⟨a, rfl, h⟩

theorem exists_of_isOk {r : Except ε α} (h : r.isOk = true) : ∃ a, r = .ok a := by
  cases r with
  | error fault => cases h
  | ok a => exact ⟨a, rfl⟩

theorem exec_bind (x : ExceptT ε (StateM σ) α) (f : α → ExceptT ε (StateM σ) β) (s : σ) :
    exec (x >>= f) s = match exec x s with
      | (.ok a, s') => exec (f a) s'
      | (.error fault, s') => (.error fault, s') := by
  unfold exec
  rw [ExceptT.run_bind, StateT.run_bind]
  generalize x.run.run s = r
  obtain ⟨a | a, s'⟩ := r <;> rfl

theorem exec_pure (a : α) (s : σ) : exec (pure a : ExceptT ε (StateM σ) α) s = (.ok a, s) := rfl

/-- A step that may not fail. -/
theorem exec_lift (x : StateM σ α) (s : σ) :
    exec (liftM x : ExceptT ε (StateM σ) α) s = (.ok (x.run s).1, (x.run s).2) := rfl

/-- An outcome that does not depend on the state. -/
theorem exec_mk (r : Except ε α) (s : σ) :
    exec (ExceptT.mk (pure r) : ExceptT ε (StateM σ) α) s = (r, s) := rfl

theorem exec_adapt (f : ε → ε') (x : ExceptT ε (StateM σ) α) (s : σ) :
    exec (ExceptT.adapt f x) s = ((exec x s).1.mapError f, (exec x s).2) := rfl

/-- Steps succeed as they do under other names for what goes wrong. -/
theorem exec_adapt_ok {f : ε → ε'} {x : ExceptT ε (StateM σ) α} {s : σ} {a : α} :
    (exec (ExceptT.adapt f x) s).1 = .ok a ↔ (exec x s).1 = .ok a := by
  rw [exec_adapt]
  cases (exec x s).1 with
  | error fault => exact ⟨nofun, nofun⟩
  | ok b =>
    exact ⟨fun h => congrArg Except.ok (Except.ok.inj h), fun h => congrArg Except.ok (Except.ok.inj h)⟩

/-! Steps that change nothing. -/

def Observes (x : ExceptT ε (StateM σ) α) : Prop := ∀ s, (exec x s).2 = s

theorem observes_pure (a : α) : Observes (pure a : ExceptT ε (StateM σ) α) := fun _ => rfl

theorem observes_throw (fault : ε) : Observes (throw fault : ExceptT ε (StateM σ) α) := fun _ => rfl

theorem observes_mk (r : Except ε α) : Observes (ExceptT.mk (pure r) : ExceptT ε (StateM σ) α) :=
  fun _ => rfl

theorem observes_lift {x : StateM σ α} (h : ∀ s, (x.run s).2 = s) :
    Observes (liftM x : ExceptT ε (StateM σ) α) := h

theorem Observes.bind {x : ExceptT ε (StateM σ) α} {f : α → ExceptT ε (StateM σ) β}
    (hx : Observes x) (hf : ∀ a, Observes (f a)) : Observes (x >>= f) := by
  intro s
  have hs := hx s
  rw [exec_bind]
  generalize exec x s = r at hs
  obtain ⟨fault | a, s'⟩ := r
  · exact hs
  · exact (hf a s').trans hs

/-- Behind steps that change nothing the next ones find the state as it was. -/
theorem Observes.exec_bind_ok {x : ExceptT ε (StateM σ) α} {f : α → ExceptT ε (StateM σ) β} {s : σ}
    {b : β} (hx : Observes x) :
    (exec (x >>= f) s).1 = .ok b ↔ ∃ a, (exec x s).1 = .ok a ∧ (exec (f a) s).1 = .ok b := by
  have hs := hx s
  rw [exec_bind]
  generalize exec x s = r at hs ⊢
  obtain ⟨fault | a, s'⟩ := r <;> obtain rfl : s' = s := hs
  · exact ⟨nofun, nofun⟩
  · exact ⟨fun h => ⟨a, rfl, h⟩, fun ⟨_, ha, h⟩ => Except.ok.inj ha ▸ h⟩

theorem Observes.adapt {x : ExceptT ε (StateM σ) α} (hx : Observes x) (f : ε → ε') :
    Observes (ExceptT.adapt f x) := hx

end PhpGraft.Steps
