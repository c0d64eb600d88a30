import MayMust.Library.Fallible

/-!
# Computations that only remember

A computation may fail and may extend a state on the way, say a table of declarations, without
ever letting the state decide its result. Such a computation is *oblivious*: it has one result
(`Oblivious.result`), from every state. Oblivious computations are closed under sequencing
(`Oblivious.bind`), and the result of a sequence is the sequence of the results
(`result_bind`), so a statement about results is proved in `Except`, without the state.
-/

namespace Library

variable {σ ε α β : Type}

/-- What a computation returns when it starts in the given state. -/
def resultFrom (x : ExceptT ε (StateM σ) α) (s : σ) : Except ε α := (x.run.run s).1

/-- The state a computation leaves. -/
def stateAfter (x : ExceptT ε (StateM σ) α) (s : σ) : σ := (x.run.run s).2

/-- The result of the computation does not depend on the state. -/
def Oblivious (x : ExceptT ε (StateM σ) α) : Prop := ∀ s s', resultFrom x s = resultFrom x s'

@[simp] theorem resultFrom_pure (a : α) (s : σ) :
    resultFrom (pure a : ExceptT ε (StateM σ) α) s = .ok a := rfl

@[simp] theorem resultFrom_throw (e : ε) (s : σ) :
    resultFrom (throw e : ExceptT ε (StateM σ) α) s = .error e := rfl

@[simp] theorem resultFrom_ofExcept (r : Except ε α) (s : σ) :
    resultFrom (MonadExcept.ofExcept r : ExceptT ε (StateM σ) α) s = r := by
  cases r <;> rfl

theorem resultFrom_bind (x : ExceptT ε (StateM σ) α) (f : α → ExceptT ε (StateM σ) β) (s : σ) :
    resultFrom (x >>= f) s = resultFrom x s >>= fun a ↦ resultFrom (f a) (stateAfter x s) := by
  show (ExceptT.bindCont f (resultFrom x s) (stateAfter x s)).1 = _
  cases resultFrom x s <;> rfl

namespace Oblivious

variable {x : ExceptT ε (StateM σ) α} {f : α → ExceptT ε (StateM σ) β}

@[simp] theorem of_pure (a : α) : Oblivious (pure a : ExceptT ε (StateM σ) α) := fun _ _ ↦ rfl

@[simp] theorem of_throw (e : ε) : Oblivious (throw e : ExceptT ε (StateM σ) α) := fun _ _ ↦ rfl

@[simp] theorem of_ofExcept (r : Except ε α) :
    Oblivious (MonadExcept.ofExcept r : ExceptT ε (StateM σ) α) := fun s s' ↦ by
  rw [resultFrom_ofExcept, resultFrom_ofExcept]

/-- The state passed between two oblivious computations does not matter. -/
theorem resultFrom_bind (hf : ∀ a, Oblivious (f a)) (s : σ) :
    resultFrom (x >>= f) s = resultFrom x s >>= fun a ↦ resultFrom (f a) s := by
  rw [Library.resultFrom_bind]
  exact congrArg _ (funext fun a ↦ hf a _ _)

@[simp] theorem bind (hx : Oblivious x) (hf : ∀ a, Oblivious (f a)) :
    Oblivious (x >>= f) := fun s s' ↦ by
  rw [resultFrom_bind hf, resultFrom_bind hf, hx s s']
  exact congrArg _ (funext fun a ↦ hf a s s')

/-- A sequence that succeeds, part by part, in any state. -/
theorem resultFrom_bind_eq_ok (hf : ∀ a, Oblivious (f a)) (s : σ) (b : β) :
    resultFrom (x >>= f) s = .ok b ↔
      ∃ a, resultFrom x s = .ok a ∧ resultFrom (f a) s = .ok b := by
  rw [resultFrom_bind hf, bind_eq_ok]

end Oblivious

end Library
