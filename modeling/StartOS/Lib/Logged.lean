import Mathlib.Tactic.Common

/-! # Programs that leave a record

A program that stops with an error leaves its state behind, so that what it has
done up to there can be read off. The run lemmas take it apart at its binds; a
relation that every part keeps between its two states holds of the whole.
-/

abbrev Logged (σ ε α : Type) := ExceptT ε (StateM σ) α

namespace Logged

variable {σ ε α β : Type} {m : Logged σ ε α} {f : α → Logged σ ε β} {s s' : σ} {a : α} {e : ε}

def ofExcept (x : Except ε α) : Logged σ ε α := fun s => (x, s)

def exec (m : Logged σ ε α) (s : σ) : Except ε α × σ := m s

theorem exec_bind : (m >>= f).exec s =
    match m.exec s with
    | (.ok a, s') => (f a).exec s'
    | (.error e, s') => (.error e, s') := by
  change (StateT.bind m (ExceptT.bindCont f) : StateM σ _) s = _
  unfold exec StateT.bind
  rcases (m s : Except ε α × σ) with ⟨x | x, s'⟩ <;> rfl

theorem exec_bind_of_ok (h : m.exec s = (.ok a, s')) : (m >>= f).exec s = (f a).exec s' := by
  rw [exec_bind, h]

theorem exec_bind_of_error (h : m.exec s = (.error e, s')) : (m >>= f).exec s = (.error e, s') := by
  rw [exec_bind, h]

@[simp] theorem exec_get_bind {f : σ → Logged σ ε β} :
    ((get : Logged σ ε σ) >>= f).exec s = (f s).exec s := rfl

@[simp] theorem exec_set_bind {f : PUnit → Logged σ ε β} :
    ((set s' : Logged σ ε PUnit) >>= f).exec s = (f ⟨⟩).exec s' := rfl

@[simp] theorem exec_ofExcept {x : Except ε α} : (ofExcept x : Logged σ ε α).exec s = (x, s) := rfl

def Steps (R : σ → σ → Prop) (m : Logged σ ε α) : Prop := ∀ s, R s (m.exec s).2

namespace Steps

variable {R : σ → σ → Prop}

theorem pure (hr : ∀ s, R s s) (a : α) : Steps R (pure a : Logged σ ε α) := hr

theorem bind (ht : ∀ s s' s'', R s s' → R s' s'' → R s s'') (hm : Steps R m)
    (hf : ∀ a, Steps R (f a)) : Steps R (m >>= f) := by
  intro s
  have hfirst := hm s
  rw [exec_bind]
  rcases h : m.exec s with ⟨_ | a, s'⟩ <;> rw [h] at hfirst
  · exact hfirst
  · exact ht _ _ _ hfirst (hf a s')

end Steps

end Logged
